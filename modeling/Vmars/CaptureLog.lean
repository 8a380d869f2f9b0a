import Vmars.FixSimulation
import Vmars.TrafficAccounting

/-!
# The capture and its ring

A capture publishes summaries in the ring of its context and never reads it, and a summary
for which there is no room is dropped without a trace.  What a capture does to its ring is
therefore the same for every ring: it publishes the summaries of a log, in order.

* `logged_simulation`: over any ring a call of `vmars_extract_fix_messages` faults when it does
  over a log, and otherwise leaves the counters, fragments and accepted messages of the log, and
  the ring that has taken its summaries;
* `pollSocket_pushes`: so does the walk over the blocks of the kernel.
-/

namespace Vmars

open CMemory

section Log

variable {R : Type} [RingBuffer R] {rb : R} {ctx : CaptureContext R}
  {log : CaptureContext (List FixMessageSummary)} {packet : Packet}

/-- The context is that of the log, its ring has taken the summaries of the log. -/
structure Logged (rb : R) (ctx : CaptureContext R)
    (log : CaptureContext (List FixMessageSummary)) : Prop where
  rb : ctx.rb = log.rb.foldl RingBuffer.push rb
  counters : ctx.counters = log.counters
  state : ctx.state = log.state
  accepted : ctx.accepted = log.accepted

/-- Both contexts have the same fragments. -/
theorem Logged.getFragment_eq (h : Logged rb ctx log) (streamId : Ipv4Stream) :
    getFragment ctx streamId = getFragment log streamId := by
  unfold getFragment
  rw [h.state]

/-- The ring is used in one place, where a summary is published. -/
theorem logged_simulation (rb : R) (streamId : Ipv4Stream) :
    Simulation streamId (Logged rb) where
  fragment h := h.getFragment_eq streamId
  storeFragment := by
    intro ctx log h s
    unfold storeFragment
    split
    · exact .ok ⟨h.rb, h.counters, by rw [h.state], h.accepted⟩
    · exact .error _
  removeFragment := by
    intro ctx log h
    unfold removeFragment
    rw [h.state]
    cases hstate : log.state with
    | none => exact h
    | some fragmentMap => exact ⟨h.rb, h.counters, rfl, h.accepted⟩
  corrupt h := ⟨h.rb, by rw [h.counters], h.state, h.accepted⟩
  count h _ := ⟨h.rb, by rw [h.counters], h.state, h.accepted⟩
  accept h _ := ⟨h.rb, h.counters, h.state, by rw [h.accepted]⟩
  publish := by
    intro ctx log h messageType summary
    refine ⟨?_, by rw [h.counters], h.state, h.accepted⟩
    show RingBuffer.push ctx.rb summary = (log.rb ++ [summary]).foldl RingBuffer.push rb
    rw [h.rb, List.foldl_append]
    rfl

/-- The extraction of a range of the mapped memory, one past its end included. -/
theorem Logged.extractRange (h : Logged rb ctx log) (mem : List UInt8) (call : ExtractCall) :
    Related (Logged rb) (extractRange ctx mem call) (extractRange log mem call) := by
  unfold Vmars.extractRange
  rw [h.getFragment_eq]
  split
  · split
    · exact (logged_simulation rb call.streamId).extract h
    · exact .error _
  · cases getFragment log call.streamId with
    | none => exact .ok ⟨h.rb, by rw [h.counters], h.state, h.accepted⟩
    | some fragment =>
        dsimp only
        split
        · exact .error _
        · exact .ok h

/-- A frame of the block. -/
theorem Logged.display (h : Logged rb ctx log) (port : Int) (mem : List UInt8) (ppd : Nat) :
    Related (Logged rb) (display port mem ppd ctx) (display port mem ppd log) := by
  unfold Vmars.display
  apply Related.bind_self
  intro call
  cases call with
  | none => exact .ok h
  | some call => exact h.extractRange mem call

/-- The frames of a block, by induction on their number. -/
theorem Logged.walkPackets (h : Logged rb ctx log) (port : Int) (pbd : List UInt8)
    (left ppd bytes : Nat) :
    Related (Along (Logged rb)) (walkPackets (Vmars.display port pbd) pbd left ppd ctx bytes)
      (walkPackets (Vmars.display port pbd) pbd left ppd log bytes) := by
  induction left generalizing ppd ctx log bytes with
  | zero => exact .ok ⟨h, rfl⟩
  | succ left ih =>
      apply Related.bind_self
      intro hdr
      refine (h.display port pbd ppd).bind fun ctx log h => ?_
      exact ih h _ _

/-- Two threads that have counted the same bytes. -/
structure LoggedThread (rb : R) (th : Monitored (CaptureContext R))
    (log : Monitored (CaptureContext (List FixMessageSummary))) : Prop where
  ctx : Logged rb th.ctx log.ctx
  bytesTotal : th.bytesTotal = log.bytesTotal

/-- A block, with the bytes that are counted for it. -/
theorem LoggedThread.walkBlock {th : Monitored (CaptureContext R)}
    {log : Monitored (CaptureContext (List FixMessageSummary))} (h : LoggedThread rb th log)
    (port : Int) (pbd : List UInt8) :
    Related (LoggedThread rb) (walkBlock (Vmars.display port) th pbd)
      (walkBlock (Vmars.display port) log pbd) := by
  unfold Vmars.walkBlock
  apply Related.bind_self
  intro numPkts
  apply Related.bind_self
  intro offsetToFirstPkt
  refine (h.ctx.walkPackets port pbd _ _ _).bind ?_
  rintro ⟨ctx, bytes⟩ ⟨log₁, _⟩ ⟨hctx, -⟩
  exact .ok ⟨hctx, by rw [h.bytesTotal]⟩

/-- The blocks, one after the other. -/
theorem LoggedThread.walkBlocks (port : Int) (blocks : List (List UInt8))
    {th : Monitored (CaptureContext R)} {log : Monitored (CaptureContext (List FixMessageSummary))}
    (h : LoggedThread rb th log) :
    Related (LoggedThread rb) (walkBlocks (Vmars.display port) th blocks)
      (walkBlocks (Vmars.display port) log blocks) := by
  induction blocks generalizing th log with
  | nil => exact .ok h
  | cons pbd blocks ih =>
      unfold Vmars.walkBlocks at ih ⊢
      rw [List.foldlM_cons, List.foldlM_cons]
      exact (h.walkBlock port pbd).bind fun th log h => ih h

/-- The threads before their first block. -/
theorem LoggedThread.initial (rb : R) :
    LoggedThread rb { ctx := { rb := rb }, bytesTotal := 0 }
      { ctx := { rb := [] }, bytesTotal := 0 } :=
  ⟨⟨rfl, rfl, rfl, rfl⟩, rfl⟩

/-- **A full ring changes nothing but the ring.**  Over any ring, the walk over the blocks of
the kernel parses, counts and reassembles as over a log that drops nothing, faults included,
and publishes the summaries of the log in order. -/
theorem pollSocket_pushes (rb : R) (port : Int) (blocks : List (List UInt8)) :
    Related (LoggedThread rb) (pollSocket port { ctx := { rb := rb }, bytesTotal := 0 } blocks)
      (pollSocket port { ctx := { rb := [] }, bytesTotal := 0 } blocks) :=
  (LoggedThread.initial rb).walkBlocks port blocks

end Log

end Vmars
