import Mathlib.Data.Fintype.Basic
import Vmars.CaptureSteps
import Vmars.FixIsolation
import Vmars.FixSimulation
import Vmars.Pipeline

/-!
# The capture threads of an interface

The sockets of all threads of an interface join one fanout group: the kernel hands a packet to
one of them, and the packets of a flow to the same one.  Each thread has its own fragments, its
own counters and its own ring.

A call looks at the fragment of its stream and adds to the rest of its context, so it does the
same in the context of its thread as in one context for all packets.

* `fanout_exact`: **the threads together are one thread**: they fault when it does, keep its
  fragments, add up to its counters and publish its summaries;
* `fanout_measures`: with the latency handler behind them they measure what it would.
-/

namespace Vmars

open CMemory KeyedMachine

/-! ## Counters add up -/

instance : Add Counters where
  add a b :=
    { invalidChecksums := a.invalidChecksums + b.invalidChecksums
      corruptMessages := a.corruptMessages + b.corruptMessages
      validMessages := a.validMessages + b.validMessages
      parsingErrors := a.parsingErrors + b.parsingErrors
      massQuoteCount := a.massQuoteCount + b.massQuoteCount
      massQuoteAckCount := a.massQuoteAckCount + b.massQuoteAckCount
      newOrderSingleCount := a.newOrderSingleCount + b.newOrderSingleCount
      executionReportNewCount := a.executionReportNewCount + b.executionReportNewCount
      traceRequestCount := a.traceRequestCount + b.traceRequestCount
      traceRepsonseCount := a.traceRepsonseCount + b.traceRepsonseCount }

instance : Zero Counters where
  zero := {}

/-- Counters are added field by field. -/
theorem Counters.add_def (a b : Counters) :
    a + b =
      { invalidChecksums := a.invalidChecksums + b.invalidChecksums
        corruptMessages := a.corruptMessages + b.corruptMessages
        validMessages := a.validMessages + b.validMessages
        parsingErrors := a.parsingErrors + b.parsingErrors
        massQuoteCount := a.massQuoteCount + b.massQuoteCount
        massQuoteAckCount := a.massQuoteAckCount + b.massQuoteAckCount
        newOrderSingleCount := a.newOrderSingleCount + b.newOrderSingleCount
        executionReportNewCount := a.executionReportNewCount + b.executionReportNewCount
        traceRequestCount := a.traceRequestCount + b.traceRequestCount
        traceRepsonseCount := a.traceRepsonseCount + b.traceRepsonseCount } := rfl

theorem Counters.zero_def : (0 : Counters) = {} := rfl

instance : AddCommMonoid Counters where
  add_assoc a b c := by simp only [Counters.add_def, Int.add_assoc]
  zero_add a := by simp only [Counters.add_def, Counters.zero_def, Int.zero_add]
  add_zero a := by simp only [Counters.add_def, Counters.zero_def, Int.add_zero]
  add_comm a b := by simp only [Counters.add_def, Int.add_comm]
  nsmul := nsmulRec

theorem countResult_add (a b : Counters) (result : FixResult) :
    countResult (a + b) result = a + countResult b result := by
  cases result <;> simp only [countResult, Counters.add_def, Int.add_assoc]

/-- So is the type of a message. -/
theorem recordMessageTypeCounter_add (a b : Counters) (messageType : Int) :
    recordMessageTypeCounter (a + b) messageType = a + recordMessageTypeCounter b messageType := by
  unfold recordMessageTypeCounter
  split_ifs <;> simp only [Counters.add_def, Int.add_assoc]

/-! ## What a call adds to its context -/

/-- The context since `start` beside one with the fragment of the stream and nothing else: it
has the same fragment, it has the rest on top of what was there, and nothing has changed for
the other streams. -/
structure Over (streamId : Ipv4Stream)
    (start ctx own : CaptureContext (List FixMessageSummary)) : Prop where
  fragment : getFragment ctx streamId = getFragment own streamId
  others : ∀ other, other ≠ streamId → getFragment ctx other = getFragment start other
  rb : ctx.rb = start.rb ++ own.rb
  counters : ctx.counters = start.counters + own.counters
  accepted : ctx.accepted = start.accepted ++ own.accepted

/-- At the start of a call nothing was added. -/
theorem over_start (start : CaptureContext (List FixMessageSummary)) (streamId : Ipv4Stream) :
    Over streamId start start (streamContext streamId (getFragment start streamId)) where
  fragment := (getFragment_streamContext streamId _).symm
  others := fun _ _ => rfl
  rb := (List.append_nil _).symm
  counters := (add_zero start.counters).symm
  accepted := (List.append_nil _).symm

/-- What a call does to a context it adds to the rest of it. -/
theorem over_simulation (start : CaptureContext (List FixMessageSummary))
    (streamId : Ipv4Stream) : Simulation streamId (Over streamId start) where
  fragment h := h.fragment
  storeFragment := by
    intro ctx own h s
    by_cases hfits : s.length ≤ fragmentCapacity
    · rw [storeFragment_eq hfits, storeFragment_eq hfits]
      refine .ok ⟨?_, fun other hother => ?_, h.rb, h.counters, h.accepted⟩
      · simp only [getFragment, Function.update_self]
      · rw [← h.others other hother]
        exact (storeFragment_ok (@storeFragment_eq _ ctx streamId s hfits)).2.1 other hother
    · rw [storeFragment, dif_neg hfits, storeFragment, dif_neg hfits]
      exact .error _
  removeFragment := by
    intro ctx own h
    have hrest : ∀ c : CaptureContext (List FixMessageSummary),
        (removeFragment c streamId).counters = c.counters ∧
          (removeFragment c streamId).accepted = c.accepted := by
      intro c
      unfold removeFragment
      cases c.state with
      | none => exact ⟨rfl, rfl⟩
      | some fragmentMap => exact ⟨rfl, rfl⟩
    refine ⟨?_, fun other hother => ?_, ?_, ?_, ?_⟩
    · rw [getFragment_remove, getFragment_remove, if_pos rfl, if_pos rfl]
    · rw [getFragment_remove, if_neg hother, h.others other hother]
    · rw [removeFragment_rb, removeFragment_rb, h.rb]
    · rw [(hrest ctx).1, (hrest own).1, h.counters]
    · rw [(hrest ctx).2, (hrest own).2, h.accepted]
  corrupt := by
    intro ctx own h
    refine ⟨h.fragment, h.others, h.rb, ?_, h.accepted⟩
    simp only [h.counters, Counters.add_def, Int.add_assoc]
  count := by
    intro ctx own h result
    refine ⟨h.fragment, h.others, h.rb, ?_, h.accepted⟩
    simp only [h.counters, countResult_add]
  accept := by
    intro ctx own h message
    refine ⟨h.fragment, h.others, h.rb, h.counters, ?_⟩
    simp only [h.accepted, List.append_assoc]
  publish := by
    intro ctx own h messageType summary
    refine ⟨h.fragment, h.others, ?_, ?_, h.accepted⟩
    · show ctx.rb ++ [summary] = start.rb ++ (own.rb ++ [summary])
      rw [h.rb, List.append_assoc]
    · simp only [h.counters, recordMessageTypeCounter_add]

/-- **A call adds to its context** what it makes of a context with the fragment of its stream
and nothing else, and faults when it does there. -/
theorem vmarsExtractFixMessages_over (ctx : CaptureContext (List FixMessageSummary))
    (packet : Packet) :
    Related (Over packet.streamId ctx) (vmarsExtractFixMessages ctx packet)
      (vmarsExtractFixMessages
        (streamContext packet.streamId (getFragment ctx packet.streamId)) packet) :=
  (over_simulation ctx packet.streamId).extract (over_start ctx packet.streamId)

/-! ## The calls of a capture -/

/-- The calls of a capture, with a cell for the fragment of each stream; a call that faults
leaves the fragment. -/
def callMachine : Machine Ipv4Stream Packet (Option Fragment)
    (Checked (CaptureContext (List FixMessageSummary))) where
  key := Packet.streamId
  step fragment packet :=
    let call := vmarsExtractFixMessages (streamContext packet.streamId fragment) packet
    ((cellAfter packet.streamId fragment call).1, [call])

/-- The summaries that a call publishes. -/
def eventsIn : Checked (CaptureContext (List FixMessageSummary)) → List FixMessageSummary
  | .ok own => own.rb
  | .error _ => []

/-- What a call counts. -/
def countedIn : Checked (CaptureContext (List FixMessageSummary)) → Counters
  | .ok own => own.counters
  | .error _ => 0

section Calls

variable {ctx ctx' : CaptureContext (List FixMessageSummary)} {packets : List Packet}

theorem callMachine_key : callMachine.key = Packet.streamId := by rw [callMachine]

/-- Its output is the whole call, on the fragment of the stream alone. -/
theorem callMachine_step (fragment : Option Fragment) (packet : Packet) :
    callMachine.step fragment packet =
      ((cellAfter packet.streamId fragment
          (vmarsExtractFixMessages (streamContext packet.streamId fragment) packet)).1,
        [vmarsExtractFixMessages (streamContext packet.streamId fragment) packet]) := by
  rw [callMachine]

/-- The outputs of a capture begin with the call for its first packet. -/
theorem callMachine_run_cons (ctx : CaptureContext (List FixMessageSummary)) (packet : Packet)
    (packets : List Packet) :
    (callMachine.run (getFragment ctx) (packet :: packets)).2 =
      (packet.streamId, vmarsExtractFixMessages
        (streamContext packet.streamId (getFragment ctx packet.streamId)) packet) ::
        (callMachine.run (callMachine.next (getFragment ctx) packet) packets).2 := by
  rw [Machine.run, Machine.emitted, callMachine_step, callMachine_key]
  rfl

/-- A call that returns is a step of the machine. -/
theorem call_step {packet : Packet} {own : CaptureContext (List FixMessageSummary)}
    (hown : vmarsExtractFixMessages
      (streamContext packet.streamId (getFragment ctx packet.streamId)) packet = .ok own)
    (h : Over packet.streamId ctx ctx' own) :
    getFragment ctx' = callMachine.next (getFragment ctx) packet := by
  funext other
  by_cases hother : other = packet.streamId
  · subst hother
    have hself := callMachine.next_self (getFragment ctx) packet
    rw [callMachine_step, callMachine_key, hown] at hself
    rw [hself, h.fragment]
    rfl
  · have hne : callMachine.key packet ≠ other := by
      rw [callMachine_key]
      exact Ne.symm hother
    rw [h.others other hother, callMachine.next_of_ne (getFragment ctx) hne]

/-- A capture returns when all its calls do. -/
theorem extractAll_isOk_iff_calls :
    (∃ ctx', extractAll ctx packets = .ok ctx') ↔
      ∀ out ∈ (callMachine.run (getFragment ctx) packets).2, ∃ own, out.2 = .ok own := by
  induction packets generalizing ctx with
  | nil =>
      rw [Machine.run_nil]
      exact ⟨fun _ => List.forall_mem_nil _, fun _ => ⟨ctx, rfl⟩⟩
  | cons packet packets ih =>
      have hcall := vmarsExtractFixMessages_over ctx packet
      rw [callMachine_run_cons, List.forall_mem_cons]
      cases hctx : vmarsExtractFixMessages ctx packet with
      | error fault =>
          rw [hctx] at hcall
          constructor
          · rintro ⟨ctx', h⟩
            obtain ⟨ctx₁, hok, -⟩ := bind_eq_ok.mp h
            rw [hctx] at hok
            cases hok
          · rintro ⟨⟨own, hown⟩, -⟩
            dsimp only at hown
            rw [hown] at hcall
            cases hcall
      | ok ctx₁ =>
          obtain ⟨own, hown, hover⟩ := hcall.ok_right hctx
          have hrest : extractAll ctx (packet :: packets) = extractAll ctx₁ packets := by
            rw [extractAll, hctx]
            rfl
          rw [hrest, ih, call_step hown hover]
          exact ⟨fun h => ⟨⟨own, hown⟩, h⟩, fun h => h.2⟩

/-- What a capture adds to its context are the effects of its calls. -/
theorem extractAll_calls (h : extractAll ctx packets = .ok ctx') :
    getFragment ctx' = (callMachine.run (getFragment ctx) packets).1 ∧
      ctx'.rb = ctx.rb ++
        (callMachine.run (getFragment ctx) packets).2.flatMap (fun out => eventsIn out.2) ∧
      ctx'.counters = ctx.counters +
        ((callMachine.run (getFragment ctx) packets).2.map fun out => countedIn out.2).sum := by
  induction packets generalizing ctx with
  | nil =>
      obtain rfl := Except.ok.inj h
      exact ⟨rfl, (List.append_nil _).symm, (add_zero ctx.counters).symm⟩
  | cons packet packets ih =>
      obtain ⟨ctx₁, hcall, hrest⟩ := bind_eq_ok.mp h
      obtain ⟨own, hown, hover⟩ := (vmarsExtractFixMessages_over ctx packet).ok_right hcall
      obtain ⟨hfragments, hrb, hcounters⟩ := ih hrest
      rw [call_step hown hover] at hfragments hrb hcounters
      rw [callMachine_run_cons, List.flatMap_cons, List.map_cons, List.sum_cons, hown]
      refine ⟨hfragments, ?_, ?_⟩
      · rw [hrb, hover.rb, List.append_assoc]
        rfl
      · rw [hcounters, hover.counters, add_assoc]
        rfl

end Calls

/-! ## The threads of a fanout group -/

section Threads

variable {n : Nat} (fanout : Ipv4Stream → Fin n) (packets : List Packet)

/-- A thread before its first packet. -/
def captureStart : CaptureContext (List FixMessageSummary) := { rb := [] }

/-- The packets that the kernel hands to a thread of the group. -/
def packetsOf (thread : Fin n) : List Packet :=
  packets.filter fun packet => fanout packet.streamId = thread

/-- The calls of all packets, from the start. -/
def callsOf (packets : List Packet) :
    List (Ipv4Stream × Checked (CaptureContext (List FixMessageSummary))) :=
  (callMachine.run (getFragment captureStart) packets).2

/-- The calls of a thread are its calls in one capture of all packets. -/
theorem callsOf_packetsOf (thread : Fin n) :
    callsOf (packetsOf fanout packets thread) =
      (callsOf packets).filter fun out => fanout out.1 = thread :=
  (@Machine.run_filter _ _ _ _ _ callMachine (fun streamId => fanout streamId = thread)
    _ _ (fun _ _ => rfl) packets).2.symm

/-- The contexts of the threads, taken together, are one context. -/
structure Together (ctx : CaptureContext (List FixMessageSummary))
    (threads : Fin n → CaptureContext (List FixMessageSummary)) : Prop where
  /-- The fragment of a stream is that of its thread. -/
  fragments : ∀ streamId,
    getFragment ctx streamId = getFragment (threads (fanout streamId)) streamId
  counters : ctx.counters = ∑ thread, (threads thread).counters
  /-- The summaries are those of the threads, merged. -/
  events : ∃ log : List (Nat × FixMessageSummary), log.map Prod.snd = ctx.rb ∧
    (∀ entry ∈ log, entry.1 < n) ∧ ∀ thread : Fin n, laneOf thread log = (threads thread).rb

variable {fanout packets}

/-- One capture faults when that of a thread does. -/
theorem fanout_isOk_iff :
    (∃ ctx, extractAll captureStart packets = .ok ctx) ↔
      ∀ thread, ∃ ctx, extractAll captureStart (packetsOf fanout packets thread) = .ok ctx := by
  have hthreads : ∀ thread,
      (∃ ctx, extractAll captureStart (packetsOf fanout packets thread) = .ok ctx) ↔
        ∀ out ∈ callsOf packets, fanout out.1 = thread → ∃ own, out.2 = .ok own := by
    intro thread
    rw [extractAll_isOk_iff_calls]
    show (∀ out ∈ callsOf (packetsOf fanout packets thread), _) ↔ _
    rw [callsOf_packetsOf]
    constructor
    · intro h out hout hthread
      exact h out (List.mem_filter.mpr ⟨hout, decide_eq_true hthread⟩)
    · intro h out hout
      obtain ⟨hmem, hthread⟩ := List.mem_filter.mp hout
      exact h out hmem (of_decide_eq_true hthread)
  rw [extractAll_isOk_iff_calls]
  constructor
  · intro h thread
    exact (hthreads thread).mpr fun out hout _ => h out hout
  · intro h out hout
    exact (hthreads (fanout out.1)).mp (h _) out hout rfl

/-- The threads together are one thread. -/
theorem fanout_together {ctx : CaptureContext (List FixMessageSummary)}
    {threads : Fin n → CaptureContext (List FixMessageSummary)}
    (hctx : extractAll captureStart packets = .ok ctx)
    (hthreads : ∀ thread,
      extractAll captureStart (packetsOf fanout packets thread) = .ok (threads thread)) :
    Together fanout ctx threads := by
  obtain ⟨hfragments, hrb, hcounters⟩ := extractAll_calls hctx
  have hown := fun thread => extractAll_calls (hthreads thread)
  have hcalls : ∀ thread, (callMachine.run (getFragment captureStart)
      (packetsOf fanout packets thread)).2 =
        (callsOf packets).filter fun out => fanout out.1 = thread :=
    callsOf_packetsOf fanout packets
  refine ⟨fun streamId => ?_, ?_, ?_⟩
  · rw [hfragments, (hown _).1]
    exact (@Machine.run_filter _ _ _ _ _ callMachine (fun other => fanout other = fanout streamId)
      _ _ (fun _ _ => rfl) packets).1 streamId (decide_eq_true rfl)
  · rw [hcounters, sum_lanes _ (fun out => fanout out.1)]
    refine (zero_add _).trans (Finset.sum_congr rfl fun thread _ => ?_)
    rw [(hown thread).2.2, hcalls thread]
    exact (zero_add _).symm
  · refine ⟨(callsOf packets).flatMap fun out =>
      (eventsIn out.2).map fun summary => ((fanout out.1 : Nat), summary), ?_, ?_, ?_⟩
    · have hsnd : ∀ out : Ipv4Stream × Checked (CaptureContext (List FixMessageSummary)),
          ((eventsIn out.2).map fun summary => ((fanout out.1 : Nat), summary)).map Prod.snd =
            eventsIn out.2 := by
        intro out
        rw [List.map_map]
        exact List.map_id _
      rw [hrb, List.map_flatMap]
      simp only [hsnd]
      rfl
    · intro entry hentry
      obtain ⟨out, -, hout⟩ := List.mem_flatMap.mp hentry
      obtain ⟨summary, -, rfl⟩ := List.mem_map.mp hout
      exact (fanout out.1).isLt
    · intro thread
      rw [laneOf_flatMap, (hown thread).2.1, hcalls thread]
      simp only [Fin.val_inj]
      rfl

/-- **The threads of a fanout group are together one thread.**  However the kernel spreads the
streams over the threads, one of them faults exactly when a capture of all packets does; and
otherwise every fragment of that capture is in the thread of its stream, its counters are the
sums of those of the threads, and its summaries are theirs, each thread's in order. -/
theorem fanout_exact (fanout : Ipv4Stream → Fin n) (packets : List Packet) :
    ((∃ ctx, extractAll captureStart packets = .ok ctx) ↔
        ∀ thread, ∃ ctx, extractAll captureStart (packetsOf fanout packets thread) = .ok ctx) ∧
      ∀ (ctx : CaptureContext (List FixMessageSummary))
        (threads : Fin n → CaptureContext (List FixMessageSummary)),
        extractAll captureStart packets = .ok ctx →
        (∀ thread,
          extractAll captureStart (packetsOf fanout packets thread) = .ok (threads thread)) →
        Together fanout ctx threads :=
  ⟨fanout_isOk_iff, fun _ _ hctx hthreads => fanout_together hctx hthreads⟩

end Threads

/-- Two threads, for the streams to a port and for all others. -/
def byDport (streamId : Ipv4Stream) : Fin 2 := if streamId.dport = 1 then 1 else 0

/-- An order and its report, and an order on another stream between them. -/
def orderPackets : List Packet :=
  [⟨exampleStream, 7, 300, orderExample.encode, by decide⟩,
    ⟨otherStream, 7, 500, newOrderExample.encode, newOrderExample_fits⟩,
    ⟨exampleStream, 8, 100, reportExample.encode, by decide⟩]

def orderContext : CaptureContext (List FixMessageSummary) :=
  (extractAll captureStart orderPackets).toOption.get (by decide +kernel)

/-- Neither of the two threads faults. -/
theorem orderThreads_isSome : ∀ thread,
    (extractAll captureStart (packetsOf byDport orderPackets thread)).toOption.isSome := by
  decide +kernel

def orderThreads (thread : Fin 2) : CaptureContext (List FixMessageSummary) :=
  (extractAll captureStart (packetsOf byDport orderPackets thread)).toOption.get
    (orderThreads_isSome thread)

/-- The two threads together, and one capture of all three packets. -/
theorem fanout_exact_orders : Together byDport orderContext orderThreads :=
  (fanout_exact byDport orderPackets).2 _ _ (eq_ok_get _) fun _ => eq_ok_get _

/-! ## With the latency handler -/

section Latency

variable {n capacity : Nat} {fanout : Ipv4Stream → Fin n} {packets : List Packet}
  {threads : Fin n → CaptureContext (List FixMessageSummary)}

/-- The threads with their rings, as the latency handler sees them. -/
def fanoutThreads (capacity : Nat) (threads : Fin n → CaptureContext (List FixMessageSummary)) :
    List (Nat × List FixMessageSummary) :=
  List.ofFn fun thread => (capacity, (threads thread).rb)

/-- The threads of the pipeline are those of the group, with rings of one capacity. -/
theorem mem_fanoutThreads {entry : Nat × List FixMessageSummary} :
    entry ∈ fanoutThreads capacity threads ↔
      ∃ thread, (capacity, (threads thread).rb) = entry := by
  rw [fanoutThreads, List.mem_ofFn]

/-- They are in the order of their numbers. -/
theorem getElem?_fanoutThreads (thread : Fin n) :
    (fanoutThreads capacity threads)[(thread : Nat)]? = some (capacity, (threads thread).rb) := by
  rw [fanoutThreads, List.getElem?_ofFn, dif_pos thread.isLt]

/-- What the threads publish fits a record. -/
theorem fanoutThreads_fits (hsize : ∀ packet ∈ packets, packet.data.length ≤ maxPayload)
    (hthreads : ∀ thread,
      extractAll captureStart (packetsOf fanout packets thread) = .ok (threads thread)) :
    ∀ entry ∈ fanoutThreads capacity threads, ∀ summary ∈ entry.2, summary.Fits := by
  intro entry hentry
  obtain ⟨thread, rfl⟩ := mem_fanoutThreads.mp hentry
  have hsteps : CaptureSteps maxPayload captureStart (threads thread) :=
    extractAll_steps (fun packet hpacket => hsize packet (List.mem_of_mem_filter hpacket))
      (by decide) (hthreads thread)
  apply hsteps.fits (by decide)
  intro summary hsummary
  cases hsummary

section Lanes

variable {log : List (Nat × FixMessageSummary)}
  (hthread : ∀ thread : Fin n, laneOf (thread : Nat) log = (threads thread).rb)

include hthread

/-- The threads have the lanes of a log that all of them write. -/
theorem fanoutThreads_eq_lanes :
    fanoutThreads capacity threads =
      (List.range n).map fun thread => (capacity, laneOf thread log) := by
  apply List.ext_getElem
  · rw [fanoutThreads, List.length_ofFn, List.length_map, List.length_range]
  · intro i hi hi'
    rw [List.length_map, List.length_range] at hi'
    simp only [fanoutThreads, List.getElem_ofFn, List.getElem_map, List.getElem_range]
    exact Prod.ext rfl (hthread ⟨i, hi'⟩).symm

/-- A key is in one lane of the log when it is in one thread. -/
theorem lanes_apart (hlanes : ∀ entry ∈ log, entry.1 < n)
    (hapart : KeysApart (fanoutThreads capacity threads)) :
    ∀ a ∈ log, ∀ b ∈ log,
      latencyMatcher.machine.key a.2 = latencyMatcher.machine.key b.2 → a.1 = b.1 := by
  have hmem : ∀ entry ∈ log, ∃ thread : Fin n, (thread : Nat) = entry.1 ∧
      entry.2 ∈ (threads thread).rb := by
    intro entry hentry
    refine ⟨⟨entry.1, hlanes entry hentry⟩, rfl, ?_⟩
    rw [← hthread]
    exact List.mem_map_of_mem (List.mem_filter.mpr ⟨hentry, decide_eq_true rfl⟩)
  intro a ha b hb hkey
  obtain ⟨thread, hi, hmem₁⟩ := hmem a ha
  obtain ⟨thread', hj, hmem₂⟩ := hmem b hb
  rw [← hi, ← hj]
  exact hapart thread thread' _ _ (getElem?_fanoutThreads thread)
    (getElem?_fanoutThreads thread') a.2 hmem₁ b.2 hmem₂ hkey

end Lanes

/-- **The threads measure what one thread would.**  When no thread faults and every summary got
through its ring, whatever the schedule, and no key is in two threads, the table and the
latencies, up to their order, are those of one capture of all packets. -/
theorem fanout_measures (hcapacity : IsRingCapacity capacity)
    (hsize : ∀ packet ∈ packets, packet.data.length ≤ maxPayload)
    (hthreads : ∀ thread,
      extractAll captureStart (packetsOf fanout packets thread) = .ok (threads thread))
    (hapart : KeysApart (fanoutThreads capacity threads))
    {events : List PipelineEvent} {p : Pipeline}
    (hrun : (Pipeline.initial (fanoutThreads capacity threads)).run events = some p)
    (hdrained : p.Drained) :
    ∃ ctx, extractAll captureStart packets = .ok ctx ∧
      p.latency.latencyTable = (calculateLatencies .init ctx.rb).latencyTable ∧
      p.latency.histogram.Perm (calculateLatencies .init ctx.rb).histogram := by
  obtain ⟨ctx, hctx⟩ := fanout_isOk_iff.mpr fun thread => ⟨_, hthreads thread⟩
  refine ⟨ctx, hctx, ?_⟩
  obtain ⟨log, hlog, hlanes, hthread⟩ := (fanout_together hctx hthreads).events
  have hcapacities : ∀ entry ∈ fanoutThreads capacity threads, IsRingCapacity entry.1 := by
    intro entry hentry
    obtain ⟨thread, rfl⟩ := mem_fanoutThreads.mp hentry
    exact hcapacity
  obtain ⟨-, hall, hschedule⟩ :=
    pipeline_schedule hcapacities (fanoutThreads_fits hsize hthreads) hrun
  -- what was handled is what came from the lanes of the log
  have hhandled : p.handled = (List.range n).flatMap fun thread => laneOf thread log := by
    rw [hall hdrained, fanoutThreads_eq_lanes hthread, List.flatMap_map]
  obtain ⟨htable, hhistogram⟩ := hschedule hapart
  obtain ⟨hmerged, hperm⟩ := @Machine.run_lanes _ _ _ _ _ latencyMatcher.machine
    LatencyState.init.latencyTable log n hlanes (lanes_apart hthread hlanes hapart)
  rw [hhandled, calculateLatencies_eq] at htable hhistogram
  rw [← hlog, calculateLatencies_eq]
  exact ⟨htable.trans hmerged.symm,
    hhistogram.trans (((hperm.symm).map _).append_left _)⟩

end Latency

/-- The publications of both threads, and the polls. -/
def orderEvents : List PipelineEvent := [.push 1, .push 0, .poll 0, .poll 1, .push 0, .poll 0]

/-- The two threads and the latency handler measure what one thread would. -/
theorem fanout_measures_orders :
    let p := ((Pipeline.initial (fanoutThreads 4096 orderThreads)).run orderEvents).get
      (by decide +kernel)
    ∃ ctx, extractAll captureStart orderPackets = .ok ctx ∧
      p.latency.latencyTable = (calculateLatencies .init ctx.rb).latencyTable ∧
      p.latency.histogram.Perm (calculateLatencies .init ctx.rb).histogram :=
  @fanout_measures 2 4096 byDport orderPackets orderThreads ⟨12, by decide, rfl⟩ (by decide)
    (fun _ => eq_ok_get _) (keysApart_iff.mpr (by decide +kernel)) orderEvents _
    (Option.some_get _).symm (by unfold Pipeline.Drained; decide +kernel)

end Vmars
