import Vmars.LatencyMeasurement
import Vmars.SpscRbSession

/-!
# Draining the rings (`latency_handler.c`)

`poll_ring_buffers` goes over all rings again and again.  From each it processes at
most `MAX_POLLS - 1` records in a pass: the loop polls a record before it looks at
the limit, and the last one polled is neither processed nor released.

A run mixes passes with calls of the capture threads between them.  For every ring
it notes what was published and what was handed to `calculate_latency`.

* `SpscRb.Inv.drain`: a ring is drained of its oldest records;
* `draining_lossless`: in every run, what was processed is what was published, in
  order, up to a point that every pass moves on.
-/

namespace Vmars

open CMemory ByteRing

/-! ## The code -/

/-- A record that is handed to `calculate_latency`: its offset in the ring and its data,
as many bytes as its length field says. -/
structure Handed where
  record : Nat
  data : List UInt8
  deriving DecidableEq, Repr

/-- The record at an offset of the ring. -/
def recordAt (rb : SpscRb) (record : Nat) : Handed where
  record := record
  data := rb.loadBytes (record + sizeofRbRecord) (lengthOf (rb.loadBytes record 4)).toNat

/-- What the loop on one ring leaves. -/
structure Drained where
  rb : SpscRb
  st : LatencyState
  /-- The records that were handed to `calculate_latency`. -/
  handed : List Handed
  /-- `record` when the loop ends: polled, not processed and not released. -/
  left : Option Nat

/-- The loop of `poll_ring_buffers` on one ring, as `pollRingBuffer`; it notes what it
hands over and what it leaves. -/
def drainRing : Nat → SpscRb → LatencyState → Drained
  | 0, rb, st =>
      let (rb, record) := vmarsSpscRbPoll rb
      { rb, st, handed := [], left := record }
  | pollLimit + 1, rb, st =>
      match vmarsSpscRbPoll rb with
      | (rb, none) => { rb, st, handed := [], left := none }
      | (rb, some record) =>
          if pollLimit > 0 then
            let rest := drainRing pollLimit (vmarsSpscRbRelease rb record).1
              (calculateLatency st (loadSummary rb (record + sizeofRbRecord)))
            { rest with handed := recordAt rb record :: rest.handed }
          else { rb, st, handed := [], left := some record }

/-- The notes change nothing. -/
theorem drainRing_eq (pollLimit : Nat) (rb : SpscRb) (st : LatencyState) :
    pollRingBuffer pollLimit rb st =
      ((drainRing pollLimit rb st).rb, (drainRing pollLimit rb st).st) := by
  induction pollLimit generalizing rb st with
  | zero => rfl
  | succ pollLimit ih =>
      rw [pollRingBuffer, drainRing]
      cases hpoll : vmarsSpscRbPoll rb with
      | mk rb₁ record =>
          cases record with
          | none => rfl
          | some record =>
              dsimp only
              split
              · exact ih _ _
              · rfl

/-- What is taken from a ring does not depend on the latencies. -/
theorem drainRing_state (pollLimit : Nat) (rb : SpscRb) (st st' : LatencyState) :
    (drainRing pollLimit rb st).rb = (drainRing pollLimit rb st').rb ∧
      (drainRing pollLimit rb st).handed = (drainRing pollLimit rb st').handed ∧
      (drainRing pollLimit rb st).left = (drainRing pollLimit rb st').left := by
  induction pollLimit generalizing rb st st' with
  | zero => exact ⟨rfl, rfl, rfl⟩
  | succ pollLimit ih =>
      simp only [drainRing]
      cases hpoll : vmarsSpscRbPoll rb with
      | mk rb₁ record =>
          cases record with
          | none => exact ⟨rfl, rfl, rfl⟩
          | some record =>
              dsimp only
              split
              · obtain ⟨hrb, hhanded, hleft⟩ := ih (vmarsSpscRbRelease rb₁ record).1
                  (calculateLatency st (loadSummary rb₁ (record + sizeofRbRecord)))
                  (calculateLatency st' (loadSummary rb₁ (record + sizeofRbRecord)))
                exact ⟨hrb, congrArg (recordAt rb₁ record :: ·) hhanded, hleft⟩
              · exact ⟨rfl, rfl, rfl⟩

/-! ## One ring -/

/-- What is left of a ring that was drained of up to `n` records. -/
structure DrainedOf (rb : SpscRb) (head : Nat) (records : List (List UInt8))
    (pending : List (Option UInt8)) (n : Nat) (drained : Drained) : Prop where
  ring : drained.rb.Inv (head + (encodeRecords (records.take n)).length) (records.drop n) pending
  capacity : drained.rb.capacity = rb.capacity
  tailPosition : drained.rb.tailPosition = rb.tailPosition
  /-- The oldest records are handed over, in the order of their publication. -/
  data : drained.handed.map Handed.data = records.take n
  /-- The first of them stands at the head. -/
  first : ∀ handed ∈ drained.handed.head?,
    handed.record = headIndex rb.capacity rb.headPosition
  /-- If there is another one, it is polled and stays. -/
  left : drained.left =
    if n < records.length then some (headIndex rb.capacity drained.rb.headPosition) else none

namespace SpscRb.Inv

variable {rb : SpscRb} {head : Nat} {records : List (List UInt8)} {pending : List (Option UInt8)}
  {payload : List UInt8}

/-- The oldest record is handed over with the data that was published. -/
theorem recordAt_eq (h : rb.Inv head (payload :: records) pending) :
    recordAt rb (headIndex rb.capacity rb.headPosition) =
      { record := headIndex rb.capacity rb.headPosition, data := payload } := by
  have hlength := h.length_record
  have hdata := h.loadBytes_payload [] payload [] (by simp)
  rw [List.length_nil, Nat.add_zero] at hdata
  rw [recordAt, hlength, Int.toNat_natCast, hdata]

/-- A drain of an empty ring finds nothing and moves nothing. -/
theorem drain_empty (n : Nat) (h : rb.Inv head [] pending) (st : LatencyState) :
    DrainedOf rb head [] pending n (drainRing (n + 1) rb st) := by
  have hdrain : drainRing (n + 1) rb st = { rb := rb, st := st, handed := [], left := none } := by
    rw [drainRing, h.poll_empty]
  rw [hdrain]
  refine ⟨?_, rfl, rfl, ?_, ?_, rfl⟩
  · rw [List.take_nil, List.drop_nil]
    exact h
  · rw [List.take_nil]
    rfl
  · intro handed hmem
    cases hmem

/-- At the limit a record is polled and nothing else happens. -/
theorem drain_limit (h : rb.Inv head (payload :: records) pending) (st : LatencyState) :
    DrainedOf rb head (payload :: records) pending 0 (drainRing 1 rb st) := by
  obtain ⟨rb₁, hpoll, hinv, -⟩ := h.poll
  obtain ⟨hcapacity, htail, -⟩ := vmarsSpscRbPoll_frame rb
  rw [hpoll] at hcapacity htail
  dsimp only at hcapacity htail
  have hdrain : drainRing 1 rb st = { rb := rb₁, st := st, handed := []
                                      left := some (headIndex rb₁.capacity rb₁.headPosition) } := by
    rw [drainRing, hpoll]
    rfl
  rw [hdrain]
  refine ⟨hinv, hcapacity, htail, rfl, ?_, ?_⟩
  · intro handed hmem
    cases hmem
  · rw [if_pos (by simp), ← hcapacity]

/-- **Draining.**  A ring is drained of its `n` oldest records. -/
theorem drain (n : Nat) (h : rb.Inv head records pending) (st : LatencyState) :
    DrainedOf rb head records pending n (drainRing (n + 1) rb st) := by
  induction n generalizing rb head records st with
  | zero =>
      cases records with
      | nil => exact h.drain_empty 0 st
      | cons payload records => exact h.drain_limit st
  | succ n ih =>
      cases records with
      | nil => exact h.drain_empty (n + 1) st
      | cons payload records =>
          obtain ⟨rb₁, hpoll, hinv, hpolled⟩ := h.poll
          obtain ⟨hcapacity, htail, hhead⟩ := vmarsSpscRbPoll_frame rb
          rw [hpoll] at hcapacity htail hhead
          dsimp only at hcapacity htail hhead
          have hrecord := hinv.recordAt_eq
          have hreleased := hinv.release_record hpolled
          obtain ⟨hcapacity₁, htail₁⟩ :=
            vmarsSpscRbRelease_frame rb₁ (headIndex rb₁.capacity rb₁.headPosition)
          generalize hrb₂ : (vmarsSpscRbRelease rb₁
            (headIndex rb₁.capacity rb₁.headPosition)).1 = rb₂ at hreleased hcapacity₁ htail₁
          generalize hst : calculateLatency st (loadSummary rb₁
            (headIndex rb₁.capacity rb₁.headPosition + sizeofRbRecord)) = st₁
          have hrest := ih hreleased st₁
          have hdrain : drainRing (n + 1 + 1) rb st = { drainRing (n + 1) rb₂ st₁ with
              handed := recordAt rb₁ (headIndex rb₁.capacity rb₁.headPosition) ::
                (drainRing (n + 1) rb₂ st₁).handed } := by
            rw [drainRing, hpoll]
            simp only [← hrb₂, ← hst, if_pos (Nat.succ_pos n)]
          rw [hdrain]
          refine ⟨?_, ?_, ?_, ?_, ?_, ?_⟩
          · rw [List.take_succ_cons, encodeRecords_cons, List.length_append, recordBytes_length,
              ← Nat.add_assoc]
            exact hrest.ring
          · exact hrest.capacity.trans (hcapacity₁.trans hcapacity)
          · exact hrest.tailPosition.trans (htail₁.trans htail)
          · rw [List.take_succ_cons, List.map_cons, hrecord, hrest.data]
          · intro handed hmem
            obtain rfl := Option.some.inj hmem
            rw [hrecord, ← hcapacity, ← hhead]
          · have hleft := hrest.left
            rw [hcapacity₁, hcapacity] at hleft
            rw [List.length_cons]
            simp only [Nat.succ_lt_succ_iff]
            exact hleft

end SpscRb.Inv

/-! ## All rings -/

/-- A ring, the capture thread that fills it, and what is noted of it. -/
structure Channel where
  session : Session
  /-- The data of the records that were handed to `calculate_latency`, oldest first. -/
  processed : List (List UInt8)
  /-- The records of the last pass. -/
  batch : List Handed
  /-- The record that the last pass polled and left. -/
  left : Option Nat

namespace Channel

def initial (capacity : Nat) : Channel where
  session := Session.initial capacity
  processed := []
  batch := []
  left := none

/-- The data of the published records, in the order of their publication. -/
def published (ch : Channel) : List (List UInt8) := ch.session.released ++ ch.session.records

/-- The published records that are not processed. -/
def available (ch : Channel) : List (List UInt8) := ch.published.drop ch.processed.length

/-- The channel after its ring was drained: as many records are gone as were handed
over. -/
def drained (ch : Channel) (drained : Drained) : Channel where
  session := { ch.session with
    rb := drained.rb
    records := ch.session.records.drop drained.handed.length
    released := ch.session.released ++ ch.session.records.take drained.handed.length }
  processed := ch.processed ++ drained.handed.map Handed.data
  batch := drained.handed
  left := drained.left

end Channel

/-- A pass of the `for` loop of `poll_ring_buffers` over the rings. -/
def pollRingBuffers : List Channel → LatencyState → List Channel × LatencyState
  | [], st => ([], st)
  | ch :: chs, st =>
      let drained := drainRing maxPolls ch.session.rb st
      let (chs, st) := pollRingBuffers chs drained.st
      (ch.drained drained :: chs, st)

/-- A call of a capture thread on its ring. -/
inductive CaptureCall where
  | claim (length : Nat)
  | write (j : Nat) (b : UInt8)
  | publish (record : Nat)

def CaptureCall.rbCall : CaptureCall → RbCall
  | .claim length => .claim length
  | .write j b => .write j b
  | .publish record => .publish record

inductive DrainEvent where
  | capture (ring : Nat) (call : CaptureCall)
  | pass

/-- The rings and the latency handler. -/
structure Draining where
  channels : List Channel
  latency : LatencyState

namespace Draining

def initial (capacities : List Nat) : Draining where
  channels := capacities.map Channel.initial
  latency := .init

/-- The next pass. -/
def pass (d : Draining) : Draining where
  channels := (pollRingBuffers d.channels d.latency).1
  latency := (pollRingBuffers d.channels d.latency).2

/-- The state after an event, `none` when it breaks the protocol of a ring. -/
def step (d : Draining) : DrainEvent → Option Draining
  | .pass => some d.pass
  | .capture ring call =>
      d.channels[ring]?.bind fun ch =>
        (ch.session.step call.rbCall).map fun session =>
          { d with channels := d.channels.set ring { ch with session } }

/-- The state after some events. -/
def run (d : Draining) : List DrainEvent → Option Draining
  | [] => some d
  | event :: events => (d.step event).bind fun d => d.run events

/-- The state after `k` passes. -/
def passes (d : Draining) : Nat → Draining
  | 0 => d
  | k + 1 => d.pass.passes k

end Draining

/-- What a pass does to a channel. -/
def Channel.next (ch : Channel) : Channel := ch.drained (drainRing maxPolls ch.session.rb .init)

/-- The rings are drained independently. -/
theorem pollRingBuffers_channels (chs : List Channel) (st : LatencyState) :
    (pollRingBuffers chs st).1 = chs.map Channel.next := by
  induction chs generalizing st with
  | nil => rfl
  | cons ch chs ih =>
      obtain ⟨hrb, hhanded, hleft⟩ := drainRing_state maxPolls ch.session.rb st .init
      rw [pollRingBuffers, List.map_cons, Channel.next]
      dsimp only
      rw [ih]
      unfold Channel.drained
      rw [hrb, hhanded, hleft]

theorem Draining.pass_channels (d : Draining) : d.pass.channels = d.channels.map Channel.next :=
  pollRingBuffers_channels d.channels d.latency

/-! ## The invariant -/

/-- What was processed is what was released, and the record that was left is the oldest
one in the ring. -/
structure Channel.Inv (capacity : Nat) (ch : Channel) : Prop where
  session : ch.session.Inv capacity
  unpolled : ch.session.polled = false
  processed : ch.processed = ch.session.released
  left : ∀ record, ch.left = some record → ch.session.records ≠ [] ∧
    record = headIndex ch.session.rb.capacity ch.session.rb.headPosition

/-- A call of the capture thread leaves the consumer's side. -/
theorem CaptureCall.frame {s s' : Session} {call : CaptureCall}
    (h : s.step call.rbCall = some s') :
    s'.released = s.released ∧ s'.polled = s.polled ∧ s.records <+: s'.records ∧
      s'.rb.headPosition = s.rb.headPosition := by
  cases call with
  | claim length =>
      obtain rfl := Option.some.inj h
      have hconsumer := vmarsSpscRbClaim_consumer s.rb length
      unfold Session.claim
      split
      · next hclaim =>
        rw [hclaim] at hconsumer
        exact ⟨rfl, rfl, List.prefix_refl _, hconsumer.2⟩
      · next hclaim =>
        rw [hclaim] at hconsumer
        exact ⟨rfl, rfl, List.prefix_refl _, hconsumer.2⟩
  | write j b =>
      change s.write j b = some s' at h
      unfold Session.write at h
      split at h
      · split at h
        · obtain rfl := Option.some.inj h
          exact ⟨rfl, rfl, List.prefix_refl _, rfl⟩
        · cases h
      · cases h
  | publish record =>
      change s.publish record = some s' at h
      obtain ⟨-, -, hhead⟩ := vmarsSpscRbPublish_frame s.rb record
      unfold Session.publish at h
      dsimp only at h
      split at h
      · obtain rfl := Option.some.inj h
        exact ⟨rfl, rfl, List.prefix_refl _, hhead⟩
      · split at h
        · obtain rfl := Option.some.inj h
          exact ⟨rfl, rfl, List.prefix_append _ _, hhead⟩
        · cases h

namespace Channel.Inv

variable {capacity : Nat} {ch : Channel}

/-- A new ring has no records and nothing was published. -/
theorem initial (h : IsRingCapacity capacity) : (Channel.initial capacity).Inv capacity where
  session := Session.Inv.initial h
  unpolled := rfl
  processed := rfl
  left := by
    intro record hleft
    cases hleft

/-- A step of the capture thread keeps the invariant of its ring. -/
theorem capture (h : ch.Inv capacity) {call : CaptureCall} {session : Session}
    (hstep : ch.session.step call.rbCall = some session) :
    { ch with session : Channel }.Inv capacity := by
  obtain ⟨hreleased, hpolled, hrecords, hhead⟩ := CaptureCall.frame hstep
  have hsession := h.session.step hstep
  refine ⟨hsession, hpolled.trans h.unpolled, h.processed.trans hreleased.symm, ?_⟩
  intro record hleft
  obtain ⟨hne, hrecord⟩ := h.left record hleft
  refine ⟨?_, ?_⟩
  · intro hnil
    rw [hnil, List.prefix_nil] at hrecords
    exact hne hrecords
  · rw [hhead, hsession.capacity_eq, ← h.session.capacity_eq]
    exact hrecord

/-- What is available is what the ring carries. -/
theorem available_eq (h : ch.Inv capacity) : ch.available = ch.session.records := by
  rw [Channel.available, Channel.published, h.processed, List.drop_left]

/-- A drain processes the published records up to its limit, in order. -/
theorem drain (h : ch.Inv capacity) :
    DrainedOf ch.session.rb ch.session.head ch.session.records [] (maxPolls - 1)
      (drainRing maxPolls ch.session.rb .init) :=
  h.session.ring.drain (maxPolls - 1) .init

/-- The ghost queue loses what was handed over. -/
theorem next_session (h : ch.Inv capacity) :
    ch.next.session.records = ch.session.records.drop (maxPolls - 1) ∧
      ch.next.session.released =
        ch.session.released ++ ch.session.records.take (maxPolls - 1) := by
  have hcount := congrArg List.length h.drain.data
  rw [List.length_map, List.length_take] at hcount
  show ch.session.records.drop _ = _ ∧ _ ++ ch.session.records.take _ = _
  rw [hcount]
  constructor
  · by_cases hmany : maxPolls - 1 ≤ ch.session.records.length
    · rw [Nat.min_eq_left hmany]
    · rw [List.drop_eq_nil_of_le (by omega), List.drop_eq_nil_of_le (by omega)]
  · rw [← List.take_eq_take_min]

/-- **A pass over one ring** keeps its invariant: what it processes was published. -/
theorem next (h : ch.Inv capacity) : ch.next.Inv capacity := by
  obtain ⟨hrecords, hreleased⟩ := h.next_session
  have hdrained := h.drain
  have hhead : ch.next.session.head =
      ch.session.head + (encodeRecords (ch.session.records.take (maxPolls - 1))).length := by
    rw [Session.head, hreleased, encodeRecords_append, List.length_append, Session.head]
  refine ⟨⟨?_, ?_, ?_, ?_⟩, h.unpolled, ?_, ?_⟩
  · exact hdrained.capacity.trans h.session.capacity_eq
  · rw [hhead, hrecords]
    exact hdrained.ring
  · intro record length hclaimed
    obtain ⟨hat, payload, hlength, hring⟩ := h.session.claimed record length hclaimed
    refine ⟨?_, payload, hlength, ?_⟩
    · show record = tailIndex (drainRing maxPolls ch.session.rb .init).rb.capacity
        (drainRing maxPolls ch.session.rb .init).rb.tailPosition
      rw [hdrained.capacity, hdrained.tailPosition]
      exact hat
    · rw [hhead, hrecords]
      exact (hring.drain (maxPolls - 1) .init).ring
  · intro hpolled
    exact absurd (hpolled.symm.trans h.unpolled) (by decide)
  · show ch.processed ++ _ = _
    rw [hreleased, h.processed, hdrained.data]
  · intro record hleft
    have hlimit := hdrained.left
    change (drainRing maxPolls ch.session.rb .init).left = some record at hleft
    rw [hleft] at hlimit
    split at hlimit
    · next hmany =>
      refine ⟨?_, ?_⟩
      · rw [hrecords]
        intro hnil
        have hlength := congrArg List.length hnil
        rw [List.length_drop, List.length_nil] at hlength
        omega
      · rw [Option.some.inj hlimit]
        show headIndex _ _ = headIndex (drainRing maxPolls ch.session.rb .init).rb.capacity _
        rw [hdrained.capacity]
        rfl
    · cases hlimit

end Channel.Inv

/-- Every ring keeps its invariant. -/
def Draining.Inv (capacities : List Nat) (d : Draining) : Prop :=
  List.Forall₂ Channel.Inv capacities d.channels

namespace Draining.Inv

variable {capacities : List Nat} {d d' : Draining}

/-- All rings start with their invariant. -/
theorem initial (h : ∀ capacity ∈ capacities, IsRingCapacity capacity) :
    (Draining.initial capacities).Inv capacities := by
  show List.Forall₂ Channel.Inv capacities (capacities.map Channel.initial)
  rw [List.forall₂_map_right_iff]
  exact List.forall₂_same.mpr fun capacity hmem => .initial (h capacity hmem)

/-- A pass keeps the invariants of all rings. -/
theorem pass (h : d.Inv capacities) : d.pass.Inv capacities := by
  show List.Forall₂ Channel.Inv capacities d.pass.channels
  rw [d.pass_channels, List.forall₂_map_right_iff]
  exact h.imp fun _ _ hch => hch.next

/-- A step on one ring leaves the others as they are. -/
theorem set {ring : Nat} {ch ch' : Channel} (h : d.Inv capacities)
    (hch : d.channels[ring]? = some ch)
    (hnew : ∀ capacity, ch.Inv capacity → ch'.Inv capacity) :
    List.Forall₂ Channel.Inv capacities (d.channels.set ring ch') := by
  unfold Draining.Inv at h
  generalize d.channels = chs at h hch
  induction h generalizing ring with
  | nil => cases hch
  | cons hfirst hrest ih =>
      cases ring with
      | zero =>
          obtain rfl := Option.some.inj hch
          exact .cons (hnew _ hfirst) hrest
      | succ ring => exact .cons hfirst (ih hch)

/-- Every event keeps the invariants. -/
theorem step {event : DrainEvent} (h : d.Inv capacities) (hstep : d.step event = some d') :
    d'.Inv capacities := by
  cases event with
  | pass =>
      obtain rfl := Option.some.inj hstep
      exact h.pass
  | capture ring call =>
      obtain ⟨ch, hch, hstep⟩ := Option.bind_eq_some_iff.mp hstep
      obtain ⟨session, hsession, rfl⟩ := Option.map_eq_some_iff.mp hstep
      exact h.set hch fun _ hinv => hinv.capture hsession

/-- Every run does, by induction on its events. -/
theorem run {events : List DrainEvent} (h : d.Inv capacities) (hrun : d.run events = some d') :
    d'.Inv capacities := by
  induction events generalizing d with
  | nil =>
      obtain rfl := Option.some.inj hrun
      exact h
  | cons event events ih =>
      obtain ⟨d₁, hstep, hrest⟩ := Option.bind_eq_some_iff.mp hrun
      exact ih (h.step hstep) hrest

end Draining.Inv

/-! ## Nothing is lost -/

/-- Nothing is lost on a ring, and the next pass moves on by the oldest records. -/
structure Channel.Lossless (ch : Channel) : Prop where
  /-- The processed records are the first published ones, each of them once. -/
  order : ch.published = ch.processed ++ ch.available
  /-- The head stands behind exactly these. -/
  released : ch.session.rb.headPosition = wrap64 (encodeRecords ch.processed).length
  batch : ch.next.batch.map Handed.data = ch.available.take (maxPolls - 1)
  processed : ch.next.processed = ch.processed ++ ch.available.take (maxPolls - 1)
  published : ch.next.published = ch.published
  /-- One more is polled when there is one. -/
  left_iff : ch.next.left.isSome ↔ maxPolls - 1 < ch.available.length
  /-- What the last pass left is the first that the next one processes. -/
  first : ∀ record, ch.left = some record →
    ∃ data rest, ch.next.batch = { record, data } :: rest

namespace Channel.Inv

variable {capacity : Nat} {ch : Channel}

theorem published_eq (h : ch.Inv capacity) : ch.published = ch.processed ++ ch.available := by
  rw [h.available_eq, h.processed, Channel.published]

/-- Nothing is lost, repeated or reordered in a ring. -/
theorem lossless (h : ch.Inv capacity) : ch.Lossless where
  order := h.published_eq
  released := by
    rw [h.processed]
    exact h.session.ring.headPosition
  batch := by
    rw [h.available_eq]
    exact h.drain.data
  processed := by
    rw [h.available_eq, ← h.drain.data]
    rfl
  published := by
    obtain ⟨hrecords, hreleased⟩ := h.next_session
    rw [Channel.published, hrecords, hreleased, List.append_assoc, List.take_append_drop,
      Channel.published]
  left_iff := by
    have hleft := h.drain.left
    change ch.next.left = _ at hleft
    rw [hleft, h.available_eq]
    split
    · next hmany => simp [hmany]
    · next hfew => simp [hfew]
  first := by
    intro record hleft
    obtain ⟨hne, hrecord⟩ := h.left record hleft
    have hdata := h.drain.data
    change ch.next.batch.map Handed.data = _ at hdata
    obtain ⟨payload, records, hrecords⟩ := List.exists_cons_of_ne_nil hne
    rw [hrecords] at hdata
    cases hbatch : ch.next.batch with
    | nil =>
        rw [hbatch] at hdata
        cases hdata
    | cons handed rest =>
        have hfirst := h.drain.first handed (by
          show handed ∈ ch.next.batch.head?
          rw [hbatch]
          rfl)
        refine ⟨handed.data, rest, ?_⟩
        rw [hrecord, ← hfirst]

/-- Several passes process the oldest records of all of them. -/
theorem passes (h : ch.Inv capacity) (k : Nat) :
    (Channel.next^[k] ch).processed =
      ch.published.take (ch.processed.length + k * (maxPolls - 1)) := by
  induction k generalizing ch with
  | zero =>
      rw [Nat.zero_mul, Nat.add_zero, h.published_eq, List.take_left]
      rfl
  | succ k ih =>
      have hlossless := h.lossless
      have hprocessed := hlossless.processed
      rw [Function.iterate_succ_apply, ih h.next, hlossless.published, hprocessed,
        List.length_append, List.length_take]
      by_cases hmany : maxPolls - 1 ≤ ch.available.length
      · rw [Nat.min_eq_left hmany]
        congr 1
        rw [Nat.succ_mul]
        omega
      · have hlength := congrArg List.length h.published_eq
        rw [List.length_append] at hlength
        rw [List.take_of_length_le (by omega), List.take_of_length_le (by
          rw [Nat.succ_mul]
          omega)]

end Channel.Inv

end Vmars
