import Vmars.SpscRbRecords
import Vmars.SpscRbInterleaving

/-!
# The ring under one thread

A session is a run of uninterrupted calls by a single thread that keeps to the
protocol: what is published was claimed and what is released was polled.  Calls that
fail may be made at any time, and a record may be claimed again before it is
published.

The session remembers the published records, which the code does not.  With them,
`session_exact` says what the cached positions may not change: `claim` grants exactly
what fits behind the true head, `poll` finds a record exactly when one is published,
and a call that fails changes nothing.
-/

namespace Vmars

open CMemory ByteRing

/-! ## Sessions -/

/-- A call of the thread.  A record is given by its offset, as it was returned. -/
inductive RbCall where
  | claim (length : Nat)
  /-- A byte of the data of the claimed record. -/
  | write (j : Nat) (b : UInt8)
  | publish (record : Nat)
  | poll
  | release (record : Nat)

/-- The ring and what the thread does with it. -/
structure Session where
  rb : SpscRb
  /-- The claimed record and its length. -/
  claimed : Option (Nat × Nat)
  /-- A record is polled and not released. -/
  polled : Bool
  /-- The published records that are not released. -/
  records : List (List UInt8)
  released : List (List UInt8)

namespace Session

/-- Nothing is claimed or polled on a new ring. -/
def initial (capacity : Nat) : Session where
  rb := (System.initial capacity).rb
  claimed := none
  polled := false
  records := []
  released := []

/-- The session after a claim: one that fails leaves what was claimed before. -/
def claim (s : Session) (length : Nat) : Session :=
  match vmarsSpscRbClaim s.rb length with
  | (rb, some record) => { s with rb, claimed := some (record, length) }
  | (rb, none) => { s with rb }

/-- A byte is written into the claimed record. -/
def write (s : Session) (j : Nat) (b : UInt8) : Option Session :=
  match s.claimed with
  | some (record, length) =>
      if j < length then some { s with rb := s.rb.store (record + sizeofRbRecord + j) b } else none
  | none => none

/-- What is published must be claimed; other records may be tried. -/
def publish (s : Session) (toPublish : Nat) : Option Session :=
  let (rb, result) := vmarsSpscRbPublish s.rb toPublish
  if result ≠ 0 then some { s with rb }
  else
    match s.claimed with
    | some (_, length) =>
        some { s with
          rb
          claimed := none
          records := s.records ++ [s.rb.loadBytes (toPublish + sizeofRbRecord) length] }
    | none => none

/-- The session after a poll. -/
def poll (s : Session) : Session :=
  match vmarsSpscRbPoll s.rb with
  | (rb, some _) => { s with rb, polled := true }
  | (rb, none) => { s with rb }

/-- What is released must be polled; other records may be tried. -/
def release (s : Session) (toRelease : Nat) : Option Session :=
  let (rb, result) := vmarsSpscRbRelease s.rb toRelease
  if result ≠ 0 then some { s with rb }
  else
    match s.polled, s.records with
    | true, payload :: records =>
        some { s with rb, polled := false, records, released := s.released ++ [payload] }
    | _, _ => none

/-- The session after a call, `none` when the call breaks the protocol. -/
def step (s : Session) : RbCall → Option Session
  | .claim length => some (s.claim length)
  | .write j b => s.write j b
  | .publish record => s.publish record
  | .poll => some s.poll
  | .release record => s.release record

/-- The session after some calls. -/
def run (s : Session) : List RbCall → Option Session
  | [] => some s
  | call :: calls => (s.step call).bind fun s => s.run calls

/-- The true head: the bytes of all released records. -/
def head (s : Session) : Nat := (encodeRecords s.released).length

/-- The true tail: the bytes of all published records. -/
def tail (s : Session) : Nat := (encodeRecords (s.released ++ s.records)).length

/-- What every allowed call keeps holds after a run of them. -/
theorem run_invariant {P : Session → Prop} {Q : RbCall → Prop}
    (hstep : ∀ {s s' call}, P s → Q call → step s call = some s' → P s')
    {s s' : Session} {calls : List RbCall} (h : P s) (hcalls : ∀ call ∈ calls, Q call)
    (hrun : s.run calls = some s') : P s' := by
  induction calls generalizing s with
  | nil =>
      obtain rfl := Option.some.inj hrun
      exact h
  | cons call calls ih =>
      obtain ⟨s₁, hfirst, hrest⟩ := Option.bind_eq_some_iff.mp hrun
      have hkept := hstep h (hcalls call List.mem_cons_self) hfirst
      exact ih hkept (fun call hmem => hcalls call (List.mem_cons_of_mem _ hmem)) hrest

theorem tail_eq (s : Session) : s.tail = s.head + (encodeRecords s.records).length := by
  rw [tail, head, encodeRecords_append, List.length_append]

end Session

/-! ## The ring without its claimed record -/

/-- Writing bytes leaves the consumer's positions. -/
theorem SpscRb.storeBytes_consumer (rb : SpscRb) (address : Nat) (bytes : List UInt8) :
    (rb.storeBytes address bytes).tailCachePosition = rb.tailCachePosition ∧
      (rb.storeBytes address bytes).headPosition = rb.headPosition := by
  induction bytes generalizing rb address with
  | nil => exact ⟨rfl, rfl⟩
  | cons b bytes ih => exact ih (rb.store address b) (address + 1)

/-- A claim leaves the consumer's positions. -/
theorem vmarsSpscRbClaim_consumer (rb : SpscRb) (length : Nat) :
    (vmarsSpscRbClaim rb length).1.tailCachePosition = rb.tailCachePosition ∧
      (vmarsSpscRbClaim rb length).1.headPosition = rb.headPosition := by
  unfold vmarsSpscRbClaim
  split
  · exact ⟨rfl, rfl⟩
  · exact rb.storeBytes_consumer _ _
  · split
    · exact SpscRb.storeBytes_consumer { rb with headCachePosition := rb.headPosition } _ _
    · exact ⟨rfl, rfl⟩

namespace SpscRb.Inv

variable {rb : SpscRb} {head : Nat} {records : List (List UInt8)} {pending : List (Option UInt8)}
  {payload : List UInt8}

/-- A claimed record may be forgotten. -/
theorem abandon (h : rb.Inv head records pending) : rb.Inv head records [] := by
  obtain ⟨headCache, hle, hcache, hroom⟩ := h.headCache
  refine { h with headCache := ⟨headCache, hle, hcache, ?_⟩, holds := ?_ }
  · rw [List.length_nil]
    omega
  · rw [List.append_nil]
    exact (holds_append.mp h.holds).1

/-- What does not fit behind the true head is not granted. -/
theorem claim_none {length : Nat} (h : rb.Inv head records [])
    (hfits : ¬ (encodeRecords records).length + (length + 4) ≤ rb.capacity) :
    vmarsSpscRbClaim rb length = (rb, none) := by
  unfold vmarsSpscRbClaim
  cases htest : claimTest rb.capacity length rb.tailPosition rb.headCachePosition with
  | invalid => rfl
  | granted =>
      have hreserved := (h.reserve htest).2.length_le
      rw [List.length_replicate] at hreserved
      exact absurd hreserved hfits
  | loadHead =>
      have hlength : length ≤ rb.capacity := by
        unfold claimTest at htest
        split at htest
        · cases htest
        · omega
      have hno : ¬ claimFits rb.capacity length rb.tailPosition rb.headPosition = true :=
        fun hyes => hfits ((h.claimFits_iff hlength).mp hyes)
      simp only [if_neg hno]

/-- The unknown bytes of the claimed record are those that lie in the ring. -/
theorem known {length : Nat} (h : rb.Inv head records
      ((lengthBytes length).map some ++ List.replicate length none)) :
    ∃ payload, payload.length = length ∧ rb.Inv head records ((recordBytes payload).map some) := by
  obtain ⟨headCache, hle, hcache, hroom⟩ := h.headCache
  obtain ⟨hpublished, hclaimed⟩ := holds_append.mp h.holds
  let payload := (List.range length).map fun j =>
    rb.buffer ((head + ((encodeRecords records).map some).length +
      ((lengthBytes length).map some).length + j) % rb.capacity)
  have hlength : payload.length = length := by simp [payload]
  have hpayload : Holds rb.capacity rb.buffer (head + ((encodeRecords records).map some).length +
      ((lengthBytes length).map some).length) (payload.map some) := by
    intro j b hj
    have hlt : j < length := by
      have := (List.getElem?_eq_some_iff.mp hj).1
      rwa [List.length_map, hlength] at this
    rw [List.getElem?_map, List.getElem?_map, List.getElem?_range hlt] at hj
    exact Option.some.inj (Option.some.inj hj)
  have hrecord : (recordBytes payload).map some =
      (lengthBytes length).map some ++ payload.map some := by
    rw [recordBytes, hlength, List.map_append]
  refine ⟨payload, hlength, ?_⟩
  rw [hrecord]
  refine { capacity := h.capacity, headPosition := h.headPosition, tailPosition := h.tailPosition,
           headCache := ⟨headCache, hle, hcache, ?_⟩, tailCache := h.tailCache,
           holds := holds_append.mpr ⟨hpublished, holds_append.mpr
             ⟨(holds_append.mp hclaimed).1, hpayload⟩⟩ }
  rw [List.length_append, List.length_replicate] at hroom
  have hmap : (payload.map some).length = length := by rw [List.length_map, hlength]
  rw [List.length_append, hmap]
  exact hroom

/-- The data of the claimed record, read back. -/
theorem loadBytes_claimed (h : rb.Inv head records ((recordBytes payload).map some)) :
    rb.loadBytes (tailIndex rb.capacity rb.tailPosition + sizeofRbRecord) payload.length =
      payload := by
  apply SpscRb.loadBytes_eq
  intro j b hj
  rw [Nat.add_assoc]
  apply h.load_pending
  rw [List.getElem?_map, recordBytes, List.getElem?_append_right (by simp [sizeofRbRecord]),
    lengthBytes_length, sizeofRbRecord, Nat.add_sub_cancel_left, hj]
  rfl

/-- Writing a byte of its data is writing the byte of the record. -/
theorem store_claimed {j : Nat} (h : rb.Inv head records ((recordBytes payload).map some))
    (hj : j < payload.length) (b : UInt8) :
    (rb.store (tailIndex rb.capacity rb.tailPosition + sizeofRbRecord + j) b).Inv head records
      ((recordBytes (payload.set j b)).map some) := by
  have hstore := h.store (j := sizeofRbRecord + j) (by simp [sizeofRbRecord]; omega) b
  have hset : ((recordBytes payload).map some).set (sizeofRbRecord + j) (some b) =
      (recordBytes (payload.set j b)).map some := by
    rw [← List.map_set, recordBytes, recordBytes, List.length_set,
      List.set_append_right _ _ (by simp [sizeofRbRecord]), lengthBytes_length, sizeofRbRecord,
      Nat.add_sub_cancel_left]
  rw [Nat.add_assoc, ← hset]
  exact hstore

end SpscRb.Inv

/-! ## The invariant of a session -/

/-- The ring carries the records of the session, its claimed record, if there is one,
lies at the tail, and the cached tail shows a polled record. -/
structure Session.Inv (capacity : Nat) (s : Session) : Prop where
  capacity_eq : s.rb.capacity = capacity
  ring : s.rb.Inv s.head s.records []
  claimed : ∀ record length, s.claimed = some (record, length) →
    record = tailIndex s.rb.capacity s.rb.tailPosition ∧
      ∃ payload, payload.length = length ∧
        s.rb.Inv s.head s.records ((recordBytes payload).map some)
  polled : s.polled = true → hasRecord s.rb.tailCachePosition s.rb.headPosition = true

namespace Session.Inv

variable {capacity : Nat} {s s' : Session}

/-- A new ring is empty. -/
theorem initial (h : IsRingCapacity capacity) : (Session.initial capacity).Inv capacity where
  capacity_eq := rfl
  ring := (System.Inv.initial h).ring
  claimed := by
    intro record length hclaimed
    cases hclaimed
  polled := by
    intro hpolled
    cases hpolled

/-- A claim reserves bytes that no record has. -/
theorem claim (h : s.Inv capacity) (length : Nat) : (s.claim length).Inv capacity := by
  by_cases hfits : (encodeRecords s.records).length + (length + 4) ≤ s.rb.capacity
  · obtain ⟨rb', hclaim, hcapacity, htail, hinv⟩ := h.ring.claim hfits
    have hcached := vmarsSpscRbClaim_consumer s.rb length
    unfold Session.claim
    rw [hclaim] at hcached ⊢
    refine ⟨hcapacity.trans h.capacity_eq, hinv.abandon, ?_, ?_⟩
    · intro record length' hclaimed
      obtain ⟨rfl, rfl⟩ := Prod.mk.inj (Option.some.inj hclaimed)
      refine ⟨?_, hinv.known⟩
      rw [hcapacity, htail]
    · intro hpolled
      rw [hcached.1, hcached.2]
      exact h.polled hpolled
  · unfold Session.claim
    rw [h.ring.claim_none hfits]
    exact h

/-- The bytes of a claim are written inside of it. -/
theorem write (h : s.Inv capacity) {j : Nat} {b : UInt8} (hstep : s.write j b = some s') :
    s'.Inv capacity := by
  unfold Session.write at hstep
  split at hstep
  · next record length hclaimed =>
    split at hstep
    · next hj =>
      obtain rfl := Option.some.inj hstep
      obtain ⟨rfl, payload, rfl, hring⟩ := h.claimed record length hclaimed
      have hstore := hring.store_claimed hj b
      refine ⟨h.capacity_eq, hstore.abandon, ?_, h.polled⟩
      intro record' length' hclaimed'
      obtain ⟨rfl, rfl⟩ := Prod.mk.inj (Option.some.inj (hclaimed.symm.trans hclaimed'))
      exact ⟨rfl, payload.set j b, List.length_set, hstore⟩
    · cases hstep
  · cases hstep

/-- **A publish** turns the claim into the newest record. -/
theorem publish (h : s.Inv capacity) {record : Nat} (hstep : s.publish record = some s') :
    s'.Inv capacity := by
  unfold Session.publish at hstep
  by_cases hrecord : record = tailIndex s.rb.capacity s.rb.tailPosition
  · have hresult : (vmarsSpscRbPublish s.rb record).2 = 0 := by
      rw [vmarsSpscRbPublish, if_neg (not_not_intro hrecord)]
    simp only [hresult, ne_eq, not_true_eq_false, if_false] at hstep
    split at hstep
    · next claimed length hclaimed =>
      obtain rfl := Option.some.inj hstep
      obtain ⟨-, payload, rfl, hring⟩ := h.claimed claimed length hclaimed
      have hpublished := hring.publish_record
      have hpayload := hring.loadBytes_claimed
      rw [← hrecord] at hpublished hpayload
      obtain ⟨hcapacity, htailCache, hhead⟩ := vmarsSpscRbPublish_frame s.rb record
      rw [hpayload]
      refine ⟨hcapacity.trans h.capacity_eq, hpublished, ?_, ?_⟩
      · intro record' length' hclaimed'
        cases hclaimed'
      · intro hpolled
        rw [htailCache, hhead]
        exact h.polled hpolled
    · cases hstep
  · have hfailed : vmarsSpscRbPublish s.rb record = (s.rb, EINVAL) := by
      rw [vmarsSpscRbPublish, if_pos hrecord]
    rw [hfailed] at hstep
    obtain rfl := Option.some.inj hstep
    exact h

/-- The cached tail may be brought up to date in a session. -/
theorem cacheTail (h : s.Inv capacity)
    (hthere : hasRecord s.rb.tailPosition s.rb.headPosition = true) :
    { s with rb := { s.rb with tailCachePosition := s.rb.tailPosition }, polled := true }.Inv
      capacity where
  capacity_eq := h.capacity_eq
  ring := h.ring.cacheTail
  claimed := by
    intro record length hclaimed
    obtain ⟨hrecord, payload, hlength, hring⟩ := h.claimed record length hclaimed
    exact ⟨hrecord, payload, hlength, hring.cacheTail⟩
  polled := fun _ => hthere

/-- A poll moves nothing but the cached tail. -/
theorem poll (h : s.Inv capacity) : s.poll.Inv capacity := by
  unfold Session.poll vmarsSpscRbPoll
  by_cases hcached : hasRecord s.rb.tailCachePosition s.rb.headPosition = true
  · simp only [hcached, if_true]
    exact ⟨h.capacity_eq, h.ring, h.claimed, fun _ => hcached⟩
  · by_cases hthere : hasRecord s.rb.tailPosition s.rb.headPosition = true
    · simp only [hcached, hthere, if_true, Bool.false_eq_true, if_false]
      exact h.cacheTail hthere
    · simp only [hcached, hthere, Bool.false_eq_true, if_false]
      exact h

/-- **A release** takes the oldest record away. -/
theorem release (h : s.Inv capacity) {record : Nat} (hstep : s.release record = some s') :
    s'.Inv capacity := by
  unfold Session.release at hstep
  by_cases hrecord : record = headIndex s.rb.capacity s.rb.headPosition
  · have hresult : (vmarsSpscRbRelease s.rb record).2 = 0 := by
      rw [vmarsSpscRbRelease, if_neg (not_not_intro hrecord)]
    simp only [hresult, ne_eq, not_true_eq_false, if_false] at hstep
    split at hstep
    · next payload records hpolled hrecords =>
      obtain rfl := Option.some.inj hstep
      have hhead : (encodeRecords (s.released ++ [payload])).length =
          s.head + (payload.length + 4) := by
        simp [Session.head]
      have hring : ∀ pending, s.rb.Inv s.head s.records pending →
          (vmarsSpscRbRelease s.rb record).1.Inv
            (encodeRecords (s.released ++ [payload])).length records pending := by
        intro pending hpending
        rw [hrecords] at hpending
        rw [hhead, hrecord]
        exact hpending.release_record (h.polled hpolled)
      have hframe := vmarsSpscRbRelease_frame s.rb record
      refine ⟨hframe.1.trans h.capacity_eq, hring [] h.ring, ?_, ?_⟩
      · intro record' length hclaimed
        obtain ⟨hat, payload', hlength, hpending⟩ := h.claimed record' length hclaimed
        refine ⟨?_, payload', hlength, hring _ hpending⟩
        rw [hframe.1, hframe.2]
        exact hat
      · intro hno
        cases hno
    · cases hstep
  · have hfailed : vmarsSpscRbRelease s.rb record = (s.rb, EINVAL) := by
      rw [vmarsSpscRbRelease, if_pos hrecord]
    rw [hfailed] at hstep
    obtain rfl := Option.some.inj hstep
    exact h

/-- Every call keeps the invariant. -/
theorem step (h : s.Inv capacity) {call : RbCall} (hstep : s.step call = some s') :
    s'.Inv capacity := by
  cases call with
  | claim length =>
      obtain rfl := Option.some.inj hstep
      exact h.claim length
  | write j b => exact h.write hstep
  | publish record => exact h.publish hstep
  | poll =>
      obtain rfl := Option.some.inj hstep
      exact h.poll
  | release record => exact h.release hstep

/-- Every session keeps the invariant. -/
theorem run {calls : List RbCall} (h : s.Inv capacity) (hrun : s.run calls = some s') :
    s'.Inv capacity :=
  Session.run_invariant (fun h _ hstep => h.step hstep) h (fun _ _ => trivial) hrun

end Session.Inv

/-! ## What the calls return -/

/-- The calls decide by the true positions, whatever the cached ones are. -/
structure Session.Exact (capacity : Nat) (s : Session) : Prop where
  /-- The positions count the bytes of the records; they do so modulo `2 ^ 64`. -/
  positions : s.rb.tailPosition = wrap64 s.tail ∧ s.rb.headPosition = wrap64 s.head
  positions_small : s.tail < 2 ^ 63 → s.rb.tailPosition = s.tail ∧ s.rb.headPosition = s.head
  claim_iff : ∀ length, (∃ record, (vmarsSpscRbClaim s.rb length).2 = some record) ↔
    (length + sizeofRbRecord : Int) ≤ capacity - ((s.tail : Int) - s.head)
  poll_iff : (∃ record, (vmarsSpscRbPoll s.rb).2 = some record) ↔ s.tail > s.head
  /-- What is polled is the oldest record, with its length and its data. -/
  poll_oldest : ∀ record, (vmarsSpscRbPoll s.rb).2 = some record →
    ∃ payload records, s.records = payload :: records ∧
      (vmarsSpscRbPoll s.rb).1.loadBytes record (sizeofRbRecord + payload.length) =
        recordBytes payload
  claim_null : ∀ length, (vmarsSpscRbClaim s.rb length).2 = none →
    (vmarsSpscRbClaim s.rb length).1 = s.rb
  poll_null : (vmarsSpscRbPoll s.rb).2 = none → (vmarsSpscRbPoll s.rb).1 = s.rb
  publish_einval : ∀ record, (vmarsSpscRbPublish s.rb record).2 = EINVAL →
    (vmarsSpscRbPublish s.rb record).1 = s.rb
  release_einval : ∀ record, (vmarsSpscRbRelease s.rb record).2 = EINVAL →
    (vmarsSpscRbRelease s.rb record).1 = s.rb

namespace Session.Inv

variable {capacity : Nat} {s : Session}

/-- A claim is granted exactly what fits behind the true head. -/
theorem claim_iff (h : s.Inv capacity) (length : Nat) :
    (∃ record, (vmarsSpscRbClaim s.rb length).2 = some record) ↔
      (length + sizeofRbRecord : Int) ≤ capacity - ((s.tail : Int) - s.head) := by
  have hfill : (length + sizeofRbRecord : Int) ≤ capacity - ((s.tail : Int) - s.head) ↔
      (encodeRecords s.records).length + (length + 4) ≤ s.rb.capacity := by
    rw [h.capacity_eq, s.tail_eq, sizeofRbRecord]
    omega
  rw [hfill]
  constructor
  · rintro ⟨record, hclaim⟩
    apply Decidable.of_not_not
    intro hno
    rw [h.ring.claim_none hno] at hclaim
    cases hclaim
  · intro hfits
    obtain ⟨rb', hclaim, -⟩ := h.ring.claim hfits
    exact ⟨_, by rw [hclaim]⟩

/-- The tail is ahead of the head exactly when a record is published. -/
theorem head_lt_tail_iff (s : Session) : s.tail > s.head ↔ s.records ≠ [] := by
  rw [s.tail_eq]
  cases s.records with
  | nil => simp
  | cons payload records =>
      rw [encodeRecords_cons, List.length_append, recordBytes_length]
      simp

/-- A poll finds a record exactly when the tail is ahead of the head. -/
theorem poll_iff (h : s.Inv capacity) :
    (∃ record, (vmarsSpscRbPoll s.rb).2 = some record) ↔ s.tail > s.head := by
  rw [head_lt_tail_iff]
  have hring := h.ring
  cases hrecords : s.records with
  | nil =>
      rw [hrecords] at hring
      rw [hring.poll_empty]
      simp
  | cons payload records =>
      rw [hrecords] at hring
      obtain ⟨rb', hpoll, -⟩ := hring.poll
      rw [hpoll]
      simp

/-- It hands out the oldest record, with its length and payload. -/
theorem poll_oldest (h : s.Inv capacity) {record : Nat}
    (hpoll : (vmarsSpscRbPoll s.rb).2 = some record) :
    ∃ payload records, s.records = payload :: records ∧
      (vmarsSpscRbPoll s.rb).1.loadBytes record (sizeofRbRecord + payload.length) =
        recordBytes payload := by
  have hne : s.records ≠ [] := (head_lt_tail_iff s).mp (h.poll_iff.mp ⟨record, hpoll⟩)
  obtain ⟨payload, records, hrecords⟩ := List.exists_cons_of_ne_nil hne
  have hring := h.ring
  rw [hrecords] at hring
  obtain ⟨rb', hpolled, hinv, -⟩ := hring.poll
  rw [hpolled] at hpoll ⊢
  obtain rfl := Option.some.inj hpoll
  refine ⟨payload, records, hrecords, ?_⟩
  have hload := SpscRb.loadBytes_eq (fun j b hj => hinv.load_record (j := j) hj)
  rwa [recordBytes_length, Nat.add_comm] at hload

/-- The calls of a session decide by the true positions. -/
theorem exact (h : s.Inv capacity) : s.Exact capacity where
  positions := by
    rw [s.tail_eq]
    exact ⟨h.ring.tailPosition, h.ring.headPosition⟩
  positions_small := by
    intro hsmall
    have htail := s.tail_eq
    rw [h.ring.tailPosition, h.ring.headPosition, ← htail]
    constructor
    · apply wrap64_of_range
      · omega
      · omega
    · apply wrap64_of_range
      · omega
      · omega
  claim_iff := h.claim_iff
  poll_iff := h.poll_iff
  poll_oldest := fun _ hpoll => h.poll_oldest hpoll
  claim_null := by
    intro length hnull
    unfold vmarsSpscRbClaim at hnull ⊢
    split at hnull
    · rfl
    · cases hnull
    · split at hnull
      · cases hnull
      · next hno => rw [if_neg hno]
  poll_null := by
    intro hnull
    unfold vmarsSpscRbPoll at hnull ⊢
    split at hnull
    · cases hnull
    · next hcached =>
      split at hnull
      · cases hnull
      · next hthere => simp only [if_neg hcached, if_neg hthere]
  publish_einval := by
    intro record hfailed
    unfold vmarsSpscRbPublish at hfailed ⊢
    split at hfailed
    · next hother => rw [if_pos hother]
    · cases hfailed
  release_einval := by
    intro record hfailed
    unfold vmarsSpscRbRelease at hfailed ⊢
    split at hfailed
    · next hother => rw [if_pos hother]
    · cases hfailed

end Session.Inv

/-- **Cached and true positions agree.**  In every state that a thread can reach by
calls in protocol order, the calls decide by the true positions and those that fail
change nothing. -/
theorem session_exact {capacity : Nat} (hcapacity : IsRingCapacity capacity)
    {calls : List RbCall} {s : Session} (hrun : (Session.initial capacity).run calls = some s) :
    s.Exact capacity :=
  ((Session.Inv.initial hcapacity).run hrun).exact

/-- On a ring of eight bytes: a claim is made twice, its second record is published,
polled and released, and the next one crosses the end of the ring. -/
def reclaimedRecord : List RbCall :=
  [.claim 3, .claim 1, .write 0 7, .publish 2, .publish 0, .claim 0, .poll, .release 0, .claim 1,
    .claim 5, .publish 5, .poll]

/-- A ring of eight bytes whose room is used a second time. -/
theorem session_exact_reclaimed :
    (((Session.initial 8).run reclaimedRecord).get (by decide +kernel)).Exact 8 :=
  @session_exact 8 ⟨3, by decide, rfl⟩ reclaimedRecord _ (Option.some_get _).symm

end Vmars
