import Vmars.SpscRbNarrowing
import Vmars.SpscRbSession

/-!
# Publishing and releasing twice

`vmars_spsc_rb_publish` and `vmars_spsc_rb_release` have one guard: the record must lie
at the current index.  After a successful call the position has moved over the record,
so the same call again is refused unless the index is back where it was.

That is the case exactly when the length of the record with its four bytes is a
multiple of the capacity (`tailIndex_advance_iff`, `headIndex_advance_iff`): in the rings of
the program, when the record fills the ring.  `repeats_iff` says it for every state of
every session, for every power of two.
-/

namespace Vmars

open CMemory ByteRing

/-! ## The index after a move -/

/-- Moving the tail over a record leaves its index when the capacity divides the move. -/
theorem tailIndex_advance_iff {k : Nat} (hk : k ≤ 64) (tail length : Int) :
    tailIndex (2 ^ k) (advance tail length) = tailIndex (2 ^ k) tail ↔
      ((2 ^ k : Nat) : Int) ∣ length + sizeofRbRecord := by
  have hadvance : advance tail length % 2 ^ k = (tail + length + sizeofRbRecord) % 2 ^ k :=
    wrap64_emod_two_pow hk _
  have hdistance : tail + length + sizeofRbRecord - tail = length + sizeofRbRecord := by omega
  rw [← Int.ofNat_inj, tailIndex_two_pow hk, tailIndex_two_pow hk, hadvance,
    Int.emod_eq_emod_iff_emod_sub_eq_zero, hdistance, ← Int.dvd_iff_emod_eq_zero, Nat.cast_pow]
  rfl

/-- The same for the head, whose index goes through `int32_t`: a stored length is an
`int32_t` too. -/
theorem headIndex_advance_iff {k : Nat} (hk : k ≤ 64) (head : Int) {length : Int}
    (hlo : -2147483648 ≤ length) (hhi : length < 2147483648) :
    headIndex (2 ^ k) (advance head length) = headIndex (2 ^ k) head ↔
      ((2 ^ k : Nat) : Int) ∣ length + sizeofRbRecord := by
  have hlow : wrap32 (advance head length) = wrap32 (head + (length + sizeofRbRecord)) := by
    unfold advance wrap32 wrap64
    omega
  have hcast : ((2 ^ k : Nat) : Int) = 2 ^ k := by
    rw [Nat.cast_pow]
    rfl
  rw [← Int.ofNat_inj, headIndex_two_pow hk, headIndex_two_pow hk, hlow, hcast]
  by_cases hsmall : k ≤ 32
  · have hdistance : head + (length + sizeofRbRecord) - head = length + sizeofRbRecord := by omega
    rw [wrap32_emod_two_pow hsmall, wrap32_emod_two_pow hsmall,
      Int.emod_eq_emod_iff_emod_sub_eq_zero, hdistance, ← Int.dvd_iff_emod_eq_zero]
  · have hlarge : (8589934592 : Int) ≤ 2 ^ k := by
      rw [← hcast]
      exact_mod_cast (Nat.pow_le_pow_right (by decide : 0 < 2) (by omega : 33 ≤ k))
    have hsizeof : (sizeofRbRecord : Int) = 4 := rfl
    rw [Int.emod_eq_emod_iff_emod_sub_eq_zero, ← Int.dvd_iff_emod_eq_zero, hsizeof]
    have hx := wrap32_range (head + (length + 4))
    have hy := wrap32_range head
    -- a multiple of such a capacity is zero when it is a difference of two `int32_t`
    have hzero : ∀ d : Int, -8589934592 < d → d < 8589934592 → ((2 : Int) ^ k ∣ d ↔ d = 0) := by
      intro d hdlo hdhi
      constructor
      · intro hdvd
        exact Int.eq_zero_of_abs_lt_dvd hdvd (by rw [abs_lt]; omega)
      · rintro rfl
        exact Int.dvd_zero _
    rw [hzero _ (by omega) (by omega), hzero _ (by omega) (by omega)]
    unfold wrap32
    omega

/-! ## The two guards -/

/-- The length that a record has in front of it. -/
def SpscRb.lengthAt (rb : SpscRb) (record : Nat) : Int := lengthOf (rb.loadBytes record 4)

theorem SpscRb.lengthAt_range (rb : SpscRb) (record : Nat) :
    -2147483648 ≤ rb.lengthAt record ∧ rb.lengthAt record < 2147483648 :=
  wrap32_range _

/-- A record is published when it lies at the tail. -/
theorem vmarsSpscRbPublish_eq_zero {rb rb' : SpscRb} {record : Nat}
    (h : vmarsSpscRbPublish rb record = (rb', 0)) :
    record = tailIndex rb.capacity rb.tailPosition ∧
      rb' = { rb with tailPosition := advance rb.tailPosition (rb.lengthAt record) } := by
  unfold vmarsSpscRbPublish at h
  split at h
  · cases (Prod.mk.inj h).2
  next hrecord => exact ⟨not_not.mp hrecord, ((Prod.mk.inj h).1).symm⟩

/-- A record is released when it lies at the head. -/
theorem vmarsSpscRbRelease_eq_zero {rb rb' : SpscRb} {record : Nat}
    (h : vmarsSpscRbRelease rb record = (rb', 0)) :
    record = headIndex rb.capacity rb.headPosition ∧
      rb' = { rb with headPosition := advance rb.headPosition (rb.lengthAt record) } := by
  unfold vmarsSpscRbRelease at h
  split at h
  · cases (Prod.mk.inj h).2
  next hrecord => exact ⟨not_not.mp hrecord, ((Prod.mk.inj h).1).symm⟩

/-- Publishing is refused, with nothing changed, exactly away from the tail. -/
theorem vmarsSpscRbPublish_einval_iff {rb : SpscRb} {record : Nat} :
    vmarsSpscRbPublish rb record = (rb, EINVAL) ↔
      record ≠ tailIndex rb.capacity rb.tailPosition := by
  unfold vmarsSpscRbPublish
  split
  next hrecord => exact iff_of_true rfl hrecord
  next hrecord => exact iff_of_false (fun h => by cases (Prod.mk.inj h).2) hrecord

/-- Releasing is refused, with nothing changed, exactly away from the head. -/
theorem vmarsSpscRbRelease_einval_iff {rb : SpscRb} {record : Nat} :
    vmarsSpscRbRelease rb record = (rb, EINVAL) ↔
      record ≠ headIndex rb.capacity rb.headPosition := by
  unfold vmarsSpscRbRelease
  split
  next hrecord => exact iff_of_true rfl hrecord
  next hrecord => exact iff_of_false (fun h => by cases (Prod.mk.inj h).2) hrecord

/-- The second of two calls of publish, when the first one succeeds. -/
theorem publish_twice_iff {rb rb' : SpscRb} {k record : Nat} (hk : k ≤ 64)
    (hcapacity : rb.capacity = 2 ^ k) (h : vmarsSpscRbPublish rb record = (rb', 0)) :
    vmarsSpscRbPublish rb' record = (rb', EINVAL) ↔
      ¬ (rb.capacity : Int) ∣ rb.lengthAt record + sizeofRbRecord := by
  obtain ⟨hrecord, rfl⟩ := vmarsSpscRbPublish_eq_zero h
  have hindex := tailIndex_advance_iff hk rb.tailPosition (rb.lengthAt record)
  rw [hcapacity] at hrecord
  rw [vmarsSpscRbPublish_einval_iff]
  show record ≠ tailIndex rb.capacity (advance rb.tailPosition (rb.lengthAt record)) ↔ _
  rw [hcapacity, ← hindex, ← hrecord, ne_comm]

/-- The second of two calls of release, when the first one succeeds. -/
theorem release_twice_iff {rb rb' : SpscRb} {k record : Nat} (hk : k ≤ 64)
    (hcapacity : rb.capacity = 2 ^ k) (h : vmarsSpscRbRelease rb record = (rb', 0)) :
    vmarsSpscRbRelease rb' record = (rb', EINVAL) ↔
      ¬ (rb.capacity : Int) ∣ rb.lengthAt record + sizeofRbRecord := by
  obtain ⟨hlo, hhi⟩ := rb.lengthAt_range record
  obtain ⟨hrecord, rfl⟩ := vmarsSpscRbRelease_eq_zero h
  have hindex := headIndex_advance_iff hk rb.headPosition hlo hhi
  rw [hcapacity] at hrecord
  rw [vmarsSpscRbRelease_einval_iff]
  show record ≠ headIndex rb.capacity (advance rb.headPosition (rb.lengthAt record)) ↔ _
  rw [hcapacity, ← hindex, ← hrecord, ne_comm]

/-! ## Sessions -/

/-- A claim leaves the capacity and the tail. -/
theorem vmarsSpscRbClaim_producer (rb : SpscRb) (length : Nat) :
    (vmarsSpscRbClaim rb length).1.capacity = rb.capacity ∧
      (vmarsSpscRbClaim rb length).1.tailPosition = rb.tailPosition ∧
      ∀ record, (vmarsSpscRbClaim rb length).2 = some record →
        record = tailIndex rb.capacity rb.tailPosition := by
  rcases rb.claim_cases length with ⟨hclaim, -⟩ | ⟨headCache, hclaim, -⟩
  · rw [hclaim]
    exact ⟨rfl, rfl, fun record h => by cases h⟩
  · have hframe := SpscRb.storeBytes_tailPosition { rb with headCachePosition := headCache }
      (tailIndex rb.capacity rb.tailPosition) (lengthBytes length)
    rw [hclaim]
    refine ⟨hframe.2, hframe.1, ?_⟩
    intro record h
    exact (Option.some.inj h).symm

namespace Session

/-- The claimed record lies at the tail, whatever the capacity. -/
structure AtTail (capacity : Nat) (s : Session) : Prop where
  capacity_eq : s.rb.capacity = capacity
  claimed : ∀ record length, s.claimed = some (record, length) →
    record = tailIndex s.rb.capacity s.rb.tailPosition

namespace AtTail

variable {capacity : Nat} {s s' : Session}

/-- Only the tail and the claimed record matter. -/
theorem frame (h : s.AtTail capacity) (hcapacity : s'.rb.capacity = s.rb.capacity)
    (htail : s'.rb.tailPosition = s.rb.tailPosition) (hclaimed : s'.claimed = s.claimed) :
    s'.AtTail capacity := by
  refine ⟨hcapacity.trans h.capacity_eq, ?_⟩
  intro record length hrecord
  rw [hclaimed] at hrecord
  rw [hcapacity, htail]
  exact h.claimed record length hrecord

/-- A new ring has no claim. -/
theorem initial (capacity : Nat) : (Session.initial capacity).AtTail capacity where
  capacity_eq := rfl
  claimed := by
    intro record length h
    cases h

/-- A claim starts at the tail. -/
theorem claim (h : s.AtTail capacity) (length : Nat) : (s.claim length).AtTail capacity := by
  obtain ⟨hcapacity, htail, hrecord⟩ := vmarsSpscRbClaim_producer s.rb length
  unfold Session.claim
  split
  next rb record hclaim =>
    rw [hclaim] at hcapacity htail hrecord
    refine ⟨hcapacity.trans h.capacity_eq, ?_⟩
    intro record' length' hclaimed
    obtain ⟨rfl, rfl⟩ := Prod.mk.inj (Option.some.inj hclaimed)
    show _ = tailIndex rb.capacity rb.tailPosition
    rw [hrecord record rfl]
    exact congrArg₂ tailIndex hcapacity.symm htail.symm
  next rb hclaim =>
    rw [hclaim] at hcapacity htail
    exact h.frame hcapacity htail rfl

/-- Bytes written to a claim do not move the tail. -/
theorem write (h : s.AtTail capacity) {j : Nat} {b : UInt8} (hstep : s.write j b = some s') :
    s'.AtTail capacity := by
  unfold Session.write at hstep
  split at hstep
  · split at hstep
    · obtain rfl := Option.some.inj hstep
      exact h.frame rfl rfl rfl
    · cases hstep
  · cases hstep

/-- A published record is behind the tail. -/
theorem publish (h : s.AtTail capacity) {record : Nat} (hstep : s.publish record = some s') :
    s'.AtTail capacity := by
  unfold Session.publish vmarsSpscRbPublish at hstep
  by_cases hrecord : record = tailIndex s.rb.capacity s.rb.tailPosition
  · simp only [hrecord, ne_eq, not_true_eq_false, if_false] at hstep
    split at hstep
    · obtain rfl := Option.some.inj hstep
      refine ⟨h.capacity_eq, ?_⟩
      intro record' length' hclaimed
      cases hclaimed
    · cases hstep
  · simp only [hrecord, ne_eq, not_false_eq_true, if_true] at hstep
    obtain rfl := Option.some.inj hstep
    exact h

/-- A poll leaves the producer alone. -/
theorem poll (h : s.AtTail capacity) : s.poll.AtTail capacity := by
  obtain ⟨hcapacity, htail, -⟩ := vmarsSpscRbPoll_frame s.rb
  unfold Session.poll
  split
  next rb record hpoll =>
    rw [hpoll] at hcapacity htail
    exact h.frame hcapacity htail rfl
  next rb hpoll =>
    rw [hpoll] at hcapacity htail
    exact h.frame hcapacity htail rfl

/-- So does a release. -/
theorem release (h : s.AtTail capacity) {record : Nat} (hstep : s.release record = some s') :
    s'.AtTail capacity := by
  obtain ⟨hcapacity, htail⟩ := vmarsSpscRbRelease_frame s.rb record
  unfold Session.release at hstep
  simp only at hstep
  split at hstep
  · obtain rfl := Option.some.inj hstep
    exact h.frame hcapacity htail rfl
  · split at hstep
    · obtain rfl := Option.some.inj hstep
      exact h.frame hcapacity htail rfl
    · cases hstep

/-- Every call keeps it. -/
theorem step {call : RbCall} (h : s.AtTail capacity) (hstep : s.step call = some s') :
    s'.AtTail capacity := by
  cases call with
  | claim length =>
      obtain rfl := Option.some.inj hstep
      exact h.claim length
  | write j b => exact h.write hstep
  | publish record => exact h.publish hstep
  | poll =>
      obtain rfl := Option.some.inj hstep
      exact h.poll
  | release record => exact h.release hstep

theorem run {calls : List RbCall} (h : s.AtTail capacity) (hrun : s.run calls = some s') :
    s'.AtTail capacity :=
  run_invariant (fun h _ hstep => h.step hstep) h (fun _ _ => trivial) hrun

end AtTail

/-- **Repeated calls are refused**: after the claimed record is published, and after a
record is released, the same call again returns `EINVAL` and leaves the ring. -/
structure RepeatsRejected (s : Session) : Prop where
  publish : ∀ record length, s.claimed = some (record, length) →
    ∀ rb, vmarsSpscRbPublish s.rb record = (rb, 0) →
      vmarsSpscRbPublish rb record = (rb, EINVAL)
  release : s.polled = true → ∀ record rb, vmarsSpscRbRelease s.rb record = (rb, 0) →
    vmarsSpscRbRelease rb record = (rb, EINVAL)

/-- Neither the claimed record nor the polled one takes a whole number of rings. -/
structure NoFullRecord (s : Session) : Prop where
  claimed : ∀ record length, s.claimed = some (record, length) →
    ¬ (s.rb.capacity : Int) ∣ s.rb.lengthAt record + sizeofRbRecord
  polled : s.polled = true →
    ¬ (s.rb.capacity : Int) ∣
      s.rb.lengthAt (headIndex s.rb.capacity s.rb.headPosition) + sizeofRbRecord

/-- Without such a record the second call is refused. -/
theorem NoFullRecord.repeatsRejected {k : Nat} {s : Session} (h : s.NoFullRecord) (hk : k ≤ 64)
    (hcapacity : s.rb.capacity = 2 ^ k) : s.RepeatsRejected := by
  refine { publish := ?_, release := ?_ }
  · intro record length hrecord rb hfirst
    exact (publish_twice_iff hk hcapacity hfirst).mpr (h.claimed record length hrecord)
  · intro hpolled record rb hfirst
    have hlast := h.polled hpolled
    rw [← (vmarsSpscRbRelease_eq_zero hfirst).1] at hlast
    exact (release_twice_iff hk hcapacity hfirst).mpr hlast

end Session

/-- **Repeated calls are refused exactly while no record fills the ring**, in every state
of every session, for every power of two. -/
theorem repeats_iff {k : Nat} (hk : k < 64) {calls : List RbCall} {s : Session}
    (hrun : (Session.initial (2 ^ k)).run calls = some s) :
    s.RepeatsRejected ↔ s.NoFullRecord := by
  obtain ⟨hcapacity, hclaimed⟩ := (Session.AtTail.initial (2 ^ k)).run hrun
  constructor
  · intro h
    refine { claimed := ?_, polled := ?_ }
    · intro record length hrecord
      have hfirst : vmarsSpscRbPublish s.rb record =
          ({ s.rb with tailPosition := advance s.rb.tailPosition (s.rb.lengthAt record) }, 0) := by
        rw [vmarsSpscRbPublish, if_neg (not_not_intro (hclaimed record length hrecord))]
        rfl
      exact (publish_twice_iff (Nat.le_of_lt hk) hcapacity hfirst).mp
        (h.publish record length hrecord _ hfirst)
    · intro hpolled
      let record := headIndex s.rb.capacity s.rb.headPosition
      have hfirst : vmarsSpscRbRelease s.rb record =
          ({ s.rb with headPosition := advance s.rb.headPosition (s.rb.lengthAt record) }, 0) := by
        rw [vmarsSpscRbRelease, if_neg (not_not_intro rfl)]
        rfl
      exact (release_twice_iff (Nat.le_of_lt hk) hcapacity hfirst).mp
        (h.release hpolled record _ hfirst)
  · intro h
    exact h.repeatsRejected (Nat.le_of_lt hk) hcapacity

/-- A record of three bytes in a ring of eight. -/
theorem repeats_iff_threeBytes :
    (((Session.initial (2 ^ 3)).run [.claim 3, .publish 0, .poll]).get
        (by decide +kernel)).RepeatsRejected ↔
      (((Session.initial (2 ^ 3)).run [.claim 3, .publish 0, .poll]).get
        (by decide +kernel)).NoFullRecord :=
  repeats_iff (by decide) (Option.some_get _).symm

/-- A record that fills a ring of one page is published twice. -/
theorem not_repeatsRejected_fullRecord :
    ∃ s, (Session.initial 4096).run [.claim 4092] = some s ∧ ¬ s.RepeatsRejected := by
  refine ⟨(Session.initial 4096).claim 4092, rfl, ?_⟩
  intro h
  have hclaimed : ((Session.initial 4096).claim 4092).claimed = some (0, 4092) := by
    decide +kernel
  have hfirst : (vmarsSpscRbPublish ((Session.initial 4096).claim 4092).rb 0).2 = 0 := by
    decide +kernel
  have hsecond : (vmarsSpscRbPublish
      (vmarsSpscRbPublish ((Session.initial 4096).claim 4092).rb 0).1 0).2 = 0 := by
    decide +kernel
  have hrejected := congrArg Prod.snd (h.publish 0 4092 hclaimed _ (Prod.ext rfl hfirst))
  exact absurd (hsecond.symm.trans hrejected) (by decide)

/-! ## The rings of the program -/

namespace Session

/-- A move over a record that the ring has room for is a whole ring only once. -/
theorem dvd_record_iff {capacity length : Nat} (hfits : length + 4 ≤ capacity) :
    (capacity : Int) ∣ (length : Int) + sizeofRbRecord ↔ length + 4 = capacity := by
  have hsizeof : (length : Int) + sizeofRbRecord = ((length + 4 : Nat) : Int) := rfl
  rw [hsizeof, Int.natCast_dvd_natCast]
  constructor
  · intro hdvd
    exact Nat.le_antisymm hfits (Nat.le_of_dvd (Nat.succ_pos _) hdvd)
  · intro hfull
    rw [hfull]

/-- With a capacity of the program, a record takes a whole number of rings when it
fills the ring. -/
theorem Inv.noFullRecord_iff {capacity : Nat} {s : Session} (h : s.Inv capacity) :
    s.NoFullRecord ↔
      (∀ record length, s.claimed = some (record, length) → length + 4 ≠ capacity) ∧
        (s.polled = true → ∀ payload ∈ s.records.head?, payload.length + 4 ≠ capacity) := by
  have hclaimed : ∀ record length, s.claimed = some (record, length) →
      ((s.rb.capacity : Int) ∣ s.rb.lengthAt record + sizeofRbRecord ↔
        length + 4 = capacity) := by
    intro record length hrecord
    obtain ⟨rfl, payload, rfl, hring⟩ := h.claimed record length hrecord
    have hfits := hring.length_le
    rw [List.length_map, recordBytes_length] at hfits
    have hlength : s.rb.lengthAt (tailIndex s.rb.capacity s.rb.tailPosition) = payload.length :=
      hring.length_claimed
    rw [hlength, dvd_record_iff (by omega), h.capacity_eq]
  have hpolled : ∀ payload ∈ s.records.head?,
      ((s.rb.capacity : Int) ∣
          s.rb.lengthAt (headIndex s.rb.capacity s.rb.headPosition) + sizeofRbRecord ↔
        payload.length + 4 = capacity) := by
    intro payload hmem
    obtain ⟨records, hrecords⟩ := List.head?_eq_some_iff.mp hmem
    have hring := h.ring
    rw [hrecords] at hring
    have hfits := hring.length_le
    rw [encodeRecords_cons, List.length_append, recordBytes_length] at hfits
    have hlength : s.rb.lengthAt (headIndex s.rb.capacity s.rb.headPosition) = payload.length :=
      hring.length_record
    rw [hlength, dvd_record_iff (by omega), h.capacity_eq]
  constructor
  · intro hno
    refine ⟨?_, ?_⟩
    · intro record length hrecord hfull
      exact hno.claimed record length hrecord ((hclaimed record length hrecord).mpr hfull)
    · intro hthere payload hmem hfull
      exact hno.polled hthere ((hpolled payload hmem).mpr hfull)
  · rintro ⟨hsmallClaimed, hsmallPolled⟩
    refine { claimed := ?_, polled := ?_ }
    · intro record length hrecord hdvd
      exact hsmallClaimed record length hrecord ((hclaimed record length hrecord).mp hdvd)
    · intro hthere hdvd
      have hne := h.ring.ne_nil_of_polled (h.polled hthere)
      obtain ⟨payload, records, hrecords⟩ := List.exists_cons_of_ne_nil hne
      have hmem : payload ∈ s.records.head? := by
        rw [hrecords]
        rfl
      exact hsmallPolled hthere payload hmem ((hpolled payload hmem).mp hdvd)

/-- No record of a session fills the ring. -/
structure Small (capacity : Nat) (s : Session) : Prop where
  claimed : ∀ record length, s.claimed = some (record, length) → length + 4 ≠ capacity
  records : ∀ payload ∈ s.records, payload.length + 4 ≠ capacity

/-- A call that does not claim a record that fills the ring. -/
def SmallCall (capacity : Nat) (call : RbCall) : Prop :=
  ∀ length, call = .claim length → length + 4 ≠ capacity

/-- A new ring has no record that fills it. -/
theorem Small.initial (capacity : Nat) : (Session.initial capacity).Small capacity where
  claimed := by
    intro record length h
    cases h
  records := by
    intro payload h
    cases h

/-- A claim that does not fill the ring. -/
theorem Small.claim {capacity length : Nat} {s : Session} (h : s.Small capacity)
    (hlength : length + 4 ≠ capacity) : (s.claim length).Small capacity := by
  unfold Session.claim
  split
  · refine ⟨?_, h.records⟩
    intro record length' hclaimed
    obtain ⟨-, rfl⟩ := Prod.mk.inj (Option.some.inj hclaimed)
    exact hlength
  · exact ⟨h.claimed, h.records⟩

/-- A published record is one that was claimed. -/
theorem Small.publish {capacity record : Nat} {s s' : Session} (h : s.Small capacity)
    (hstep : s.publish record = some s') : s'.Small capacity := by
  unfold Session.publish at hstep
  simp only at hstep
  split at hstep
  · obtain rfl := Option.some.inj hstep
    exact ⟨h.claimed, h.records⟩
  · split at hstep
    next claimed length hclaimed =>
      obtain rfl := Option.some.inj hstep
      refine { claimed := ?_, records := ?_ }
      · intro record' length' hno
        cases hno
      · intro payload hmem
        rcases List.mem_append.mp hmem with hold | hnew
        · exact h.records payload hold
        · obtain rfl := List.mem_singleton.mp hnew
          have hlength : (s.rb.loadBytes (record + sizeofRbRecord) length).length = length := by
            simp [SpscRb.loadBytes]
          rw [hlength]
          exact h.claimed claimed length hclaimed
    · cases hstep

/-- A release only takes a record away. -/
theorem Small.release {capacity record : Nat} {s s' : Session} (h : s.Small capacity)
    (hstep : s.release record = some s') : s'.Small capacity := by
  unfold Session.release at hstep
  simp only at hstep
  split at hstep
  · obtain rfl := Option.some.inj hstep
    exact ⟨h.claimed, h.records⟩
  · split at hstep
    next payload records hpolled hrecords =>
      obtain rfl := Option.some.inj hstep
      refine ⟨h.claimed, fun payload' hmem => h.records payload' ?_⟩
      rw [hrecords]
      exact List.mem_cons_of_mem _ hmem
    · cases hstep

/-- Every call but a claim of the whole ring keeps it. -/
theorem Small.step {capacity : Nat} {s s' : Session} {call : RbCall} (h : s.Small capacity)
    (hcall : SmallCall capacity call) (hstep : s.step call = some s') : s'.Small capacity := by
  cases call with
  | claim length =>
      obtain rfl := Option.some.inj hstep
      exact h.claim (hcall length rfl)
  | write j b =>
      simp only [Session.step, Session.write] at hstep
      split at hstep
      · split at hstep
        · obtain rfl := Option.some.inj hstep
          exact ⟨h.claimed, h.records⟩
        · cases hstep
      · cases hstep
  | publish record => exact h.publish hstep
  | poll =>
      obtain rfl := Option.some.inj hstep
      unfold Session.poll
      split
      · exact ⟨h.claimed, h.records⟩
      · exact ⟨h.claimed, h.records⟩
  | release record => exact h.release hstep

/-- So does every run without such a claim. -/
theorem Small.run {capacity : Nat} {s s' : Session} {calls : List RbCall} (h : s.Small capacity)
    (hcalls : ∀ call ∈ calls, SmallCall capacity call) (hrun : s.run calls = some s') :
    s'.Small capacity :=
  run_invariant Small.step h hcalls hrun

/-- **Repeated calls are refused in every run that claims no record filling the ring**,
with a capacity of the program. -/
theorem repeatsRejected_of_smallCalls {capacity : Nat} (hcapacity : IsRingCapacity capacity)
    {calls : List RbCall} (hcalls : ∀ call ∈ calls, SmallCall capacity call) {s : Session}
    (hrun : (Session.initial capacity).run calls = some s) : s.RepeatsRejected := by
  have hend := (Small.initial capacity).run hcalls hrun
  have hinv := (Session.Inv.initial hcapacity).run hrun
  have hno : s.NoFullRecord := by
    refine hinv.noFullRecord_iff.mpr ⟨hend.claimed, ?_⟩
    intro _ payload hmem
    exact hend.records payload (List.mem_of_mem_head? hmem)
  obtain ⟨k, hk, rfl⟩ := hcapacity
  exact hno.repeatsRejected (by omega) hinv.capacity_eq

end Session

end Vmars
