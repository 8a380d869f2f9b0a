import Vmars.SpscRbInit
import Vmars.SpscRbRecords

/-!
# Narrowing in the ring

Positions are 64-bit and lengths are `size_t`, but three values of the ring go through
`int32_t`: both sides of the fast test of `vmars_spsc_rb_claim`, the length that a claim
stores, and the head that `poll` and `release` take their index from.

For every power of two that `size_t` can hold and all positions in order,
`narrowing_iff` says exactly when none of the three changes a decision.  The fast test
compares the low halves of two numbers (`claimTest_granted_iff`), while the test
against the loaded head is exact (`claimFits_iff`).  On a ring of at most `2 ^ 30` bytes
whose tail is at most a capacity in front of the cached head, as it is in every run,
nothing changes (`castsHarmless_of_small`).
-/

namespace Vmars

open CMemory ByteRing

namespace SpscRb

/-! ## Positions and claims -/

/-- A capacity that `size_t` can hold, and `int64_t` positions in the order that the
two parties keep. -/
structure Ordered (rb : SpscRb) : Prop where
  capacity : ∃ k < 64, rb.capacity = 2 ^ k
  headCache_nonneg : 0 ≤ rb.headCachePosition
  headCache_le : rb.headCachePosition ≤ rb.headPosition
  head_le : rb.headPosition ≤ rb.tailPosition
  room : rb.tailPosition ≤ rb.headPosition + rb.capacity
  tail_lt : rb.tailPosition < 9223372036854775808

/-- `capacity - (tail - head)`: the bytes that are free. -/
def free (rb : SpscRb) : Int := rb.capacity - (rb.tailPosition - rb.headPosition)

/-- The bytes that are free as far as the cached head shows. -/
def freeCached (rb : SpscRb) : Int := rb.capacity - (rb.tailPosition - rb.headCachePosition)

/-- A claim is invalid when it is longer than the ring. -/
theorem claimTest_invalid_iff {rb : SpscRb} {length : Nat} :
    claimTest rb.capacity length rb.tailPosition rb.headCachePosition = .invalid ↔
      rb.capacity < length := by
  unfold claimTest
  split
  next hlarge => simp [hlarge]
  next hlarge =>
    refine iff_of_false ?_ hlarge
    split <;> simp

namespace Ordered

variable {rb : SpscRb} {length : Nat}

/-- Capacities fit an `int64_t`. -/
theorem capacity_range (h : rb.Ordered) : 0 < rb.capacity ∧ rb.capacity ≤ 9223372036854775808 := by
  obtain ⟨k, hk, hcapacity⟩ := h.capacity
  rw [hcapacity]
  exact ⟨Nat.two_pow_pos k, Nat.pow_le_pow_right (by decide) (Nat.le_of_lt_succ hk : k ≤ 63)⟩

/-- No more is free than the ring has. -/
theorem free_le (h : rb.Ordered) : rb.free ≤ rb.capacity := by
  have := h.head_le
  unfold free
  omega

/-- The fast test compares the low halves of what is required and what is free. -/
theorem availableCapacity_eq (h : rb.Ordered) :
    availableCapacity rb.capacity rb.tailPosition rb.headCachePosition = wrap32 rb.freeCached := by
  have hdistance : wrap64 (rb.tailPosition - rb.headCachePosition) =
      rb.tailPosition - rb.headCachePosition := by
    obtain ⟨-, hnonneg, hcache, hhead, -, htail⟩ := h
    exact wrap64_of_range (by omega) (by omega)
  rw [availableCapacity, hdistance, freeCached]
  unfold wrap32
  omega

/-- The sum in `size_t` does not wrap. -/
theorem requiredCapacity_eq (h : rb.Ordered) (hlength : length ≤ rb.capacity) :
    requiredCapacity length = length + 4 := by
  have := h.capacity_range.2
  rw [requiredCapacity, toSize_natCast, sizeofRbRecord]
  omega

/-- **The test of the code** compares both sides as `int`s. -/
theorem claimTest_granted_iff (h : rb.Ordered) :
    claimTest rb.capacity length rb.tailPosition rb.headCachePosition = .granted ↔
      length ≤ rb.capacity ∧ wrap32 (length + 4 : Nat) ≤ wrap32 rb.freeCached := by
  unfold claimTest
  split
  next hlarge => simp [hlarge]
  next hlarge =>
    have hlength : length ≤ rb.capacity := Nat.le_of_not_lt hlarge
    rw [h.requiredCapacity_eq hlength, h.availableCapacity_eq]
    split
    next hload =>
      refine iff_of_false (by simp) ?_
      rintro ⟨-, hle⟩
      exact Int.not_le.mpr hload hle
    next hgrant => exact iff_of_true rfl ⟨hlength, Int.not_lt.mp hgrant⟩

/-- The test against the loaded head is exact in `size_t`. -/
theorem claimFits_iff (h : rb.Ordered) (hlength : length ≤ rb.capacity) :
    claimFits rb.capacity length rb.tailPosition rb.headPosition = true ↔
      (length + sizeofRbRecord : Int) ≤ rb.free := by
  have hmax := h.capacity_range.2
  have hrequired := h.requiredCapacity_eq hlength
  obtain ⟨-, hnonneg, hcache, hhead, hroom, htail⟩ := h
  have hdistance : wrap64 (rb.tailPosition - rb.headPosition) =
      rb.tailPosition - rb.headPosition := wrap64_of_range (by omega) (by omega)
  have hsize : toSize (rb.capacity - toSize (rb.tailPosition - rb.headPosition) : Int) =
      rb.free.toNat := by
    unfold toSize free
    omega
  have hfree : 0 ≤ rb.free := by
    unfold free
    omega
  rw [claimFits, hdistance, hsize, hrequired, sizeofRbRecord, decide_eq_true_iff]
  omega

end Ordered

/-! ## What a claim returns and stores -/

/-- A claim returns a record when one of its two tests grants it, and then the length
is written at the tail. -/
theorem claim_cases (rb : SpscRb) (length : Nat) :
    (vmarsSpscRbClaim rb length = (rb, none) ∧
        (claimTest rb.capacity length rb.tailPosition rb.headCachePosition = .invalid ∨
          claimTest rb.capacity length rb.tailPosition rb.headCachePosition = .loadHead ∧
            claimFits rb.capacity length rb.tailPosition rb.headPosition = false)) ∨
      (∃ headCache, vmarsSpscRbClaim rb length =
          ({ rb with headCachePosition := headCache : SpscRb }).claimRecord length ∧
        (claimTest rb.capacity length rb.tailPosition rb.headCachePosition = .granted ∨
          claimTest rb.capacity length rb.tailPosition rb.headCachePosition = .loadHead ∧
            claimFits rb.capacity length rb.tailPosition rb.headPosition = true)) := by
  unfold vmarsSpscRbClaim
  cases htest : claimTest rb.capacity length rb.tailPosition rb.headCachePosition with
  | invalid => exact .inl ⟨rfl, .inl rfl⟩
  | granted => exact .inr ⟨rb.headCachePosition, rfl, .inl rfl⟩
  | loadHead =>
      cases hfits : claimFits rb.capacity length rb.tailPosition rb.headPosition with
      | false => exact .inl ⟨rfl, .inr ⟨rfl, rfl⟩⟩
      | true => exact .inr ⟨rb.headPosition, rfl, .inr ⟨rfl, rfl⟩⟩

/-- A record is returned when there is room, or when the fast test grants it. -/
theorem Ordered.claim_some_iff {rb : SpscRb} {length : Nat} (h : rb.Ordered) :
    (∃ record, (vmarsSpscRbClaim rb length).2 = some record) ↔
      (length + sizeofRbRecord : Int) ≤ rb.free ∨
        (length ≤ rb.capacity ∧ wrap32 (length + 4 : Nat) ≤ wrap32 rb.freeCached) := by
  have hfree := h.free_le
  have hgranted := @claimTest_granted_iff rb length h
  rcases rb.claim_cases length with ⟨hclaim, hno⟩ | ⟨headCache, hclaim, hyes⟩
  · refine iff_of_false (by simp [hclaim]) ?_
    rintro (hfits | hfast)
    · have hlength : length ≤ rb.capacity := by
        unfold sizeofRbRecord at hfits
        omega
      rcases hno with hinvalid | ⟨-, hfull⟩
      · exact absurd (claimTest_invalid_iff.mp hinvalid) (Nat.not_lt.mpr hlength)
      · rw [(h.claimFits_iff hlength).mpr hfits] at hfull
        cases hfull
    · rw [← hgranted] at hfast
      rcases hno with hinvalid | ⟨hload, -⟩
      · rw [hfast] at hinvalid
        cases hinvalid
      · rw [hfast] at hload
        cases hload
  · refine iff_of_true ⟨_, by rw [hclaim]; rfl⟩ ?_
    rcases hyes with hgrant | ⟨hload, hfits⟩
    · exact .inr (hgranted.mp hgrant)
    · have hlength : length ≤ rb.capacity := by
        by_contra hlarge
        rw [claimTest_invalid_iff.mpr (Nat.lt_of_not_le hlarge)] at hload
        cases hload
      exact .inl ((h.claimFits_iff hlength).mp hfits)

/-- Bytes that fit the ring are carried as they were written. -/
theorem holds_storeBytes {rb : SpscRb} {position : Nat} {known bytes : List UInt8}
    (hfits : known.length + bytes.length ≤ rb.capacity)
    (h : Holds rb.capacity rb.buffer position
      (known.map some ++ List.replicate bytes.length none)) :
    Holds rb.capacity (rb.storeBytes (position + known.length) bytes).buffer position
      ((known ++ bytes).map some) := by
  induction bytes generalizing rb known with
  | nil =>
      rw [List.append_nil]
      simpa [SpscRb.storeBytes] using h
  | cons b bytes ih =>
      rw [List.length_cons] at hfits h
      have hstore := h.store (j := known.length) (b := b) (by simp)
        (by simp; omega)
      rw [set_first_unknown] at hstore
      have hrest := @ih (rb.store (position + known.length) b) (known ++ [b])
        (by rw [List.length_append, List.length_singleton]
            show _ ≤ rb.capacity
            omega) hstore
      rw [List.length_append, List.length_singleton, ← Nat.add_assoc, List.append_assoc] at hrest
      exact hrest

/-- The length that a claim stores is the requested one as an `int32_t`. -/
theorem lengthOf_claimRecord {rb : SpscRb} (length : Nat) (hcapacity : 4 ≤ rb.capacity) :
    lengthOf ((rb.claimRecord length).1.loadBytes (tailIndex rb.capacity rb.tailPosition) 4) =
      wrap32 length := by
  have hholds := @holds_storeBytes rb (tailIndex rb.capacity rb.tailPosition) []
    (lengthBytes length) (by simpa using hcapacity) (holds_replicate_none _)
  apply lengthOf_loadBytes
  intro j b hb
  have hcap := (rb.storeBytes_tailPosition (tailIndex rb.capacity rb.tailPosition)
    (lengthBytes length)).2
  show (rb.storeBytes _ _).buffer (_ % (rb.storeBytes _ _).capacity) = b
  rw [hcap]
  exact hholds.getElem? hb

/-- What a claim that returns a record stores in front of it. -/
theorem length_stored {rb : SpscRb} {length record : Nat} (hcapacity : 4 ≤ rb.capacity)
    (h : (vmarsSpscRbClaim rb length).2 = some record) :
    lengthOf ((vmarsSpscRbClaim rb length).1.loadBytes record 4) = wrap32 length := by
  rcases rb.claim_cases length with ⟨hclaim, -⟩ | ⟨headCache, hclaim, -⟩
  · rw [hclaim] at h
    cases h
  · rw [hclaim] at h ⊢
    cases h
    exact @lengthOf_claimRecord { rb with headCachePosition := headCache } length hcapacity

/-! ## The consumer's index -/

/-- When the index of the low half of a head is the index of the head. -/
theorem headIndex_eq_iff {k : Nat} (hk : k < 64) (head : Int) :
    (headIndex (2 ^ k) head : Int) = head % (2 ^ k : Nat) ↔
      2 ^ k ≤ 4294967296 ∨ head % (2 ^ k : Nat) < 2147483648 ∨
        ((2 ^ k : Nat) : Int) - 2147483648 ≤ head % (2 ^ k : Nat) := by
  have hindex := headIndex_two_pow (Nat.le_of_lt hk) head
  by_cases hsmall : k ≤ 32
  · have hle : 2 ^ k ≤ 4294967296 := Nat.pow_le_pow_right (by decide) hsmall
    rw [wrap32_emod_two_pow hsmall] at hindex
    refine iff_of_true ?_ (.inl hle)
    rw [hindex, Nat.cast_pow]
    rfl
  · obtain ⟨m, hm⟩ : 4294967296 ∣ 2 ^ k := Nat.pow_dvd_pow 2 (by omega : 32 ≤ k)
    have hlarge : 8589934592 ≤ 2 ^ k :=
      Nat.pow_le_pow_right (by decide : 0 < 2) (by omega : 33 ≤ k)
    have hcast : ((2 : Int) ^ k) = ((2 ^ k : Nat) : Int) := by
      rw [Nat.cast_pow]
      rfl
    have hlow : head % (2 ^ k : Nat) % 4294967296 = head % 4294967296 := by
      apply Int.emod_emod_of_dvd
      exact ⟨m, by rw [hm]; push_cast; rfl⟩
    have hnonneg := Int.emod_nonneg head (by omega : ((2 ^ k : Nat) : Int) ≠ 0)
    have hlt := Int.emod_lt_of_pos head (by omega : (0 : Int) < (2 ^ k : Nat))
    -- the head as an `int32_t` is a small index, or a small distance from the end
    have hhalf : wrap32 head % (2 ^ k : Nat) =
        if 0 ≤ wrap32 head then wrap32 head else wrap32 head + (2 ^ k : Nat) := by
      have hrange := wrap32_range head
      split
      next hpos => exact Int.emod_eq_of_lt hpos (by omega)
      next hneg =>
        rw [← Int.add_emod_right]
        exact Int.emod_eq_of_lt (by omega) (by omega)
    rw [hindex, hcast, hhalf]
    unfold wrap32
    generalize head % (2 ^ k : Nat) = index at *
    generalize 2 ^ k = capacity at *
    split <;> omega

/-! ## The three decisions -/

/-- **What the casts may not change**: a claim grants only what is free, it stores the
length that was asked for, and the index of the head is the head modulo the capacity. -/
structure NarrowingHarmless (rb : SpscRb) (length : Nat) : Prop where
  fits : ∀ record, (vmarsSpscRbClaim rb length).2 = some record →
    (length + sizeofRbRecord : Int) ≤ rb.free
  stored : ∀ record, (vmarsSpscRbClaim rb length).2 = some record →
    lengthOf ((vmarsSpscRbClaim rb length).1.loadBytes record 4) = length
  index : (headIndex rb.capacity rb.headPosition : Int) = rb.headPosition % rb.capacity

/-- The condition on the positions and the length: what is not free is refused by the
fast test as well, what is free has a length of an `int32_t`, and the head lies in the
first or the last `2 ^ 31` bytes of a ring above `2 ^ 32`. -/
structure CastsHarmless (rb : SpscRb) (length : Nat) : Prop where
  fast : rb.free < length + sizeofRbRecord →
    rb.capacity < length ∨ wrap32 rb.freeCached < wrap32 (length + 4 : Nat)
  stored : (length + sizeofRbRecord : Int) ≤ rb.free → length ≤ intMax
  index : rb.capacity ≤ 4294967296 ∨ rb.headPosition % rb.capacity < 2147483648 ∨
    (rb.capacity : Int) - 2147483648 ≤ rb.headPosition % rb.capacity

/-- **Narrowing changes no decision exactly under these conditions**, for every
capacity, all positions in order and every length. -/
theorem narrowing_iff {rb : SpscRb} (h : rb.Ordered) (length : Nat) :
    rb.NarrowingHarmless length ↔ rb.CastsHarmless length := by
  have hsome := @Ordered.claim_some_iff rb length h
  have hindex : (headIndex rb.capacity rb.headPosition : Int) = rb.headPosition % rb.capacity ↔
      rb.capacity ≤ 4294967296 ∨ rb.headPosition % rb.capacity < 2147483648 ∨
        (rb.capacity : Int) - 2147483648 ≤ rb.headPosition % rb.capacity := by
    obtain ⟨k, hk, hcapacity⟩ := h.capacity
    rw [hcapacity]
    exact headIndex_eq_iff hk rb.headPosition
  have hroom : (length + sizeofRbRecord : Int) ≤ rb.free → 4 ≤ rb.capacity := by
    have := h.free_le
    unfold sizeofRbRecord
    omega
  constructor
  · intro hharmless
    refine { fast := ?_, stored := ?_, index := hindex.mp hharmless.index }
    · intro hfull
      by_contra hgrant
      rw [not_or, Nat.not_lt, Int.not_lt] at hgrant
      obtain ⟨record, hrecord⟩ := hsome.mpr (.inr hgrant)
      exact absurd (hharmless.fits record hrecord) (Int.not_le.mpr hfull)
    · intro hfits
      obtain ⟨record, hrecord⟩ := hsome.mpr (.inl hfits)
      have hstored := hharmless.stored record hrecord
      rw [length_stored (hroom hfits) hrecord] at hstored
      have hrange := wrap32_range length
      unfold intMax
      omega
  · intro hcasts
    have hfits : ∀ record, (vmarsSpscRbClaim rb length).2 = some record →
        (length + sizeofRbRecord : Int) ≤ rb.free := by
      intro record hrecord
      by_contra hfull
      rcases hsome.mp ⟨record, hrecord⟩ with hfits | ⟨hlength, hgrant⟩
      · exact hfull hfits
      · rcases hcasts.fast (Int.not_le.mp hfull) with hlarge | hrefuse
        · exact absurd hlength (Nat.not_le.mpr hlarge)
        · exact absurd hgrant (Int.not_le.mpr hrefuse)
    refine { fits := hfits, stored := ?_, index := hindex.mpr hcasts.index }
    intro record hrecord
    have hint := hcasts.stored (hfits record hrecord)
    rw [length_stored (hroom (hfits record hrecord)) hrecord]
    unfold intMax at hint
    exact wrap32_of_range (by omega) (by omega)

/-- The rings of the program meet the condition in every state. -/
theorem castsHarmless_of_small {rb : SpscRb} (h : rb.Ordered) (hcapacity : rb.capacity ≤ 1073741824)
    (hcache : rb.tailPosition ≤ rb.headCachePosition + rb.capacity) (length : Nat) :
    rb.CastsHarmless length := by
  have hfree := h.free_le
  have hcached := h.headCache_le
  have hhead := h.head_le
  refine { fast := ?_, stored := ?_, index := .inl (by omega) }
  · intro hfull
    unfold free sizeofRbRecord at hfull
    unfold freeCached wrap32
    omega
  · intro hfits
    unfold sizeofRbRecord at hfits
    unfold intMax
    omega

/-- A ring of 4 GiB of which three quarters are in use. -/
def threeQuarters : SpscRb where
  capacity := 4294967296
  buffer := fun _ => 0
  tailCachePosition := 0
  tailPosition := 3221225472
  headCachePosition := 0
  headPosition := 0

/-- A ring of `2 ^ 32` bytes, three quarters of it in use. -/
theorem threeQuarters_ordered : threeQuarters.Ordered where
  capacity := ⟨32, by decide, rfl⟩
  headCache_nonneg := by decide
  headCache_le := by decide
  head_le := by decide
  room := by decide
  tail_lt := by decide

/-- A short claim there. -/
theorem narrowing_iff_threeQuarters :
    threeQuarters.NarrowingHarmless 1 ↔ threeQuarters.CastsHarmless 1 :=
  narrowing_iff threeQuarters_ordered 1

/-- One GiB is free there, and a record of two GiB is granted: four bytes more than its
length are a negative `int32_t`. -/
theorem not_narrowingHarmless_threeQuarters :
    threeQuarters.Ordered ∧ ¬ threeQuarters.NarrowingHarmless 2147483647 := by
  refine ⟨threeQuarters_ordered, ?_⟩
  intro h
  have htest : claimTest 4294967296 2147483647 3221225472 0 = .granted := by decide
  have hgranted : (vmarsSpscRbClaim threeQuarters 2147483647).2 =
      some (tailIndex 4294967296 3221225472) := by
    unfold vmarsSpscRbClaim
    simp only [threeQuarters, htest]
    rfl
  have hfits := h.fits _ hgranted
  revert hfits
  decide

end SpscRb

end Vmars
