import Vmars.CMemory
import Vmars.ByteRing

/-!
# The ring buffer (`spsc_rb.c`)

The four operations of the single-producer single-consumer ring, with the
arithmetic of the source: positions are 64-bit and wrap, differences are cast to
`int32_t` or `size_t` where the source casts them, and the index of a position is
its conversion to `size_t` masked with `capacity - 1`.

The buffer is a file of `capacity` bytes mapped twice back to back, so the byte
at address `a` of the mapping is byte `a % capacity` of the file.

`SpscRb.Inv` is the invariant of the ring: how the four positions are related and
which bytes the ring carries.  One lemma for each change of the ring keeps it.
-/

namespace Vmars

open CMemory ByteRing

/-- `sizeof(vmars_rb_record_t)`: the `int32_t` length before the data. -/
def sizeofRbRecord : Nat := 4

/-- `EINVAL`. -/
def EINVAL : Int := 22

/-- `vmars_spsc_rb_t` and its descriptor. -/
structure SpscRb where
  capacity : Nat
  /-- The bytes of the mapped file. -/
  buffer : Nat → UInt8
  tailCachePosition : Int
  tailPosition : Int
  headCachePosition : Int
  headPosition : Int

namespace SpscRb

/-! ## The double mapping -/

/-- The byte at an address of the mapping. -/
def load (rb : SpscRb) (address : Nat) : UInt8 := rb.buffer (address % rb.capacity)

/-- Writes the byte at an address of the mapping. -/
def store (rb : SpscRb) (address : Nat) (b : UInt8) : SpscRb :=
  { rb with buffer := Function.update rb.buffer (address % rb.capacity) b }

/-- The `n` bytes from an address on. -/
def loadBytes (rb : SpscRb) (address n : Nat) : List UInt8 :=
  (List.range n).map fun j => rb.load (address + j)

/-- Writes bytes one after the other. -/
def storeBytes (rb : SpscRb) (address : Nat) : List UInt8 → SpscRb
  | [] => rb
  | b :: bytes => (rb.store address b).storeBytes (address + 1) bytes

end SpscRb

/-! ## Arithmetic of the operations -/

/-- `tail & mask`, the index of `tail_position`. -/
def tailIndex (capacity : Nat) (tail : Int) : Nat := toSize tail &&& (capacity - 1)

/-- `(int32_t)head & (capacity - 1)`, the index of `head_position`. -/
def headIndex (capacity : Nat) (head : Int) : Nat := toSize (wrap32 head) &&& (capacity - 1)

/-- The bytes of the field `length`, an `int32_t`. -/
def lengthBytes (length : Nat) : List UInt8 := leBytes 4 (wrap32 length)

/-- The field `length` that four bytes hold. -/
def lengthOf (bytes : List UInt8) : Int := wrap32 (leValue bytes)

/-- A position moved over a record: `new_tail` and `new_head`. -/
def advance (position length : Int) : Int := wrap64 (position + length + sizeofRbRecord)

/-- `required_capacity`, a `size_t`. -/
def requiredCapacity (length : Nat) : Nat := toSize (length + sizeofRbRecord : Nat)

/-- `available_capacity`, with both conversions to `int32_t`. -/
def availableCapacity (capacity : Nat) (tail head : Int) : Int :=
  wrap32 (wrap32 capacity - wrap32 (wrap64 (tail - head)))

/-- What the tests of `vmars_spsc_rb_claim` decide before the head is loaded. -/
inductive ClaimTest where
  | invalid
  | loadHead
  | granted
  deriving DecidableEq, Repr

/-- The tests of `vmars_spsc_rb_claim` against the cached head. -/
def claimTest (capacity length : Nat) (tail headCache : Int) : ClaimTest :=
  if length > capacity then .invalid
  else if wrap32 (requiredCapacity length) > availableCapacity capacity tail headCache then
    .loadHead
  else .granted

/-- The test of `vmars_spsc_rb_claim` against the loaded head. -/
def claimFits (capacity length : Nat) (tail head : Int) : Bool :=
  requiredCapacity length ≤ toSize (capacity - toSize (wrap64 (tail - head)) : Int)

/-- `tail - head` is positive: there is something to poll. -/
def hasRecord (tail head : Int) : Bool := 0 < wrap64 (tail - head)

/-! ## The operations -/

/-- The end of `vmars_spsc_rb_claim`: the record at the tail, its length written. -/
def SpscRb.claimRecord (rb : SpscRb) (length : Nat) : SpscRb × Option Nat :=
  let record := tailIndex rb.capacity rb.tailPosition
  (rb.storeBytes record (lengthBytes length), some record)

/-- `vmars_spsc_rb_claim`: the offset of the record, `none` for `NULL`. -/
def vmarsSpscRbClaim (rb : SpscRb) (length : Nat) : SpscRb × Option Nat :=
  match claimTest rb.capacity length rb.tailPosition rb.headCachePosition with
  | .invalid => (rb, none)
  | .granted => rb.claimRecord length
  | .loadHead =>
      if claimFits rb.capacity length rb.tailPosition rb.headPosition then
        { rb with headCachePosition := rb.headPosition }.claimRecord length
      else (rb, none)

/-- `vmars_spsc_rb_publish`: the ring afterwards and the return code. -/
def vmarsSpscRbPublish (rb : SpscRb) (toPublish : Nat) : SpscRb × Int :=
  if toPublish ≠ tailIndex rb.capacity rb.tailPosition then (rb, EINVAL)
  else
    let length := lengthOf (rb.loadBytes toPublish 4)
    ({ rb with tailPosition := advance rb.tailPosition length }, 0)

/-- `vmars_spsc_rb_poll`: the offset of the record, `none` for `NULL`. -/
def vmarsSpscRbPoll (rb : SpscRb) : SpscRb × Option Nat :=
  let record := headIndex rb.capacity rb.headPosition
  if hasRecord rb.tailCachePosition rb.headPosition then (rb, some record)
  else if hasRecord rb.tailPosition rb.headPosition then
    ({ rb with tailCachePosition := rb.tailPosition }, some record)
  else (rb, none)

/-- `vmars_spsc_rb_release`: the ring afterwards and the return code. -/
def vmarsSpscRbRelease (rb : SpscRb) (toRelease : Nat) : SpscRb × Int :=
  if toRelease ≠ headIndex rb.capacity rb.headPosition then (rb, EINVAL)
  else
    let length := lengthOf (rb.loadBytes toRelease 4)
    ({ rb with headPosition := advance rb.headPosition length }, 0)

/-! ## Records -/

/-- A record in the ring: its length, then its data. -/
def recordBytes (payload : List UInt8) : List UInt8 := lengthBytes payload.length ++ payload

/-- Records, one after the other. -/
def encodeRecords (records : List (List UInt8)) : List UInt8 := records.flatMap recordBytes

@[simp] theorem encodeRecords_nil : encodeRecords [] = [] := rfl

@[simp] theorem encodeRecords_cons (payload : List UInt8) (records : List (List UInt8)) :
    encodeRecords (payload :: records) = recordBytes payload ++ encodeRecords records := rfl

@[simp] theorem encodeRecords_append (xs ys : List (List UInt8)) :
    encodeRecords (xs ++ ys) = encodeRecords xs ++ encodeRecords ys := by
  simp [encodeRecords]

@[simp] theorem lengthBytes_length (length : Nat) : (lengthBytes length).length = 4 :=
  leBytes_length 4 _

@[simp] theorem recordBytes_length (payload : List UInt8) :
    (recordBytes payload).length = payload.length + 4 := by
  simp [recordBytes, Nat.add_comm]

/-- The field `length` reads back as the `int32_t` that was written. -/
theorem lengthOf_lengthBytes_wrap (length : Nat) :
    lengthOf (lengthBytes length) = wrap32 length := by
  rw [lengthOf, lengthBytes, leValue_leBytes]
  unfold wrap32
  omega

/-- A length that an `int32_t` holds reads back as it was written. -/
theorem lengthOf_lengthBytes {length : Nat} (h : length ≤ intMax) :
    lengthOf (lengthBytes length) = length := by
  unfold intMax at h
  rw [lengthOf_lengthBytes_wrap]
  exact wrap32_of_range (by omega) (by omega)

/-! ## The invariant -/

/-- A capacity for which the casts to `int32_t` are harmless. -/
def IsRingCapacity (capacity : Nat) : Prop := ∃ k, k ≤ 30 ∧ capacity = 2 ^ k

/-- Capacities are at least one byte and at most `2 ^ 30`. -/
theorem IsRingCapacity.range {capacity : Nat} (h : IsRingCapacity capacity) :
    0 < capacity ∧ capacity ≤ 1073741824 := by
  obtain ⟨k, hk, rfl⟩ := h
  exact ⟨Nat.two_pow_pos k, Nat.pow_le_pow_right (by decide) hk⟩

/-- The index of a position that wrapped is its remainder. -/
theorem tailIndex_wrap64 {capacity : Nat} (h : IsRingCapacity capacity) (tail : Nat) :
    tailIndex capacity (wrap64 tail) = tail % capacity := by
  obtain ⟨k, hk, rfl⟩ := h
  exact toSize_and_mask (by omega) (wrap64_emod tail)

/-- The same for the head. -/
theorem headIndex_wrap64 {capacity : Nat} (h : IsRingCapacity capacity) (head : Nat) :
    headIndex capacity (wrap64 head) = head % capacity := by
  obtain ⟨k, hk, rfl⟩ := h
  refine toSize_and_mask32 (by omega) ?_
  have := wrap64_emod head
  rw [wrap32_emod]
  omega

/-- What a record needs, when the ring could grant it. -/
theorem requiredCapacity_eq {length : Nat} (h : length ≤ 1073741824) :
    requiredCapacity length = length + 4 := by
  rw [requiredCapacity, toSize_natCast, sizeofRbRecord]
  omega

/-- The casts of the fast test change nothing while the positions are close. -/
theorem availableCapacity_eq {capacity tail head : Nat} (hmax : capacity ≤ 1073741824)
    (hle : head ≤ tail) (hroom : tail ≤ head + capacity) :
    availableCapacity capacity (wrap64 tail) (wrap64 head) = capacity - (tail - head : Int) := by
  have hdistance : wrap64 (wrap64 tail - wrap64 head) = (tail : Int) - head :=
    wrap64_sub (by omega) (by omega)
  have hcapacity : wrap32 capacity = capacity := wrap32_of_range (by omega) (by omega)
  have hdistance32 : wrap32 ((tail : Int) - head) = (tail : Int) - head :=
    wrap32_of_range (by omega) (by omega)
  rw [availableCapacity, hdistance, hcapacity, hdistance32]
  exact wrap32_of_range (by omega) (by omega)

/-- The fast test grants only what fits behind the cached head. -/
theorem claimTest_granted {capacity length tail head : Nat} (hmax : capacity ≤ 1073741824)
    (hle : head ≤ tail) (hroom : tail ≤ head + capacity)
    (h : claimTest capacity length (wrap64 tail) (wrap64 head) = .granted) :
    length ≤ capacity ∧ tail + (length + 4) ≤ head + capacity := by
  unfold claimTest at h
  split at h
  · cases h
  next hlength =>
  have hrequired : wrap32 (requiredCapacity length) = (length : Int) + 4 := by
    rw [requiredCapacity_eq (by omega)]
    exact wrap32_of_range (by omega) (by omega)
  rw [hrequired, availableCapacity_eq hmax hle hroom] at h
  split at h
  · cases h
  · omega

/-- The slow test is exact. -/
theorem claimFits_wrap64 {capacity length tail head : Nat} (hmax : capacity ≤ 1073741824)
    (hlength : length ≤ capacity) (hle : head ≤ tail) (hroom : tail ≤ head + capacity) :
    claimFits capacity length (wrap64 tail) (wrap64 head) = true ↔
      tail + (length + 4) ≤ head + capacity := by
  have hdistance : wrap64 (wrap64 tail - wrap64 head) = ((tail - head : Nat) : Int) := by
    rw [wrap64_sub (by omega) (by omega)]
    omega
  have hsize : toSize ((tail - head : Nat) : Int) = tail - head := by
    rw [toSize_natCast]
    omega
  have hfree : toSize ((capacity : Int) - (tail - head : Nat)) = capacity - (tail - head) :=
    toSize_sub (by omega) (by omega)
  rw [claimFits, hdistance, hsize, hfree, requiredCapacity_eq (by omega), decide_eq_true_iff]
  omega

/-- **The ring invariant.**  `head` is the true head position, `records` are the
published records that are not released, and `pending` is the claimed record
behind them, as far as it is written.  The cached head is behind the true one and
leaves room for all of them; the cached tail is the end of some of the records. -/
structure SpscRb.Inv (rb : SpscRb) (head : Nat) (records : List (List UInt8))
    (pending : List (Option UInt8)) : Prop where
  capacity : IsRingCapacity rb.capacity
  headPosition : rb.headPosition = wrap64 head
  tailPosition : rb.tailPosition = wrap64 (head + (encodeRecords records).length : Nat)
  headCache : ∃ headCache ≤ head, rb.headCachePosition = wrap64 headCache ∧
    head + (encodeRecords records).length + pending.length ≤ headCache + rb.capacity
  tailCache : ∃ k ≤ records.length,
    rb.tailCachePosition = wrap64 (head + (encodeRecords (records.take k)).length : Nat)
  holds : Holds rb.capacity rb.buffer head ((encodeRecords records).map some ++ pending)

namespace SpscRb.Inv

variable {rb : SpscRb} {head : Nat} {records : List (List UInt8)} {pending : List (Option UInt8)}
  {payload : List UInt8}

/-- Everything in the ring fits its capacity. -/
theorem length_le (h : rb.Inv head records pending) :
    (encodeRecords records).length + pending.length ≤ rb.capacity := by
  obtain ⟨headCache, hle, -, hroom⟩ := h.headCache
  omega

/-- The next record is written behind the others. -/
theorem tailIndex_eq (h : rb.Inv head records pending) :
    tailIndex rb.capacity rb.tailPosition =
      (head + (encodeRecords records).length) % rb.capacity := by
  rw [h.tailPosition, tailIndex_wrap64 h.capacity]

theorem headIndex_eq (h : rb.Inv head records pending) :
    headIndex rb.capacity rb.headPosition = head % rb.capacity := by
  rw [h.headPosition, headIndex_wrap64 h.capacity]

/-! ### Claiming -/

/-- The test against the cached head grants only what fits behind it. -/
theorem reserve {length : Nat} (h : rb.Inv head records [])
    (htest : claimTest rb.capacity length rb.tailPosition rb.headCachePosition = .granted) :
    length ≤ rb.capacity ∧ rb.Inv head records (List.replicate (length + 4) none) := by
  obtain ⟨headCache, hle, hcache, hroom⟩ := h.headCache
  rw [h.tailPosition, hcache] at htest
  rw [List.length_nil, Nat.add_zero] at hroom
  obtain ⟨hlength, hfits⟩ := claimTest_granted h.capacity.range.2
    (Nat.le_trans hle (Nat.le_add_right _ _)) hroom htest
  refine ⟨hlength,
    { h with headCache := ⟨headCache, hle, hcache, by simpa using hfits⟩, holds := ?_ }⟩
  have := h.holds
  rw [List.append_nil] at this
  exact holds_append.mpr ⟨this, holds_replicate_none _⟩

/-- The test against the loaded head is exact. -/
theorem claimFits_iff {length : Nat} (h : rb.Inv head records []) (hlength : length ≤ rb.capacity) :
    claimFits rb.capacity length rb.tailPosition rb.headPosition = true ↔
      (encodeRecords records).length + (length + 4) ≤ rb.capacity := by
  have hle := h.length_le
  rw [List.length_nil, Nat.add_zero] at hle
  rw [h.tailPosition, h.headPosition, claimFits_wrap64 h.capacity.range.2 hlength
    (Nat.le_add_right _ _) (Nat.add_le_add_left hle _)]
  omega

/-- A record that fits behind the true head may be reserved once that is cached. -/
theorem reserve_loaded {length : Nat} (h : rb.Inv head records [])
    (hfits : (encodeRecords records).length + (length + 4) ≤ rb.capacity) :
    { rb with headCachePosition := rb.headPosition : SpscRb }.Inv head records
      (List.replicate (length + 4) none) := by
  refine { h with headCache := ⟨head, Nat.le_refl _, h.headPosition, ?_⟩, holds := ?_ }
  · show head + _ + _ ≤ head + rb.capacity
    rw [List.length_replicate]
    omega
  · have := h.holds
    rw [List.append_nil] at this
    exact holds_append.mpr ⟨this, holds_replicate_none _⟩

/-- Writing into the claimed record changes no published one. -/
theorem store {j : Nat} (h : rb.Inv head records pending) (hj : j < pending.length) (b : UInt8) :
    (rb.store (tailIndex rb.capacity rb.tailPosition + j) b).Inv head records
      (pending.set j (some b)) := by
  refine { h with headCache := ?_, holds := ?_ }
  · rw [List.length_set]
    exact h.headCache
  · have hlength := h.length_le
    have hstore := h.holds.store (j := (encodeRecords records).length + j) (b := b)
      (by simp; omega) (by simp; omega)
    rw [List.set_append_right _ _ (by simp), List.length_map, Nat.add_sub_cancel_left] at hstore
    have haddress : (tailIndex rb.capacity rb.tailPosition + j) % rb.capacity =
        (head + ((encodeRecords records).length + j)) % rb.capacity := by
      rw [h.tailIndex_eq, Nat.mod_add_mod, Nat.add_assoc]
    rw [SpscRb.store, haddress]
    exact hstore

/-- The claimed record is read back as far as it is written. -/
theorem load_pending {j : Nat} {b : UInt8} (h : rb.Inv head records pending)
    (hb : pending[j]? = some (some b)) :
    rb.load (tailIndex rb.capacity rb.tailPosition + j) = b := by
  have hpending := (holds_append.mp h.holds).2 j b hb
  rw [List.length_map] at hpending
  rw [SpscRb.load, h.tailIndex_eq, Nat.mod_add_mod]
  exact hpending

/-! ### Publishing -/

/-- A completely written record becomes the last published one. -/
theorem publish (h : rb.Inv head records ((recordBytes payload).map some)) :
    { rb with tailPosition := advance rb.tailPosition payload.length : SpscRb }.Inv head
      (records ++ [payload]) [] := by
  have hend : (encodeRecords (records ++ [payload])).length =
      (encodeRecords records).length + (payload.length + 4) := by simp
  obtain ⟨headCache, hle, hcache, hroom⟩ := h.headCache
  obtain ⟨k, hk, htailCache⟩ := h.tailCache
  refine { capacity := h.capacity, headPosition := h.headPosition, tailPosition := ?_,
           headCache := ⟨headCache, hle, hcache, ?_⟩, tailCache := ⟨k, ?_, ?_⟩, holds := ?_ }
  · simp only [advance, h.tailPosition, hend, sizeofRbRecord, Int.add_assoc, wrap64_add]
    congr 1
    omega
  · rw [hend]
    simp only [List.length_map, recordBytes_length, List.length_nil] at hroom ⊢
    omega
  · rw [List.length_append]
    omega
  · rw [List.take_append_of_le_length hk]
    exact htailCache
  · have := h.holds
    rw [← List.map_append] at this
    simpa using this

/-! ### Polling and releasing -/

/-- There is something to poll exactly when a record is published. -/
theorem hasRecord_iff (h : rb.Inv head records pending) :
    hasRecord rb.tailPosition rb.headPosition = true ↔ records ≠ [] := by
  obtain ⟨hcapacity, hmax⟩ := h.capacity.range
  have hle := h.length_le
  rw [hasRecord, h.tailPosition, h.headPosition, wrap64_sub (by omega) (by omega),
    decide_eq_true_iff]
  cases records with
  | nil => simp
  | cons payload records => simp; omega

/-- The cached tail is positive only where a record begins. -/
theorem ne_nil_of_polled (h : rb.Inv head records pending)
    (hpolled : hasRecord rb.tailCachePosition rb.headPosition = true) : records ≠ [] := by
  rintro rfl
  obtain ⟨k, -, hcache⟩ := h.tailCache
  rw [hasRecord, hcache, h.headPosition] at hpolled
  simp [wrap64] at hpolled

/-- The cached tail may be brought up to date at any time. -/
theorem cacheTail (h : rb.Inv head records pending) :
    { rb with tailCachePosition := rb.tailPosition : SpscRb }.Inv head records pending :=
  { h with tailCache := ⟨records.length, Nat.le_refl _, by
      rw [List.take_length]
      exact h.tailPosition⟩ }

/-- The oldest record is read back as it was published. -/
theorem load_record {j : Nat} {b : UInt8} (h : rb.Inv head (payload :: records) pending)
    (hb : (recordBytes payload)[j]? = some b) :
    rb.load (headIndex rb.capacity rb.headPosition + j) = b := by
  have hlt := (List.getElem?_eq_some_iff.mp hb).1
  have hrecord : (((encodeRecords (payload :: records)).map some ++ pending))[j]? =
      some (some b) := by
    rw [List.getElem?_append_left (by simp at hlt ⊢; omega), List.getElem?_map, encodeRecords_cons,
      List.getElem?_append_left hlt, hb]
    rfl
  rw [SpscRb.load, h.headIndex_eq, Nat.mod_add_mod]
  exact h.holds j b hrecord

/-- Releasing a polled record moves the head over it. -/
theorem release (h : rb.Inv head (payload :: records) pending)
    (hpolled : hasRecord rb.tailCachePosition rb.headPosition = true) :
    { rb with headPosition := advance rb.headPosition payload.length : SpscRb }.Inv
      (head + (payload.length + 4)) records pending := by
  have hend : (encodeRecords (payload :: records)).length =
      payload.length + 4 + (encodeRecords records).length := by simp
  obtain ⟨headCache, hle, hcache, hroom⟩ := h.headCache
  obtain ⟨k, hk, htailCache⟩ := h.tailCache
  -- the cached tail lies behind the record, or there would be nothing to poll
  have hkpos : k ≠ 0 := by
    rintro rfl
    rw [hasRecord, htailCache, h.headPosition] at hpolled
    simp [wrap64] at hpolled
  obtain ⟨k, rfl⟩ := Nat.exists_eq_succ_of_ne_zero hkpos
  have hroom' : head + (payload.length + 4) + (encodeRecords records).length + pending.length ≤
      headCache + rb.capacity := by omega
  refine { capacity := h.capacity, headPosition := ?_, tailPosition := ?_,
           headCache := ⟨headCache, by omega, hcache, hroom'⟩,
           tailCache := ⟨k, by simpa using hk, ?_⟩, holds := ?_ }
  · simp only [advance, h.headPosition, sizeofRbRecord, Int.add_assoc, wrap64_add]
    congr 1
  · rw [h.tailPosition, hend]
    congr 2
    omega
  · rw [htailCache, List.take_succ_cons, encodeRecords_cons, List.length_append, recordBytes_length]
    congr 2
    omega
  · have := h.holds
    rw [encodeRecords_cons, List.map_append, List.append_assoc, holds_append] at this
    simpa using this.2

end SpscRb.Inv

end Vmars
