import Vmars.SpscRbInterleaving

/-!
# The capacity guard of the ring (`vmars_spsc_rb_init`)

`vmars_spsc_rb_init` looks at the capacity with a two's complement trick
(`is_power_of_two`) and a masked test (`is_multiple_of_page_size`), and refuses it
when the first fails *and* the second holds.  The negation in front of the second
test is missing: a capacity that is no multiple of the page size is never refused.

The indices of the four operations are a mask of the position, which is the
remainder by the capacity only for powers of two.  `tailIndex_two_pow` and
`headIndex_two_pow` say what the two indices are for all of them: the index of the
consumer goes through `int32_t`, so from `2 ^ 33` on it is another remainder.
`usable_iff` puts the two together.
-/

namespace Vmars

open CMemory ByteRing

/-- `ENOMEM`. -/
def ENOMEM : Int := 12

/-! ## The guard -/

/-- `is_power_of_two`. -/
def isPowerOfTwo (value : UInt64) : Bool := value > 0 && (value &&& (~~~value + 1)) == value

/-- `is_multiple_of_page_size`, `getpagesize()` being `pageSize`. -/
def isMultipleOfPageSize (pageSize : Int) (value : UInt64) : Bool :=
  (UInt64.ofInt (pageSize - 1) &&& value) == 0

/-- `vmars_spsc_rb_init` in a system with pages of `pageSize` bytes: the ring, or the
error it returns.  `mapBuffer` is the mapping that `map_buffer` returns for a length,
`calloc` whether there is memory for the descriptor. -/
def vmarsSpscRbInit (pageSize : Int) (mapBuffer : UInt64 → Option (Nat → UInt8)) (calloc : Bool)
    (capacity : UInt64) : Except Int SpscRb :=
  if !isPowerOfTwo capacity && isMultipleOfPageSize pageSize capacity then .error EINVAL
  else
    match mapBuffer capacity, calloc with
    | some buffer, true =>
        .ok { capacity := capacity.toNat, buffer, tailCachePosition := 0, tailPosition := 0
              headCachePosition := 0, headPosition := 0 }
    | _, _ => .error ENOMEM

/-- Only the guard returns `EINVAL`. -/
theorem vmarsSpscRbInit_einval_iff {pageSize : Int} {mapBuffer : UInt64 → Option (Nat → UInt8)}
    {calloc : Bool} {capacity : UInt64} :
    vmarsSpscRbInit pageSize mapBuffer calloc capacity = .error EINVAL ↔
      isPowerOfTwo capacity = false ∧ isMultipleOfPageSize pageSize capacity = true := by
  have hne : (Except.error ENOMEM : Except Int SpscRb) ≠ .error EINVAL := by
    intro h
    cases h
  unfold vmarsSpscRbInit
  split
  next hguard => simpa using hguard
  next hguard =>
    have hno : ¬ (isPowerOfTwo capacity = false ∧
        isMultipleOfPageSize pageSize capacity = true) := by
      simpa using hguard
    refine iff_of_false ?_ hno
    split
    · intro h
      cases h
    · exact hne

/-! ## What the two tests decide -/

/-- A number is below a mask when it has nothing outside it. -/
theorem bitVec_and_eq_left_iff {w : Nat} (x y : BitVec w) : x &&& y = x ↔ x &&& ~~~y = 0#w := by
  constructor
  · intro h
    rw [← h, BitVec.and_assoc, BitVec.and_not_self]
    exact BitVec.and_zero
  · intro h
    apply BitVec.eq_of_getLsbD_eq
    intro i hi
    have hbit : (x &&& ~~~y).getLsbD i = false := by
      rw [h]
      exact BitVec.getLsbD_zero
    simp only [BitVec.getLsbD_and, BitVec.getLsbD_not, hi] at hbit ⊢
    revert hbit
    cases x.getLsbD i <;> cases y.getLsbD i <;> simp

/-- The two's complement trick finds the powers of two. -/
theorem isPowerOfTwo_iff {value : UInt64} :
    isPowerOfTwo value = true ↔ ∃ k, value.toNat = 2 ^ k := by
  have hpos : value > 0 ↔ value.toNat ≠ 0 := by
    rw [gt_iff_lt, UInt64.lt_iff_toNat_lt]
    exact Nat.pos_iff_ne_zero
  have hneg : (~~~value + 1).toBitVec = - value.toBitVec := by
    rw [BitVec.neg_eq_not_add]
    rfl
  have htrick : (value &&& (~~~value + 1)) = value ↔
      value.toBitVec &&& (value.toBitVec - 1#64) = 0#64 := by
    rw [← UInt64.toBitVec_inj, UInt64.toBitVec_and, hneg, bitVec_and_eq_left_iff, BitVec.not_neg]
  have hnat : value.toNat ≠ 0 → (value.toBitVec &&& (value.toBitVec - 1#64) = 0#64 ↔
      value.toNat &&& (value.toNat - 1) = 0) := by
    intro hne
    have hsub : (value.toBitVec - 1#64).toNat = value.toNat - 1 := by
      have hlt := value.toNat_lt
      rw [BitVec.toNat_sub]
      show (2 ^ 64 - 1 % 2 ^ 64 + value.toNat) % 2 ^ 64 = _
      omega
    rw [← BitVec.toNat_inj, BitVec.toNat_and, hsub]
    rfl
  rw [isPowerOfTwo, Bool.and_eq_true, decide_eq_true_iff, beq_iff_eq, hpos, htrick]
  constructor
  · rintro ⟨hne, hzero⟩
    exact (Nat.and_sub_one_eq_zero_iff_isPowerOfTwo hne).mp ((hnat hne).mp hzero)
  · intro hpower
    have hne : value.toNat ≠ 0 := by
      obtain ⟨k, hk⟩ := hpower
      rw [hk]
      exact (Nat.two_pow_pos k).ne'
    exact ⟨hne, (hnat hne).mpr ((Nat.and_sub_one_eq_zero_iff_isPowerOfTwo hne).mpr hpower)⟩

/-- The masked test finds the multiples of the page size. -/
theorem isMultipleOfPageSize_iff {j : Nat} (hj : j < 64) {value : UInt64} :
    isMultipleOfPageSize (2 ^ j : Nat) value = true ↔ 2 ^ j ∣ value.toNat := by
  have hpow : 2 ^ j < 2 ^ 64 := Nat.pow_lt_pow_right (by decide) hj
  have hpos := Nat.two_pow_pos j
  have hmask : (UInt64.ofInt ((2 ^ j : Nat) - 1)).toNat = 2 ^ j - 1 := by
    rw [UInt64.ofInt, UInt64.toNat_ofNat']
    omega
  rw [isMultipleOfPageSize, beq_iff_eq, ← UInt64.toNat_inj, UInt64.toNat_and, hmask,
    Nat.and_comm, Nat.and_two_pow_sub_one_eq_mod]
  exact (Nat.dvd_iff_mod_eq_zero).symm

/-! ## The indices of a power of two -/

/-- The powers of two that a `size_t` holds divide its modulus. -/
theorem two_pow_dvd_size {k : Nat} (hk : k ≤ 64) : (2 : Int) ^ k ∣ 18446744073709551616 := by
  have h := pow_dvd_pow (2 : Int) hk
  norm_num at h
  exact h

/-- A mask of `2 ^ k - 1` is the remainder by `2 ^ k`, of negative numbers as well. -/
theorem toSize_and_two_pow {k : Nat} (hk : k ≤ 64) (x : Int) :
    ((toSize x &&& (2 ^ k - 1) : Nat) : Int) = x % 2 ^ k := by
  have hsize : (toSize x : Int) = x % 18446744073709551616 := by
    unfold toSize
    omega
  rw [Nat.and_two_pow_sub_one_eq_mod, Int.natCast_mod, hsize, Nat.cast_pow]
  exact Int.emod_emod_of_dvd x (two_pow_dvd_size hk)

/-- The producer's index of any position. -/
theorem tailIndex_two_pow {k : Nat} (hk : k ≤ 64) (tail : Int) :
    (tailIndex (2 ^ k) tail : Int) = tail % 2 ^ k :=
  toSize_and_two_pow hk tail

/-- The consumer's index of any position: the position as an `int32_t` counts. -/
theorem headIndex_two_pow {k : Nat} (hk : k ≤ 64) (head : Int) :
    (headIndex (2 ^ k) head : Int) = wrap32 head % 2 ^ k :=
  toSize_and_two_pow hk (wrap32 head)

/-- Wrapping around an `int64_t` loses nothing of the index. -/
theorem wrap64_emod_two_pow {k : Nat} (hk : k ≤ 64) (x : Int) : wrap64 x % 2 ^ k = x % 2 ^ k := by
  have hdvd := two_pow_dvd_size hk
  rw [← Int.emod_emod_of_dvd (wrap64 x) hdvd, wrap64_emod, Int.emod_emod_of_dvd x hdvd]

/-- Up to `2 ^ 32` the conversion to `int32_t` loses nothing of the index. -/
theorem wrap32_emod_two_pow {k : Nat} (hk : k ≤ 32) (x : Int) : wrap32 x % 2 ^ k = x % 2 ^ k := by
  have hdvd : (2 : Int) ^ k ∣ 4294967296 := by
    have h := pow_dvd_pow (2 : Int) hk
    norm_num at h
    exact h
  rw [← Int.emod_emod_of_dvd (wrap32 x) hdvd, wrap32_emod, Int.emod_emod_of_dvd x hdvd]

/-! ## Usable capacities -/

/-- What the guard is for, at one capacity: it lets exactly the powers of two through
that are multiples of the page size, and with a capacity it lets through both indices
of a position are the position modulo the capacity. -/
structure UsableOnly (pageSize : Nat) (capacity : UInt64) : Prop where
  guard : ∀ mapBuffer calloc,
    vmarsSpscRbInit pageSize mapBuffer calloc capacity ≠ .error EINVAL ↔
      (∃ k, capacity.toNat = 2 ^ k) ∧ pageSize ∣ capacity.toNat
  index : ∀ mapBuffer calloc,
    vmarsSpscRbInit pageSize mapBuffer calloc capacity ≠ .error EINVAL →
      ∀ p : Nat, p < 2 ^ 63 →
        tailIndex capacity.toNat p = p % capacity.toNat ∧
          headIndex capacity.toNat p = p % capacity.toNat

/-- What the guard does: it refuses the multiples of the page size that are no powers
of two. -/
theorem vmarsSpscRbInit_admits_iff {j : Nat} (hj : j < 64) {capacity : UInt64}
    (mapBuffer : UInt64 → Option (Nat → UInt8)) (calloc : Bool) :
    vmarsSpscRbInit (2 ^ j : Nat) mapBuffer calloc capacity ≠ .error EINVAL ↔
      ((∃ k, capacity.toNat = 2 ^ k) ∨ ¬ 2 ^ j ∣ capacity.toNat) := by
  rw [Ne, vmarsSpscRbInit_einval_iff, isMultipleOfPageSize_iff hj, ← isPowerOfTwo_iff]
  cases isPowerOfTwo capacity <;> simp

/-- The indices of an `int64_t` position, for every power of two up to `2 ^ 32`. -/
theorem index_eq_mod {k : Nat} (hk : k ≤ 32) (p : Nat) :
    tailIndex (2 ^ k) p = p % 2 ^ k ∧ headIndex (2 ^ k) p = p % 2 ^ k := by
  have htail := tailIndex_two_pow (by omega : k ≤ 64) (p : Int)
  have hhead := headIndex_two_pow (by omega : k ≤ 64) (p : Int)
  rw [wrap32_emod_two_pow hk] at hhead
  have hcast : ((p % 2 ^ k : Nat) : Int) = (p : Int) % 2 ^ k := by
    rw [Int.natCast_mod, Nat.cast_pow]
    rfl
  constructor
  · apply Int.ofNat_inj.mp
    rw [htail, hcast]
  · apply Int.ofNat_inj.mp
    rw [hhead, hcast]

/-- From `2 ^ 33` on the consumer takes position `2 ^ 32` for the start of the ring. -/
theorem headIndex_ne_mod {k : Nat} (hk : 33 ≤ k) (hk64 : k ≤ 64) :
    headIndex (2 ^ k) (2 ^ 32 : Nat) ≠ 2 ^ 32 % 2 ^ k := by
  have hlt : 2 ^ 32 < 2 ^ k := Nat.pow_lt_pow_right (by decide) hk
  have hhead := headIndex_two_pow hk64 ((2 ^ 32 : Nat) : Int)
  have hwrap : wrap32 ((2 ^ 32 : Nat) : Int) = 0 := by decide
  rw [hwrap, Int.zero_emod] at hhead
  rw [Nat.mod_eq_of_lt hlt]
  omega

/-- **The guard does its work exactly for multiples of the page size** that are not a
power of two above `2 ^ 32`. -/
theorem usable_iff {j : Nat} (hj : j < 64) (capacity : UInt64) :
    UsableOnly (2 ^ j) capacity ↔
      2 ^ j ∣ capacity.toNat ∧ ¬ ∃ k ≥ 33, capacity.toNat = 2 ^ k := by
  constructor
  · intro h
    have hadmits := @vmarsSpscRbInit_admits_iff j hj capacity (fun _ => none) true
    have hdvd : 2 ^ j ∣ capacity.toNat := by
      by_contra hno
      exact hno ((h.guard _ _).mp (hadmits.mpr (.inr hno))).2
    refine ⟨hdvd, ?_⟩
    rintro ⟨k, hk, hcapacity⟩
    have hk64 : k ≤ 64 := by
      apply Nat.le_of_lt
      apply (Nat.pow_lt_pow_iff_right (a := 2) (by decide)).mp
      rw [← hcapacity]
      exact capacity.toNat_lt
    have hindex := h.index _ _ (hadmits.mpr (.inl ⟨k, hcapacity⟩)) (2 ^ 32) (by decide)
    rw [hcapacity] at hindex
    exact headIndex_ne_mod hk hk64 hindex.2
  · rintro ⟨hdvd, hsmall⟩
    have hadmits : ∀ mapBuffer calloc,
        vmarsSpscRbInit (2 ^ j : Nat) mapBuffer calloc capacity ≠ .error EINVAL ↔
          ∃ k, capacity.toNat = 2 ^ k := by
      intro mapBuffer calloc
      rw [vmarsSpscRbInit_admits_iff hj, or_iff_left (not_not_intro hdvd)]
    refine { guard := ?_, index := ?_ }
    · intro mapBuffer calloc
      rw [hadmits, and_iff_left hdvd]
    · intro mapBuffer calloc hadmitted p _
      obtain ⟨k, hk⟩ := (hadmits mapBuffer calloc).mp hadmitted
      have hle : k ≤ 32 := by
        by_contra hlarge
        exact hsmall ⟨k, by omega, hk⟩
      rw [hk]
      exact index_eq_mod hle p

/-- The rings of the program: one page of 4096 bytes. -/
theorem usable_iff_onePage :
    UsableOnly (2 ^ 12) 4096 ↔
      2 ^ 12 ∣ (4096 : UInt64).toNat ∧ ¬ ∃ k ≥ 33, (4096 : UInt64).toNat = 2 ^ k :=
  usable_iff (by decide) 4096

/-- Six thousand bytes are neither a power of two nor a multiple of the page size, and
let through. -/
theorem not_usableOnly_sixThousand : ¬ UsableOnly 4096 6000 := by
  intro h
  have hadmitted : vmarsSpscRbInit (4096 : Nat) (fun _ => none) true 6000 ≠ .error EINVAL := by
    rw [Ne, vmarsSpscRbInit_einval_iff]
    decide
  have hdvd : 4096 ∣ (6000 : UInt64).toNat := ((h.guard _ _).mp hadmitted).2
  revert hdvd
  decide

/-- With a power of two and a new file, the ring is the one that the parties start
from. -/
theorem vmarsSpscRbInit_initial {k : Nat} (hk : k ≤ 30) (pageSize : Int) :
    vmarsSpscRbInit pageSize (fun _ => some fun _ => 0) true (UInt64.ofNat (2 ^ k)) =
      .ok (System.initial (2 ^ k)).rb := by
  have hlt : 2 ^ k < 2 ^ 64 := Nat.pow_lt_pow_right (by decide) (by omega)
  have hcapacity : (UInt64.ofNat (2 ^ k)).toNat = 2 ^ k := by
    rw [UInt64.toNat_ofNat']
    exact Nat.mod_eq_of_lt hlt
  have hpower : isPowerOfTwo (UInt64.ofNat (2 ^ k)) = true := isPowerOfTwo_iff.mpr ⟨k, hcapacity⟩
  simp [vmarsSpscRbInit, hpower, hcapacity, System.initial]

end Vmars
