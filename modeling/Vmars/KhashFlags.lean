import Mathlib.Tactic.NormNum
import Vmars.Khash

/-!
# Flags and sizes of the hash table

The flag macros of `khash.h` as reads and updates of two bits for each bucket, and the numbers
of buckets: `kroundup32` rounds up to a power of two, and the upper bound on occupied buckets
leaves an empty one.
-/

namespace Vmars

open CMemory

/-! ## Bits -/

/-- One of the two bits of a bucket. -/
def flagBit (b : Nat) (flags : List UInt32) (i : Nat) : Bool :=
  (flags.getD (i / 16) 0).toBitVec.getLsbD (2 * (i % 16) + b)

/-- The bucket was never used since the flags were made. -/
def emptyBit : List UInt32 → Nat → Bool := flagBit 1

/-- The entry of the bucket was deleted. -/
def delBit : List UInt32 → Nat → Bool := flagBit 0

/-- The position of the bits in their word. -/
theorem toNat_acShift (i : UInt32) : (acShift i).toNat = 2 * (i.toNat % 16) := by
  have hand : i.toNat &&& 15 = i.toNat % 16 := Nat.and_two_pow_sub_one_eq_mod i.toNat 4
  rw [acShift, UInt32.toNat_shiftLeft, UInt32.toNat_and]
  simp only [UInt32.reduceToNat, hand, Nat.shiftLeft_eq]
  norm_num
  omega

theorem toNat_div_sixteen (i : UInt32) : (i >>> 4).toNat = i.toNat / 16 := by
  rw [UInt32.toNat_shiftRight]
  simp [Nat.shiftRight_eq_div_pow]

/-- The bits of a shifted word. -/
theorem getLsbD_shiftRight_acShift (word i : UInt32) (b : Nat) :
    (word >>> acShift i).toBitVec.getLsbD b = word.toBitVec.getLsbD (2 * (i.toNat % 16) + b) := by
  have hshift : (acShift i).toNat % 32 = 2 * (i.toNat % 16) := by
    rw [toNat_acShift]
    omega
  rw [BitVec.getLsbD, UInt32.toNat_toBitVec, UInt32.toNat_shiftRight, hshift,
    Nat.testBit_shiftRight]
  rfl

/-- The word of a bucket of the table can be read. -/
theorem acWord_eq {flags : List UInt32} {i : UInt32} (h : i.toNat / 16 < flags.length) :
    acWord flags i = .ok (flags.getD (i.toNat / 16) 0) := by
  rw [acWord, toNat_div_sixteen, List.getElem?_eq_getElem h, List.getD_eq_getElem _ _ h]

/-- A test of a single bit. -/
theorem and_two_pow_ne_zero {b : Nat} {mask : UInt32} (hmask : mask.toNat = 2 ^ b)
    (x : UInt32) : (x &&& mask != 0) = x.toBitVec.getLsbD b := by
  have hand : (x &&& mask).toNat = (x.toNat.testBit b).toNat * 2 ^ b := by
    rw [UInt32.toNat_and, hmask, Nat.and_two_pow]
  rw [Bool.eq_iff_iff, bne_iff_ne, ne_eq, ← UInt32.toNat_inj, hand, BitVec.getLsbD,
    UInt32.toNat_toBitVec]
  cases x.toNat.testBit b <;> simp

/-- A test of the two lowest bits. -/
theorem and_three_ne_zero (x : UInt32) :
    (x &&& 3 != 0) = (x.toBitVec.getLsbD 1 || x.toBitVec.getLsbD 0) := by
  have hand : (x &&& 3).toNat = x.toNat % 4 := Nat.and_two_pow_sub_one_eq_mod x.toNat 2
  rw [Bool.eq_iff_iff, bne_iff_ne, ne_eq, ← UInt32.toNat_inj, hand, BitVec.getLsbD,
    BitVec.getLsbD, UInt32.toNat_toBitVec]
  simp only [UInt32.toNat_zero, Nat.testBit_eq_decide_div_mod_eq, Bool.or_eq_true,
    decide_eq_true_eq]
  omega

/-- The macros that read flags. -/
theorem acIsempty_eq {flags : List UInt32} {i : UInt32} (h : i.toNat / 16 < flags.length) :
    acIsempty flags i = .ok (emptyBit flags i.toNat) := by
  rw [acIsempty, acTest, acWord_eq h, ok_bind, and_two_pow_ne_zero (b := 1) rfl,
    getLsbD_shiftRight_acShift]
  rfl

/-- `__ac_isdel` reads the lower of the two bits. -/
theorem acIsdel_eq {flags : List UInt32} {i : UInt32} (h : i.toNat / 16 < flags.length) :
    acIsdel flags i = .ok (delBit flags i.toNat) := by
  rw [acIsdel, acTest, acWord_eq h, ok_bind, and_two_pow_ne_zero (b := 0) rfl,
    getLsbD_shiftRight_acShift]
  rfl

/-- `__ac_iseither` reads both. -/
theorem acIseither_eq {flags : List UInt32} {i : UInt32} (h : i.toNat / 16 < flags.length) :
    acIseither flags i = .ok (emptyBit flags i.toNat || delBit flags i.toNat) := by
  rw [acIseither, acTest, acWord_eq h, ok_bind, and_three_ne_zero, getLsbD_shiftRight_acShift,
    getLsbD_shiftRight_acShift]
  rfl

/-- Every bit of an edited word. -/
theorem flagBit_edit {flags : List UInt32} {i : Nat} (edit : UInt32 → UInt32)
    (value : Nat → Bool → Bool) (h : i / 16 < flags.length)
    (hedit : ∀ word q, q < 32 →
      (edit word).toBitVec.getLsbD q = value q (word.toBitVec.getLsbD q)) {b : Nat} (hb : b < 2)
    (j : Nat) :
    flagBit b (flags.set (i / 16) (edit (flags.getD (i / 16) 0))) j =
      if j / 16 = i / 16 then value (2 * (j % 16) + b) (flagBit b flags j)
      else flagBit b flags j := by
  unfold flagBit
  rw [List.getD_eq_getElem?_getD, List.getElem?_set]
  by_cases hword : j / 16 = i / 16
  · rw [if_pos hword.symm, if_pos (by omega), if_pos hword, Option.getD_some,
      hedit _ _ (by omega), hword]
  · rw [if_neg (Ne.symm hword), if_neg hword, ← List.getD_eq_getElem?_getD]

/-- A bit that is moved to the place of a bucket. -/
theorem getLsbD_shiftLeft_acShift (word i : UInt32) {q : Nat} (hq : q < 32) :
    (word <<< acShift i).toBitVec.getLsbD q =
      (decide (2 * (i.toNat % 16) ≤ q) &&
        word.toBitVec.getLsbD (q - 2 * (i.toNat % 16))) := by
  have hshift : ((acShift i).toBitVec % 32).toNat = 2 * (i.toNat % 16) := by
    have hmod : ((acShift i).toBitVec % 32).toNat = (acShift i).toNat % 32 := rfl
    rw [hmod, toNat_acShift]
    omega
  rw [UInt32.toBitVec_shiftLeft, BitVec.shiftLeft_eq', BitVec.getLsbD_shiftLeft, hshift,
    decide_eq_true hq]
  by_cases h : 2 * (i.toNat % 16) ≤ q
  · simp [h, Nat.not_lt.mpr h]
  · simp [h, Nat.lt_of_not_le h]

/-- A power of two has one bit. -/
theorem getLsbD_two_pow {word : UInt32} {b : Nat} (hword : word.toNat = 2 ^ b) (q : Nat) :
    word.toBitVec.getLsbD q = decide (q = b) := by
  rw [BitVec.getLsbD, UInt32.toNat_toBitVec, hword, Nat.testBit_two_pow]
  exact decide_eq_decide.mpr eq_comm

theorem getLsbD_three (q : Nat) : (3 : UInt32).toBitVec.getLsbD q = decide (q < 2) :=
  Nat.testBit_two_pow_sub_one 2 q

/-- A bit that is cleared for one bucket. -/
theorem ite_and_place (bit : Bool) {i j : Nat} {cleared : Prop} [Decidable cleared]
    (h : j / 16 = i / 16 → (cleared ↔ j = i)) :
    (if j / 16 = i / 16 then bit && !decide cleared else bit) = (bit && !decide (j = i)) := by
  by_cases hword : j / 16 = i / 16
  · rw [if_pos hword, decide_eq_decide.mpr (h hword)]
  · have hne : j ≠ i := fun heq => hword (by rw [heq])
    rw [if_neg hword, decide_eq_false hne, Bool.not_false, Bool.and_true]

section Edits

variable {flags : List UInt32} {i : UInt32}

/-- A flag is edited in its word. -/
theorem acEdit_eq {edit : UInt32 → UInt32} (h : i.toNat / 16 < flags.length) :
    acEdit edit flags i =
      .ok (flags.set (i.toNat / 16) (edit (flags.getD (i.toNat / 16) 0))) := by
  rw [acEdit, acWord_eq h, ok_bind, toNat_div_sixteen]

/-- A deleted bucket. -/
theorem acSetIsdelTrue_spec (h : i.toNat / 16 < flags.length) :
    ∃ flags', acSetIsdelTrue flags i = .ok flags' ∧ flags'.length = flags.length ∧
      (∀ j, emptyBit flags' j = emptyBit flags j) ∧
      ∀ j, delBit flags' j = (delBit flags j || decide (j = i.toNat)) := by
  have hbits := fun b (hb : b < 2) => flagBit_edit (fun word => word ||| (1 <<< acShift i))
    (fun q bit => bit || decide (q = 2 * (i.toNat % 16))) h (by
      intro word q hq
      rw [UInt32.toBitVec_or, BitVec.getLsbD_or, getLsbD_shiftLeft_acShift _ _ hq,
        getLsbD_two_pow (show (1 : UInt32).toNat = 2 ^ 0 from rfl)]
      congr 1
      rw [← Bool.decide_and]
      exact decide_eq_decide.mpr (by omega)) hb
  refine ⟨_, acEdit_eq h, List.length_set, fun j => ?_, fun j => ?_⟩
  · rw [emptyBit, hbits 1 (by omega)]
    split
    · rw [decide_eq_false (by omega), Bool.or_false]
    · rfl
  · rw [delBit, hbits 0 (by omega)]
    by_cases hword : j / 16 = i.toNat / 16
    · rw [if_pos hword]
      exact congrArg (flagBit 0 flags j || ·) (decide_eq_decide.mpr (by omega))
    · have hne : j ≠ i.toNat := fun heq => hword (by rw [heq])
      rw [if_neg hword, decide_eq_false hne, Bool.or_false]

/-- A bucket that is used for the first time. -/
theorem acSetIsemptyFalse_spec (h : i.toNat / 16 < flags.length) :
    ∃ flags', acSetIsemptyFalse flags i = .ok flags' ∧ flags'.length = flags.length ∧
      (∀ j, emptyBit flags' j = (emptyBit flags j && !decide (j = i.toNat))) ∧
      ∀ j, delBit flags' j = delBit flags j := by
  have hbits := fun b (hb : b < 2) => flagBit_edit (fun word => word &&& ~~~(2 <<< acShift i))
    (fun q bit => bit && !decide (q = 2 * (i.toNat % 16) + 1)) h (by
      intro word q hq
      rw [UInt32.toBitVec_and, BitVec.getLsbD_and, UInt32.toBitVec_not, BitVec.getLsbD_not,
        decide_eq_true hq, Bool.true_and, getLsbD_shiftLeft_acShift _ _ hq,
        getLsbD_two_pow (show (2 : UInt32).toNat = 2 ^ 1 from rfl), ← Bool.decide_and]
      congr 2
      exact decide_eq_decide.mpr (by omega)) hb
  refine ⟨_, acEdit_eq h, List.length_set, fun j => ?_, fun j => ?_⟩
  · rw [emptyBit, hbits 1 (by omega)]
    exact ite_and_place _ (by omega)
  · rw [delBit, hbits 0 (by omega)]
    split
    · rw [decide_eq_false (by omega), Bool.not_false, Bool.and_true]
    · rfl

/-- A bucket that takes an entry. -/
theorem acSetIsbothFalse_spec (h : i.toNat / 16 < flags.length) :
    ∃ flags', acSetIsbothFalse flags i = .ok flags' ∧ flags'.length = flags.length ∧
      (∀ j, emptyBit flags' j = (emptyBit flags j && !decide (j = i.toNat))) ∧
      ∀ j, delBit flags' j = (delBit flags j && !decide (j = i.toNat)) := by
  have hbits := fun b (hb : b < 2) => flagBit_edit (fun word => word &&& ~~~(3 <<< acShift i))
    (fun q bit => bit && !decide (2 * (i.toNat % 16) ≤ q ∧ q < 2 * (i.toNat % 16) + 2)) h (by
      intro word q hq
      rw [UInt32.toBitVec_and, BitVec.getLsbD_and, UInt32.toBitVec_not, BitVec.getLsbD_not,
        decide_eq_true hq, Bool.true_and, getLsbD_shiftLeft_acShift _ _ hq, getLsbD_three,
        ← Bool.decide_and]
      congr 2
      exact decide_eq_decide.mpr (by omega)) hb
  refine ⟨_, acEdit_eq h, List.length_set, fun j => ?_, fun j => ?_⟩
  · rw [emptyBit, hbits 1 (by omega)]
    exact ite_and_place _ (by omega)
  · rw [delBit, hbits 0 (by omega)]
    exact ite_and_place _ (by omega)

end Edits

/-! ## Numbers of buckets -/

/-- The bits of `y` spread over the `d` places below them. -/
def Smeared (y x : Nat) (d : Nat) : Prop :=
  ∀ j, x.testBit j = true ↔ ∃ i, j ≤ i ∧ i < j + d ∧ y.testBit i = true

/-- **A shift and an or** double the run of ones. -/
theorem Smeared.double {y x d : Nat} (h : Smeared y x d) :
    Smeared y (x ||| x >>> d) (2 * d) := by
  intro j
  rw [Nat.testBit_or, Nat.testBit_shiftRight, Bool.or_eq_true, h j, h (d + j)]
  constructor
  · rintro (⟨i, hle, hlt, hi⟩ | ⟨i, hle, hlt, hi⟩)
    · exact ⟨i, hle, by omega, hi⟩
    · exact ⟨i, by omega, by omega, hi⟩
  · rintro ⟨i, hle, hlt, hi⟩
    by_cases hnear : i < j + d
    · exact .inl ⟨i, hle, hnear, hi⟩
    · exact .inr ⟨i, by omega, by omega, hi⟩

/-- A number between two powers of two, with all its bits spread. -/
theorem Smeared.eq_two_pow_sub_one {y x m : Nat} (h : Smeared y x 32) (hm : m < 32)
    (hlo : 2 ^ m ≤ y) (hhi : y < 2 ^ (m + 1)) : x = 2 ^ (m + 1) - 1 := by
  have htop : y.testBit m = true := by
    rw [Nat.testBit_eq_decide_div_mod_eq, decide_eq_true_eq]
    have hdiv : y / 2 ^ m = 1 := by
      rw [Nat.div_eq_iff (Nat.two_pow_pos m)]
      rw [Nat.pow_succ] at hhi
      omega
    rw [hdiv]
  apply Nat.eq_of_testBit_eq
  intro j
  rw [Nat.testBit_two_pow_sub_one, Bool.eq_iff_iff, h j, decide_eq_true_eq]
  constructor
  · rintro ⟨i, hle, -, hi⟩
    have hpow := Nat.ge_two_pow_of_testBit hi
    have := (Nat.pow_lt_pow_iff_right (by omega : 1 < 2)).mp (Nat.lt_of_le_of_lt hpow hhi)
    omega
  · intro hj
    exact ⟨m, by omega, by omega, htop⟩

/-- The same for words of 32 bits. -/
theorem Smeared.shift {y : Nat} {x : UInt32} {d : UInt32} (h : Smeared y x.toNat d.toNat)
    (hd : d.toNat < 32) : Smeared y (x ||| x >>> d).toNat (2 * d.toNat) := by
  rw [UInt32.toNat_or, UInt32.toNat_shiftRight, Nat.mod_eq_of_lt hd]
  exact h.double

/-- `kroundup32` spreads the bits of the predecessor and adds one. -/
theorem kroundup32_smeared (x : UInt32) :
    ∃ y : UInt32, kroundup32 x = y + 1 ∧ Smeared (x - 1).toNat y.toNat 32 := by
  have hone : Smeared (x - 1).toNat (x - 1).toNat 1 := by
    intro j
    constructor
    · exact fun h => ⟨j, Nat.le_refl j, Nat.lt_succ_self j, h⟩
    · rintro ⟨i, hle, hlt, hi⟩
      rwa [show j = i by omega]
  have htwo := hone.shift (d := 1) (by decide)
  have hfour := htwo.shift (d := 2) (by decide)
  have height := hfour.shift (d := 4) (by decide)
  have hsixteen := height.shift (d := 8) (by decide)
  exact ⟨_, rfl, hsixteen.shift (d := 16) (by decide)⟩

/-- A number is rounded up to the power of two at or above it. -/
theorem kroundup32_eq {x : UInt32} {m : Nat} (hm : m < 32) (hlo : 2 ^ m < x.toNat)
    (hhi : x.toNat ≤ 2 ^ (m + 1)) : (kroundup32 x).toNat = 2 ^ (m + 1) % 4294967296 := by
  obtain ⟨y, hround, hsmeared⟩ := kroundup32_smeared x
  have hx := x.toNat_lt
  have hpred : (x - 1).toNat = x.toNat - 1 := by
    rw [UInt32.toNat_sub]
    simp only [UInt32.reduceToNat]
    omega
  rw [hpred] at hsmeared
  have hy := hsmeared.eq_two_pow_sub_one hm (by omega) (by omega)
  have hpos := Nat.two_pow_pos (m + 1)
  rw [hround, UInt32.toNat_add, hy]
  congr 1
  simp only [UInt32.reduceToNat]
  omega

/-- The new number of buckets for a request that is neither tiny nor above `2 ^ 31`. -/
theorem khBucketCount_eq {r : UInt32} {m : Nat} (hm : 1 ≤ m ∧ m < 31) (hlo : 2 ^ m < r.toNat)
    (hhi : r.toNat ≤ 2 ^ (m + 1)) : (khBucketCount r).toNat = 2 ^ (m + 1) := by
  have hlarge : 2 ^ (m + 1) ≤ 2 ^ 31 := Nat.pow_le_pow_right (by decide) (by omega)
  have hsmall : 2 ^ 2 ≤ 2 ^ (m + 1) := Nat.pow_le_pow_right (by decide) (by omega)
  have hround := kroundup32_eq (by omega) hlo hhi
  rw [Nat.mod_eq_of_lt (by omega)] at hround
  have hfour : ¬ kroundup32 r < 4 := by
    rw [UInt32.lt_iff_toNat_lt, hround]
    simp only [UInt32.reduceToNat]
    omega
  rw [khBucketCount, if_neg hfour, hround]

/-- **The number of buckets is a power of two**, whatever is requested. -/
theorem khBucketCount_pow (r : UInt32) :
    ∃ k, (2 ≤ k ∧ k ≤ 31) ∧ (khBucketCount r).toNat = 2 ^ k := by
  have hr := r.toNat_lt
  rcases Nat.lt_or_ge 2 r.toNat with htwo | hsmall
  · -- the exponent of the predecessor says where the request lies
    obtain ⟨hlo, hhi⟩ := (Nat.log2_eq_iff (n := r.toNat - 1) (k := (r.toNat - 1).log2)
      (by omega)).mp rfl
    have hm : 1 ≤ (r.toNat - 1).log2 := (Nat.le_log2 (by omega)).mpr (by omega)
    rcases Nat.lt_or_ge (r.toNat - 1).log2 31 with hlt | hge
    · exact ⟨_, ⟨by omega, by omega⟩, khBucketCount_eq ⟨hm, hlt⟩ (by omega) (by omega)⟩
    · have hpow : 2 ^ 31 ≤ 2 ^ (r.toNat - 1).log2 := Nat.pow_le_pow_right (by decide) hge
      have hround := kroundup32_eq (x := r) (m := 31) (by decide) (by omega) (by omega)
      have hzero : kroundup32 r = 0 := UInt32.toNat_inj.mp hround
      refine ⟨2, by decide, ?_⟩
      rw [khBucketCount, hzero]
      rfl
  · refine ⟨2, by decide, ?_⟩
    have hcases : r = 0 ∨ r = 1 ∨ r = 2 := by
      simp only [← UInt32.toNat_inj, UInt32.reduceToNat]
      omega
    rcases hcases with rfl | rfl | rfl <;> decide

/-- For every number of buckets the bound is that fraction of it, rounded. -/
theorem toNat_acUpperBound (m : UInt32) : (acUpperBound m).toNat =
    (m.toNat * 1733885856537641 + 1125899906842624) / 2251799813685248 := by
  have hm := m.toNat_lt
  rw [acUpperBound, UInt32.toNat_ofNat_of_lt']
  rw [UInt32.size]
  omega

/-- The upper bound leaves a bucket empty. -/
theorem acUpperBound_lt {m : UInt32} (h : 4 ≤ m.toNat) : (acUpperBound m).toNat < m.toNat := by
  rw [toNat_acUpperBound]
  omega

/-- A table that is less than half full is below the bound. -/
theorem lt_acUpperBound {m : UInt32} {s : Nat} (h : 2 * s < m.toNat) :
    s < (acUpperBound m).toNat := by
  rw [toNat_acUpperBound]
  omega

/-- A bucket of the table has its word of flags. -/
theorem div_sixteen_lt_acFsize {m : UInt32} {k i : Nat} (hm : m.toNat = 2 ^ k)
    (hi : i < m.toNat) : i / 16 < (acFsize m).toNat := by
  unfold acFsize
  split
  case isTrue h =>
    rw [UInt32.lt_iff_toNat_lt] at h
    simp only [UInt32.reduceToNat] at h ⊢
    omega
  case isFalse h =>
    rw [UInt32.lt_iff_toNat_lt] at h
    simp only [UInt32.reduceToNat] at h
    have hk : 4 ≤ k := by
      by_contra hlt
      have := Nat.pow_le_pow_right (n := 2) (by decide) (by omega : k ≤ 3)
      omega
    obtain ⟨q, rfl⟩ := Nat.exists_eq_add_of_le hk
    rw [Nat.pow_add] at hm
    rw [toNat_div_sixteen]
    omega

/-- New flags: every bucket is empty. -/
theorem acAllEmpty_bits {m : UInt32} {k i : Nat} (hm : m.toNat = 2 ^ k) (hi : i < m.toNat) :
    emptyBit (acAllEmpty m) i = true ∧ delBit (acAllEmpty m) i = false := by
  have hword : (acAllEmpty m).getD (i / 16) 0 = 0xaaaaaaaa := by
    have hlt := div_sixteen_lt_acFsize hm hi
    rw [acAllEmpty, List.getD_eq_getElem _ _ (by rwa [List.length_replicate]),
      List.getElem_replicate]
  have hbits : ∀ p < 16, (0xaaaaaaaa : UInt32).toBitVec.getLsbD (2 * p + 1) = true ∧
      (0xaaaaaaaa : UInt32).toBitVec.getLsbD (2 * p + 0) = false := by decide
  rw [emptyBit, delBit, flagBit, flagBit, hword]
  exact hbits (i % 16) (Nat.mod_lt _ (by decide))

end Vmars
