import Mathlib.Data.Fintype.EquivFin
import Mathlib.Data.Nat.ModEq
import Mathlib.Data.Nat.Prime.Basic
import Mathlib.Tactic.Ring

/-!
# Triangular probing

The probe sequence of open addressing that moves by one bucket, then by two, then by
three, and so on, around a table whose number of buckets is a power of two.  The module
names nothing of a particular program.

* `site_injective`: the first `2 ^ k` buckets of a sequence are different;
* `exists_site`: so they are all buckets.
-/

namespace TriangularProbing

/-- `0 + 1 + … + s`. -/
def triangular : Nat → Nat
  | 0 => 0
  | s + 1 => triangular s + (s + 1)

/-- Twice a triangular number. -/
theorem two_mul_triangular (s : Nat) : 2 * triangular s = s * (s + 1) := by
  induction s with
  | zero => rfl
  | succ s ih =>
      rw [triangular, Nat.mul_add, ih]
      ring

/-- The bucket after `s` steps from a bucket, in a table of `n` buckets. -/
def site (n start s : Nat) : Nat := (start + triangular s) % n

/-- The next step is longer by one. -/
theorem site_succ (n start s : Nat) : site n start (s + 1) = (site n start s + (s + 1)) % n := by
  rw [site, site, triangular, ← Nat.add_assoc, Nat.mod_add_mod]

theorem site_lt {n : Nat} (hn : 0 < n) (start s : Nat) : site n start s < n := Nat.mod_lt _ hn

/-- Of two consecutive numbers a power of two divides one or the other. -/
theorem two_pow_dvd_of_dvd_mul {k a b : Nat} (hodd : a % 2 ≠ b % 2) (h : 2 ^ k ∣ a * b) :
    2 ^ k ∣ a ∨ 2 ^ k ∣ b := by
  rcases Nat.mod_two_eq_zero_or_one a with ha | ha
  · have hb : b % 2 = 1 := by omega
    have hcoprime : Nat.Coprime (2 ^ k) b :=
      Nat.Coprime.pow_left k ((Nat.coprime_two_left).mpr (Nat.odd_iff.mpr hb))
    exact .inl (hcoprime.dvd_of_dvd_mul_right h)
  · have hcoprime : Nat.Coprime (2 ^ k) a :=
      Nat.Coprime.pow_left k ((Nat.coprime_two_left).mpr (Nat.odd_iff.mpr ha))
    exact .inr (hcoprime.dvd_of_dvd_mul_left h)

/-- The first `2 ^ k` buckets of a sequence are different. -/
theorem site_injective {k start s t : Nat} (ht : t < 2 ^ k) (hst : s < t) :
    site (2 ^ k) start s ≠ site (2 ^ k) start t := by
  intro h
  have hle : triangular s ≤ triangular t := by
    have hs := two_mul_triangular s
    have htt := two_mul_triangular t
    have hmul : s * (s + 1) ≤ t * (t + 1) := Nat.mul_le_mul (by omega) (by omega)
    omega
  have hdvd : 2 ^ k ∣ triangular t - triangular s := by
    have hmod := (Nat.modEq_iff_dvd' (by omega : start + triangular s ≤ start + triangular t)).mp h
    rwa [Nat.add_sub_add_left] at hmod
  -- twice the distance of two triangular numbers is a product of an odd and an even number
  have hproduct : 2 * (triangular t - triangular s) = (t - s) * (t + s + 1) := by
    obtain ⟨d, rfl⟩ := Nat.exists_eq_add_of_lt hst
    have hs := two_mul_triangular s
    have htt := two_mul_triangular (s + d + 1)
    have hfactors : (s + d + 1) * (s + d + 1 + 1) =
        s * (s + 1) + (s + d + 1 - s) * (s + d + 1 + s + 1) := by
      rw [show s + d + 1 - s = d + 1 by omega]
      ring
    omega
  have hpow : 2 ^ (k + 1) ∣ (t - s) * (t + s + 1) := by
    rw [← hproduct, Nat.pow_succ, Nat.mul_comm]
    exact Nat.mul_dvd_mul_left 2 hdvd
  have hlarge : 2 ^ (k + 1) = 2 ^ k + 2 ^ k := by
    rw [Nat.pow_succ]
    omega
  rcases two_pow_dvd_of_dvd_mul (by omega) hpow with hdvd | hdvd
  · have := Nat.le_of_dvd (by omega) hdvd
    omega
  · have := Nat.le_of_dvd (by omega) hdvd
    omega

/-- **Every bucket is reached** within `2 ^ k` steps. -/
theorem exists_site {k start i : Nat} (hi : i < 2 ^ k) : ∃ s < 2 ^ k, site (2 ^ k) start s = i := by
  let visit : Fin (2 ^ k) → Fin (2 ^ k) := fun s =>
    ⟨site (2 ^ k) start s, site_lt (Nat.two_pow_pos k) start s⟩
  have hinjective : Function.Injective visit := by
    intro s t h
    have hsite : site (2 ^ k) start s = site (2 ^ k) start t := congrArg Fin.val h
    rcases Nat.lt_trichotomy s.val t.val with hlt | heq | hlt
    · exact absurd hsite (site_injective t.isLt hlt)
    · exact Fin.ext heq
    · exact absurd hsite.symm (site_injective s.isLt hlt)
  obtain ⟨s, hs⟩ := (Finite.injective_iff_surjective.mp hinjective) ⟨i, hi⟩
  exact ⟨s.val, s.isLt, congrArg Fin.val hs⟩

end TriangularProbing
