import Mathlib.Logic.Function.Basic

/-!
# Occurrences of a pattern in a list

A library for substring search over an arbitrary alphabet: where a pattern
occurs, its leftmost occurrence, and what a shift table must satisfy so that a
search which skips by it (Horspool's variant of the Boyer--Moore search) passes
over no occurrence.

The second half is about text made of pieces that each end in a letter which
the pattern does not contain: no occurrence crosses the end of such a piece.
-/

namespace Occurrence

variable {α : Type}

/-- `pat` occurs in `hay` at position `i`. -/
def OccursAt (pat hay : List α) (i : Nat) : Prop := pat <+: hay.drop i

instance [DecidableEq α] (pat hay : List α) (i : Nat) : Decidable (OccursAt pat hay i) := by
  unfold OccursAt; infer_instance

/-- The leftmost position at which `pat` occurs in `hay`. -/
def firstOccurrence [DecidableEq α] (pat : List α) : List α → Option Nat
  | [] => if pat <+: [] then some 0 else none
  | a :: hay => if pat <+: a :: hay then some 0 else (firstOccurrence pat hay).map (· + 1)

theorem occursAt_zero {pat hay : List α} : OccursAt pat hay 0 ↔ pat <+: hay := by
  simp [OccursAt]

theorem occursAt_cons_succ {pat hay : List α} {a : α} {i : Nat} :
    OccursAt pat (a :: hay) (i + 1) ↔ OccursAt pat hay i := by
  simp [OccursAt]

/-- Occurrences in a suffix are occurrences in the whole, moved. -/
theorem occursAt_drop {pat hay : List α} {k i : Nat} :
    OccursAt pat (hay.drop k) i ↔ OccursAt pat hay (k + i) := by
  simp [OccursAt, List.drop_drop]

/-- An occurrence fits into the text. -/
theorem OccursAt.length_le {pat hay : List α} {i : Nat} (h : OccursAt pat hay i)
    (hne : pat ≠ []) : i + pat.length ≤ hay.length := by
  have hle := List.IsPrefix.length_le h
  rw [List.length_drop] at hle
  have hpos : 0 < pat.length := List.length_pos_iff.mpr hne
  omega

/-- The letters under an occurrence are those of the pattern. -/
theorem OccursAt.getElem? {pat hay : List α} {i j : Nat} (h : OccursAt pat hay i)
    (hj : j < pat.length) : hay[i + j]? = pat[j]? := by
  obtain ⟨rest, hrest⟩ := h
  have := congrArg (fun xs : List α => xs[j]?) hrest
  simpa [List.getElem?_append_left hj] using this.symm

/-- A position is an occurrence when every letter of the pattern is found. -/
theorem occursAt_of_getElem? {pat hay : List α} {i : Nat}
    (h : ∀ j, j < pat.length → hay[i + j]? = pat[j]?) : OccursAt pat hay i := by
  rw [OccursAt, List.prefix_iff_getElem?]
  intro j hj
  rw [List.getElem?_drop, h j hj, List.getElem?_eq_getElem hj]

section Leftmost

variable [DecidableEq α]

/-- **The first occurrence** is one, and there is none before it. -/
theorem firstOccurrence_eq_some {pat hay : List α} {i : Nat} (hne : pat ≠ []) :
    firstOccurrence pat hay = some i ↔
      OccursAt pat hay i ∧ ∀ j, j < i → ¬ OccursAt pat hay j := by
  induction hay generalizing i with
  | nil =>
      have hno : ∀ j, ¬ OccursAt pat [] j := fun j h => by
        have := h.length_le hne
        have hpos : 0 < pat.length := List.length_pos_iff.mpr hne
        rw [List.length_nil] at this
        omega
      have hp : ¬ pat <+: [] := fun h => hno 0 (occursAt_zero.mpr h)
      simp [firstOccurrence, hp, hno]
  | cons a hay ih =>
      by_cases hp : pat <+: a :: hay
      · cases i with
        | zero => simp [firstOccurrence, hp, occursAt_zero]
        | succ i =>
            simp only [firstOccurrence, if_pos hp, Option.some.injEq]
            constructor
            · intro h; cases h
            · rintro ⟨-, h⟩
              exact (h 0 (Nat.succ_pos i) (occursAt_zero.mpr hp)).elim
      · cases i with
        | zero => simp [firstOccurrence, hp, occursAt_zero]
        | succ i =>
            simp only [firstOccurrence, if_neg hp, Option.map_eq_some_iff, Nat.add_right_cancel_iff,
              exists_eq_right, ih, occursAt_cons_succ]
            refine and_congr_right fun _ => ⟨fun h j hj => ?_, fun h j hj => ?_⟩
            · cases j with
              | zero => simpa [occursAt_zero] using hp
              | succ j => simpa [occursAt_cons_succ] using h j (by omega)
            · simpa [occursAt_cons_succ] using h (j + 1) (by omega)

/-- Without an occurrence there is no first one. -/
theorem firstOccurrence_eq_none {pat hay : List α} (hne : pat ≠ []) :
    firstOccurrence pat hay = none ↔ ∀ i, ¬ OccursAt pat hay i := by
  constructor
  · intro h i hi
    induction i using Nat.strongRecOn with
    | ind i ih =>
        have := (firstOccurrence_eq_some hne).mpr ⟨hi, fun j hj hoc => ih j hj hoc⟩
        simp [h] at this
  · intro h
    cases hf : firstOccurrence pat hay with
    | none => rfl
    | some i => exact (h i ((firstOccurrence_eq_some hne).mp hf).1).elim

end Leftmost

/-! ## Safe shifts -/

/-- A shift table is safe for a pattern when the shift for a letter moves no
occurrence of that letter in the pattern, its last position aside, past the
position under the end of the window. -/
structure SafeShift (pat : List α) (shift : α → Nat) : Prop where
  pos : ∀ c, 0 < shift c
  le_length : ∀ c, shift c ≤ pat.length
  le_distance : ∀ c j, j + 1 < pat.length → pat[j]? = some c → shift c ≤ pat.length - 1 - j

/-- **No occurrence is skipped.**  If the window that starts at `s` ends on the
letter `c`, the next occurrence starts at `s + shift c` or later. -/
theorem SafeShift.le_of_occursAt {pat hay : List α} {shift : α → Nat}
    (hs : SafeShift pat shift) {s t : Nat} {c : α} (hc : hay[s + (pat.length - 1)]? = some c)
    (hst : s < t) (hocc : OccursAt pat hay t) : s + shift c ≤ t := by
  by_cases hfar : pat.length ≤ t - s
  · have := hs.le_length c
    omega
  · -- the window's last letter lies under position `pat.length - 1 - (t - s)` of the occurrence
    have hj : pat.length - 1 - (t - s) < pat.length := by omega
    have hletter := hocc.getElem? hj
    have hidx : t + (pat.length - 1 - (t - s)) = s + (pat.length - 1) := by omega
    rw [hidx, hc] at hletter
    have := hs.le_distance c _ (by omega) hletter.symm
    omega

/-! ## Pieces that end in a separator -/

section Separator

variable {sep : α} {pat piece rest : List α}

/-- No occurrence reaches over a separator that the pattern does not contain. -/
theorem OccursAt.before_separator (hsep : sep ∉ pat) {i : Nat}
    (h : OccursAt pat (piece ++ sep :: rest) i) (hi : i ≤ piece.length) :
    i + pat.length ≤ piece.length := by
  by_contra hlt
  have hj : piece.length - i < pat.length := by omega
  have hletter := h.getElem? hj
  have hidx : i + (piece.length - i) = piece.length := by omega
  rw [hidx] at hletter
  simp only [List.getElem?_append_right (Nat.le_refl _), Nat.sub_self, List.getElem?_cons_zero]
    at hletter
  exact hsep (List.mem_of_getElem? hletter.symm)

/-- An occurrence in a text starts inside a piece only if it is one of the piece. -/
theorem OccursAt.of_append (hsep : sep ∉ pat) (hlast : piece.getLast? = some sep) {i : Nat}
    (h : OccursAt pat (piece ++ rest) i) (hi : i < piece.length) : OccursAt pat piece i := by
  obtain ⟨init, rfl⟩ : ∃ init, piece = init ++ [sep] := by
    obtain ⟨init, hinit⟩ := List.getLast?_eq_some_iff.mp hlast
    exact ⟨init, hinit⟩
  simp only [List.length_append, List.length_singleton] at hi
  have hb := @OccursAt.before_separator _ _ _ _ rest hsep _ (by simpa using h) (by omega)
  apply occursAt_of_getElem?
  intro j hj
  have hletter := h.getElem? hj
  rwa [List.getElem?_append_left (by simp; omega)] at hletter

/-- An occurrence that fits into a piece of a text is one of the text. -/
theorem OccursAt.append_right {i : Nat} (h : OccursAt pat piece i) :
    OccursAt pat (piece ++ rest) i := by
  obtain ⟨t, ht⟩ := h
  by_cases hi : i ≤ piece.length
  · exact ⟨t ++ rest, by rw [List.drop_append_of_le_length hi, ← ht, List.append_assoc]⟩
  · rw [List.drop_eq_nil_of_le (by omega)] at ht
    obtain rfl : pat = [] := (List.append_eq_nil_iff.mp ht).1
    exact List.nil_prefix

/-- Occurrences past a piece are occurrences of what follows it. -/
theorem occursAt_append_right {k : Nat} :
    OccursAt pat (piece ++ rest) (piece.length + k) ↔ OccursAt pat rest k := by
  simp [OccursAt]

end Separator

/-- A text without the pattern's first letter has no occurrence. -/
theorem firstOccurrence_eq_none_of_not_mem [DecidableEq α] {a : α} {pat text : List α}
    (h : a ∉ text) : firstOccurrence (a :: pat) text = none := by
  rw [firstOccurrence_eq_none (List.cons_ne_nil a pat)]
  intro i hocc
  have hletter := hocc.getElem? (j := 0) (by simp)
  exact h (List.mem_of_getElem? hletter)

/-- Behind a text without the pattern the first occurrence is the next one, if the
pattern's first letter stands in it only once. -/
theorem firstOccurrence_append [DecidableEq α] {pat pre tail : List α} (hne : pat ≠ [])
    (hfirst : ∀ j < pat.length, 0 < j → pat[j]? ≠ pat[0]?) (hpre : ∀ i, ¬ OccursAt pat pre i)
    (htail : pat <+: tail) : firstOccurrence pat (pre ++ tail) = some pre.length := by
  have hpos := List.length_pos_iff.mpr hne
  rw [firstOccurrence_eq_some hne]
  refine ⟨(occursAt_append_right (k := 0)).mpr (occursAt_zero.mpr htail), fun j hj hocc => ?_⟩
  by_cases hin : j + pat.length ≤ pre.length
  · refine hpre j (occursAt_of_getElem? fun i hi => ?_)
    have hletter := hocc.getElem? hi
    rwa [List.getElem?_append_left (by omega)] at hletter
  · -- the occurrence would have the first letter twice
    obtain ⟨rest, rfl⟩ := htail
    have hletter := hocc.getElem? (j := pre.length - j) (by omega)
    rw [show j + (pre.length - j) = pre.length by omega,
      List.getElem?_append_right (Nat.le_refl _), Nat.sub_self,
      List.getElem?_append_left hpos] at hletter
    exact hfirst (pre.length - j) (by omega) (by omega) hletter.symm

/-- The pattern occurs in the text at its start and nowhere else. -/
def OnlyAtStart (pat text : List α) : Prop :=
  ∀ i, OccursAt pat text i ↔ i = 0

theorem OnlyAtStart.isPrefix {pat text : List α} (h : OnlyAtStart pat text) : pat <+: text :=
  occursAt_zero.mp ((h 0).mpr rfl)

/-- Inside a text with its pattern at the start only, no later suffix has one. -/
theorem OnlyAtStart.not_occursAt_drop {pat text : List α} (h : OnlyAtStart pat text) {k : Nat}
    (hk : 0 < k) (i : Nat) : ¬ OccursAt pat (text.drop k) i := by
  rw [occursAt_drop, h]
  omega

/-- Whether a text has its pattern at the start only can be computed. -/
theorem onlyAtStart_iff [DecidableEq α] {pat text : List α} (hne : pat ≠ []) :
    OnlyAtStart pat text ↔ pat <+: text ∧ firstOccurrence pat (text.drop 1) = none := by
  rw [firstOccurrence_eq_none hne]
  refine ⟨fun h => ⟨h.isPrefix, h.not_occursAt_drop Nat.one_pos⟩, ?_⟩
  rintro ⟨hpre, hnone⟩ i
  refine ⟨fun hocc => ?_, fun hi => hi ▸ occursAt_zero.mpr hpre⟩
  cases i with
  | zero => rfl
  | succ i => exact (hnone i (by rwa [occursAt_drop, Nat.add_comm])).elim

end Occurrence
