import Vmars.ByteRing

/-!
# A ring of slots that change their owner

A library about rings in which every slot says whose it is.  It names nothing of a
particular program.

A giver fills the slots in turn and marks each as full; a taker works on the full slots in the
same turn and marks each as not full.  Neither looks at a counter of the other.  The items are
counted from the start of the run, item `j` lies in the slot `j % n`.

* `Inv.get`: the slot at which the taker stands is full exactly when an item is waiting, and
  then holds the oldest one;
* `Inv.lt_of_free`: the slot at which the giver stands is not full only when there is room;
* `Inv.give`, `Inv.scribble`, `Inv.release`: what both do keeps the items that wait.
-/

namespace HandoffRing

variable {α : Type}

/-- The items that were given and are not taken lie in their slots, which are full; the slots
behind them are not. -/
structure Inv (n : Nat) (full : α → Bool) (slots : Nat → α) (taken : Nat) (given : List α) :
    Prop where
  taken_le : taken ≤ given.length
  fits : given.length ≤ taken + n
  held : ∀ j x, taken ≤ j → given[j]? = some x → slots (j % n) = x
  marked : ∀ x ∈ given, full x = true
  free : ∀ j, given.length ≤ j → j < taken + n → full (slots (j % n)) = false

namespace Inv

variable {n : Nat} {full : α → Bool} {slots : Nat → α} {taken : Nat} {given : List α}

/-- A ring without a full slot. -/
theorem empty (hfree : ∀ i, full (slots i) = false) : Inv n full slots 0 [] where
  taken_le := Nat.le_refl 0
  fits := Nat.zero_le _
  held := by
    intro j x _ hx
    cases hx
  marked := by
    intro x hx
    cases hx
  free := fun j _ _ => hfree (j % n)

/-- The slot of an item that waits is full. -/
theorem full_of_waiting (h : Inv n full slots taken given) {j : Nat} (htaken : taken ≤ j)
    (hj : j < given.length) : full (slots (j % n)) = true := by
  have hget := List.getElem?_eq_getElem hj
  rw [h.held j _ htaken hget]
  exact h.marked _ (List.getElem_mem hj)

/-- The taker sees a full slot exactly when an item waits. -/
theorem full_iff (h : Inv n full slots taken given) (hn : 0 < n) :
    full (slots (taken % n)) = true ↔ taken < given.length := by
  constructor
  · intro hfull
    apply Decidable.of_not_not
    intro hno
    have hfree := h.free taken (by omega) (by omega)
    rw [hfree] at hfull
    cases hfull
  · exact h.full_of_waiting (Nat.le_refl taken)

/-- Then it is the oldest one. -/
theorem get (h : Inv n full slots taken given) (hn : 0 < n)
    (hfull : full (slots (taken % n)) = true) : given[taken]? = some (slots (taken % n)) := by
  have hlt := (h.full_iff hn).mp hfull
  have hget := List.getElem?_eq_getElem hlt
  rw [h.held taken _ (Nat.le_refl taken) hget]
  exact hget

/-- The giver sees a slot that is not full only when there is room. -/
theorem lt_of_free (h : Inv n full slots taken given) (hn : 0 < n)
    (hfree : full (slots (given.length % n)) = false) : given.length < taken + n := by
  apply Decidable.of_not_not
  intro hno
  have hfits := h.fits
  have hlength : given.length = taken + n := by omega
  have hfull := h.full_of_waiting (Nat.le_refl taken) (by omega)
  rw [hlength, Nat.add_mod_right] at hfree
  rw [hfree] at hfull
  cases hfull

/-- The slot of the giver is none of those in which items wait. -/
theorem ne_giver {j : Nat} (htaken : taken ≤ j) (hj : j < given.length)
    (hroom : given.length < taken + n) : j % n ≠ given.length % n := by
  apply ByteRing.mod_ne_mod hj
  omega

/-- The giver may write anything into its slot that does not mark it as full. -/
theorem scribble (h : Inv n full slots taken given) (hn : 0 < n)
    (hfree : full (slots (given.length % n)) = false) {x : α} (hx : full x = false) :
    Inv n full (Function.update slots (given.length % n) x) taken given := by
  have hroom := h.lt_of_free hn hfree
  refine ⟨h.taken_le, h.fits, ?_, h.marked, ?_⟩
  · intro j y htaken hy
    have hj := (List.getElem?_eq_some_iff.mp hy).1
    rw [Function.update_of_ne (ne_giver htaken hj hroom)]
    exact h.held j y htaken hy
  · intro j hlength hj
    by_cases hslot : j % n = given.length % n
    · rw [hslot, Function.update_self]
      exact hx
    · rw [Function.update_of_ne hslot]
      exact h.free j hlength hj

/-- A full item in the giver's slot is the newest one. -/
theorem give (h : Inv n full slots taken given) (hn : 0 < n)
    (hfree : full (slots (given.length % n)) = false) {x : α} (hx : full x = true) :
    Inv n full (Function.update slots (given.length % n) x) taken (given ++ [x]) := by
  have hroom := h.lt_of_free hn hfree
  have htaken_le := h.taken_le
  refine ⟨?_, ?_, ?_, ?_, ?_⟩
  · rw [List.length_append, List.length_singleton]
    omega
  · rw [List.length_append, List.length_singleton]
    omega
  · intro j y htaken hy
    rcases Nat.lt_trichotomy j given.length with hj | rfl | hj
    · rw [Function.update_of_ne (ne_giver htaken hj hroom)]
      rw [List.getElem?_append_left hj] at hy
      exact h.held j y htaken hy
    · rw [Function.update_self]
      rw [List.getElem?_append_right (Nat.le_refl _), Nat.sub_self] at hy
      exact Option.some.inj hy
    · have hlt := (List.getElem?_eq_some_iff.mp hy).1
      rw [List.length_append, List.length_singleton] at hlt
      omega
  · intro y hy
    rcases List.mem_append.mp hy with hy | hy
    · exact h.marked y hy
    · obtain rfl := List.mem_singleton.mp hy
      exact hx
  · intro j hlength hj
    rw [List.length_append, List.length_singleton] at hlength
    have hslot : given.length % n ≠ j % n := by
      apply ByteRing.mod_ne_mod
      · omega
      · omega
    rw [Function.update_of_ne hslot.symm]
    exact h.free j (by omega) hj

/-- The taker marks its slot as not full. -/
theorem release (h : Inv n full slots taken given) (hn : 0 < n)
    (hfull : full (slots (taken % n)) = true) {x : α} (hx : full x = false) :
    Inv n full (Function.update slots (taken % n) x) (taken + 1) given := by
  have hlt := (h.full_iff hn).mp hfull
  have hfits := h.fits
  refine ⟨hlt, by omega, ?_, h.marked, ?_⟩
  · intro j y htaken hy
    have hj := (List.getElem?_eq_some_iff.mp hy).1
    have hslot : taken % n ≠ j % n := by
      apply ByteRing.mod_ne_mod
      · omega
      · omega
    rw [Function.update_of_ne hslot.symm]
    exact h.held j y (by omega) hy
  · intro j hlength hj
    by_cases hslot : j % n = taken % n
    · rw [hslot, Function.update_self]
      exact hx
    · rw [Function.update_of_ne hslot]
      apply h.free j hlength
      -- the slot behind the last round is the one that was released
      apply Decidable.of_not_not
      intro hno
      have hlast : j = taken + n := by omega
      rw [hlast, Nat.add_mod_right] at hslot
      exact hslot rfl

end Inv

end HandoffRing
