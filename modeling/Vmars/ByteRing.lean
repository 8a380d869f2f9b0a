import Mathlib.Logic.Function.Basic

/-!
# A ring of bytes with absolute positions

A library about rings.  It names nothing of a particular program.

A position counts all bytes that ever went through the ring; byte `p` lives in
the cell `p % capacity`.  A run of bytes that is still being written is a list
of slots, `none` where nothing is known yet, and `Holds` says that the ring
carries every known one.  Writing a slot of such a run changes no other slot as
long as the run is not longer than the ring (`Holds.store`).
-/

namespace ByteRing

variable {capacity position : Nat} {cells : Nat → UInt8}

/-- Less than one round apart, different positions have different cells. -/
theorem mod_ne_mod {p q : Nat} (hlt : p < q) (hround : q < p + capacity) :
    p % capacity ≠ q % capacity := by
  intro h
  have hzero : (q - p) % capacity = 0 := Nat.sub_mod_eq_zero_of_mod_eq h.symm
  have hpos := Nat.mod_eq_of_lt (show q - p < capacity by omega)
  omega

/-- The ring carries every known byte of the run at `position`. -/
def Holds (capacity : Nat) (cells : Nat → UInt8) (position : Nat) (slots : List (Option UInt8)) :
    Prop :=
  ∀ j b, slots[j]? = some (some b) → cells ((position + j) % capacity) = b

theorem holds_nil : Holds capacity cells position [] := by
  intro j b h
  simp at h

/-- Nothing is required of a run of unknown bytes. -/
theorem holds_replicate_none (n : Nat) :
    Holds capacity cells position (List.replicate n none) := by
  intro j b h
  rw [List.getElem?_replicate] at h
  split at h
  · simp at h
  · cases h

/-- Two runs, one after the other. -/
theorem holds_append {xs ys : List (Option UInt8)} :
    Holds capacity cells position (xs ++ ys) ↔
      Holds capacity cells position xs ∧ Holds capacity cells (position + xs.length) ys := by
  constructor
  · intro h
    refine ⟨fun j b hj => ?_, fun j b hj => ?_⟩
    · have hlt := (List.getElem?_eq_some_iff.mp hj).1
      exact h j b (by rw [List.getElem?_append_left hlt, hj])
    · rw [Nat.add_assoc]
      exact h (xs.length + j) b (by rw [List.getElem?_append_right (by omega)]; simpa using hj)
  · rintro ⟨hxs, hys⟩ j b hj
    by_cases hlt : j < xs.length
    · exact hxs j b (by rwa [List.getElem?_append_left hlt] at hj)
    · rw [List.getElem?_append_right (by omega)] at hj
      have := hys (j - xs.length) b hj
      rwa [Nat.add_assoc, Nat.add_sub_cancel' (by omega)] at this

/-- Writing a slot of a run that fits the ring keeps the other slots. -/
theorem Holds.store {slots : List (Option UInt8)} {j : Nat} {b : UInt8}
    (h : Holds capacity cells position slots) (hj : j < slots.length)
    (hfits : slots.length ≤ capacity) :
    Holds capacity (Function.update cells ((position + j) % capacity) b) position
      (slots.set j (some b)) := by
  intro i c hi
  by_cases hij : j = i
  · subst hij
    rw [List.getElem?_set_self hj] at hi
    rw [Function.update_self]
    simpa using hi
  · rw [List.getElem?_set_ne hij] at hi
    have hlt := (List.getElem?_eq_some_iff.mp hi).1
    have hne : (position + i) % capacity ≠ (position + j) % capacity := by
      rcases Nat.lt_or_gt_of_ne hij with hlt' | hlt'
      · exact (mod_ne_mod (by omega) (by omega)).symm
      · exact mod_ne_mod (by omega) (by omega)
    rw [Function.update_of_ne hne]
    exact h i c hi

/-- A known run is read back byte by byte. -/
theorem Holds.getElem? {bytes : List UInt8} {j : Nat} {b : UInt8}
    (h : Holds capacity cells position (bytes.map some)) (hj : bytes[j]? = some b) :
    cells ((position + j) % capacity) = b :=
  h j b (by rw [List.getElem?_map, hj]; rfl)

/-! ## Runs that become known -/

/-- Writing the first unknown byte of a run that is filled in order. -/
theorem set_first_unknown (known : List UInt8) (n : Nat) (b : UInt8) :
    (known.map some ++ List.replicate (n + 1) none).set known.length (some b) =
      (known ++ [b]).map some ++ List.replicate n none := by
  rw [List.set_append_right _ _ (by simp), List.length_map, Nat.sub_self, List.replicate_succ,
    List.set_cons_zero]
  simp

/-- The bytes of a run once all of them are known. -/
def allKnown : List (Option UInt8) → Option (List UInt8)
  | [] => some []
  | none :: _ => none
  | some b :: slots => (allKnown slots).map (b :: ·)

/-- When all bytes were read, these are the bytes. -/
theorem allKnown_eq_some {slots : List (Option UInt8)} {bytes : List UInt8}
    (h : allKnown slots = some bytes) : slots = bytes.map some := by
  induction slots generalizing bytes with
  | nil =>
      cases h
      rfl
  | cons slot slots ih =>
      cases slot with
      | none => cases h
      | some b =>
          obtain ⟨rest, hrest, rfl⟩ := Option.map_eq_some_iff.mp h
          rw [ih hrest]
          rfl

/-- The slots that are known have the bytes of `bytes`. -/
structure Agrees (slots : List (Option UInt8)) (bytes : List UInt8) : Prop where
  length_eq : slots.length = bytes.length
  known_eq : ∀ (j : Nat) (b : UInt8), slots[j]? = some (some b) → bytes[j]? = some b

/-- Before the first read everything agrees. -/
theorem agrees_replicate_none (bytes : List UInt8) :
    Agrees (List.replicate bytes.length none) bytes where
  length_eq := List.length_replicate
  known_eq := by
    intro j b h
    rw [List.getElem?_replicate] at h
    split at h
    · simp at h
    · cases h

/-- Learning a byte keeps the agreement. -/
theorem Agrees.set {slots : List (Option UInt8)} {bytes : List UInt8} {j : Nat} {b : UInt8}
    (h : Agrees slots bytes) (hb : bytes[j]? = some b) : Agrees (slots.set j (some b)) bytes where
  length_eq := by rw [List.length_set, h.length_eq]
  known_eq := by
    intro i c hi
    by_cases hij : j = i
    · subst hij
      have hlt : j < slots.length := h.length_eq ▸ (List.getElem?_eq_some_iff.mp hb).1
      rw [List.getElem?_set_self hlt] at hi
      rw [hb]
      simpa using hi
    · rw [List.getElem?_set_ne hij] at hi
      exact h.known_eq i c hi

/-- Once every byte is known the agreement is equality. -/
theorem Agrees.eq_of_allKnown {slots : List (Option UInt8)} {bytes known : List UInt8}
    (h : Agrees slots bytes) (hknown : allKnown slots = some known) : known = bytes := by
  obtain rfl := allKnown_eq_some hknown
  apply List.ext_getElem?
  intro j
  by_cases hj : j < known.length
  · have := h.known_eq j known[j] (by rw [List.getElem?_map, List.getElem?_eq_getElem hj]; rfl)
    rw [this, List.getElem?_eq_getElem hj]
  · have hlen := h.length_eq
    rw [List.length_map] at hlen
    rw [List.getElem?_eq_none (by omega), List.getElem?_eq_none (by omega)]

end ByteRing
