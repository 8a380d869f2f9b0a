import Mathlib

/-!
# A bounded queue between a writer and a reader

What a buffer between two threads is for, as a machine whose operations take effect at once.  It
names nothing of a particular program.

The writer reserves room and fills it later; it is refused exactly when there is no room.  The
reader holds the oldest item for a while before it removes it; it finds nothing exactly when
the queue is empty.
-/

namespace BoundedQueue

variable {α : Type}

/-- The items, oldest first, the room that the writer has reserved, and whether the reader
holds the oldest item. -/
structure Queue (α : Type) where
  items : List α
  reserved : Option Nat
  held : Bool

/-- What the threads see. -/
inductive QueueEvent (α : Type) where
  /-- The writer gets room for this size. -/
  | reserve (n : Nat)
  /-- There is no room for this size. -/
  | refuse (n : Nat)
  /-- The writer puts an item into its room. -/
  | push (x : α)
  /-- The reader finds an item. -/
  | hold
  /-- The reader finds nothing. -/
  | empty
  /-- The reader removes the item that it holds. -/
  | pop (x : α)
  deriving DecidableEq, Repr

/-- No item, no room and no reader. -/
def Queue.init : Queue α := { items := [], reserved := none, held := false }

section

variable [DecidableEq α] (size : α → Nat) (capacity : Nat)

/-- The sizes of the items. -/
def Queue.load (q : Queue α) : Nat := (q.items.map size).sum

/-- The queue after an event, `none` when the queue does not behave so. -/
def Queue.step (q : Queue α) : QueueEvent α → Option (Queue α)
  | .reserve n =>
      if q.reserved = none ∧ q.load size + n ≤ capacity then some { q with reserved := some n }
      else none
  | .refuse n => if q.reserved = none ∧ ¬ q.load size + n ≤ capacity then some q else none
  | .push x =>
      if q.reserved = some (size x) then some { q with items := q.items ++ [x], reserved := none }
      else none
  | .hold => if q.held = false ∧ q.items ≠ [] then some { q with held := true } else none
  | .empty => if q.held = false ∧ q.items = [] then some q else none
  | .pop x =>
      if q.held = true ∧ q.items.head? = some x then
        some { q with items := q.items.tail, held := false }
      else none

/-- The queue after some events. -/
def Queue.run (q : Queue α) : List (QueueEvent α) → Option (Queue α)
  | [] => some q
  | event :: events => (q.step size capacity event).bind fun q => q.run events

@[simp] theorem Queue.run_nil (q : Queue α) : q.run size capacity [] = some q := rfl

@[simp] theorem Queue.run_singleton (q : Queue α) (event : QueueEvent α) :
    q.run size capacity [event] = q.step size capacity event := by
  cases hstep : q.step size capacity event with
  | none => rw [run, hstep, Option.bind_none]
  | some q' => rw [run, hstep, Option.bind_some, run_nil]

/-- A run goes on where another one ends. -/
theorem Queue.run_append {q q' : Queue α} {events : List (QueueEvent α)}
    (h : q.run size capacity events = some q') (events' : List (QueueEvent α)) :
    q.run size capacity (events ++ events') = q'.run size capacity events' := by
  induction events generalizing q with
  | nil =>
      obtain rfl := Option.some.inj h
      rfl
  | cons event events ih =>
      obtain ⟨q₁, hstep, hrest⟩ := Option.bind_eq_some_iff.mp h
      rw [List.cons_append, run, hstep]
      exact ih hrest

end

end BoundedQueue
