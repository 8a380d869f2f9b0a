import Mathlib

/-!
# Sending items in batches

A library about batches.  It names nothing of a particular program.

Items of a size are collected into a batch that has a limit.  An item that would
take the batch over the limit sends it first, and it may also be sent at any other
time.  The items are sent in their order, none is divided (`run_flatten`), and no
batch goes over the limit unless a single item does (`run_within`).
-/

namespace Batching

variable {α : Type} {size : α → Nat} {limit : Nat}

/-- What is asked of the collector. -/
inductive Op (α : Type) where
  | push (item : α)
  | flush

/-- The size of a batch. -/
def weight (size : α → Nat) (batch : List α) : Nat := (batch.map size).sum

/-- One operation on the batch that is collected: the batches that are sent, and the
batch that is collected afterwards. -/
def step (size : α → Nat) (limit : Nat) (pending : List α) : Op α → List (List α) × List α
  | .flush => ([pending], [])
  | .push item =>
      if size item + weight size pending > limit then ([pending], [item])
      else ([], pending ++ [item])

/-- A run of operations. -/
def run (size : α → Nat) (limit : Nat) (pending : List α) : List (Op α) → List (List α) × List α
  | [] => ([], pending)
  | op :: ops =>
      let (sent, pending) := step size limit pending op
      let (rest, pending) := run size limit pending ops
      (sent ++ rest, pending)

/-- The items of the operations. -/
def items : List (Op α) → List α
  | [] => []
  | .push item :: ops => item :: items ops
  | .flush :: ops => items ops

theorem step_push (pending : List α) (item : α) :
    step size limit pending (.push item) =
      if size item + weight size pending > limit then ([pending], [item])
      else ([], pending ++ [item]) := rfl

@[simp] theorem run_nil (pending : List α) : run size limit pending [] = ([], pending) := rfl

@[simp] theorem run_cons (pending : List α) (op : Op α) (ops : List (Op α)) :
    run size limit pending (op :: ops) =
      ((step size limit pending op).1 ++ (run size limit (step size limit pending op).2 ops).1,
        (run size limit (step size limit pending op).2 ops).2) := rfl

/-- Operations are run one after the other. -/
theorem run_append (pending : List α) (xs ys : List (Op α)) :
    run size limit pending (xs ++ ys) =
      ((run size limit pending xs).1 ++ (run size limit (run size limit pending xs).2 ys).1,
        (run size limit (run size limit pending xs).2 ys).2) := by
  induction xs generalizing pending with
  | nil => simp
  | cons op xs ih => simp [ih]

/-! ## Order -/

/-- A step sends what was collected, or collects it further. -/
theorem step_flatten (pending : List α) (op : Op α) :
    (step size limit pending op).1.flatten ++ (step size limit pending op).2 =
      pending ++ items [op] := by
  cases op with
  | flush => simp [step, items]
  | push item =>
      rw [step_push]
      split
      · simp [items]
      · simp [items]

theorem items_cons (op : Op α) (ops : List (Op α)) :
    items (op :: ops) = items [op] ++ items ops := by
  cases op <;> rfl

/-- **Nothing is lost, repeated or divided.**  The batches that are sent, followed by
the batch that is collected, are the items in their order. -/
theorem run_flatten (pending : List α) (ops : List (Op α)) :
    (run size limit pending ops).1.flatten ++ (run size limit pending ops).2 =
      pending ++ items ops := by
  induction ops generalizing pending with
  | nil => simp [items]
  | cons op ops ih =>
      rw [run_cons, List.flatten_append, List.append_assoc, ih, ← List.append_assoc, step_flatten,
        items_cons op ops, List.append_assoc]

/-! ## The limit -/

theorem weight_append (xs ys : List α) :
    weight size (xs ++ ys) = weight size xs + weight size ys := by
  simp [weight]

/-- A step keeps the limit when its item does. -/
theorem step_within {pending : List α} {op : Op α} (hpending : weight size pending ≤ limit)
    (hitem : ∀ item, op = .push item → size item ≤ limit) :
    (∀ batch ∈ (step size limit pending op).1, weight size batch ≤ limit) ∧
      weight size (step size limit pending op).2 ≤ limit := by
  cases op with
  | flush => simpa [step, weight] using hpending
  | push item =>
      have hsize := hitem item rfl
      rw [step_push]
      split
      · exact ⟨by simpa using hpending, by simpa [weight] using hsize⟩
      · next hfits =>
        refine ⟨by simp, ?_⟩
        rw [weight_append]
        simp only [weight, List.map_cons, List.map_nil, List.sum_cons, List.sum_nil] at hfits ⊢
        omega

/-- **The limit.**  Items that keep it are sent in batches that do. -/
theorem run_within {pending : List α} {ops : List (Op α)} (hpending : weight size pending ≤ limit)
    (hitems : ∀ item ∈ items ops, size item ≤ limit) :
    (∀ batch ∈ (run size limit pending ops).1, weight size batch ≤ limit) ∧
      weight size (run size limit pending ops).2 ≤ limit := by
  induction ops generalizing pending with
  | nil => exact ⟨by simp, hpending⟩
  | cons op ops ih =>
      rw [items_cons] at hitems
      have hstep := @step_within _ size limit pending op hpending (by
        intro item hop
        apply hitems
        rw [hop]
        simp [items])
      have hrest := ih hstep.2 fun item hitem => hitems item (List.mem_append_right _ hitem)
      rw [run_cons]
      refine ⟨?_, hrest.2⟩
      intro batch hbatch
      rcases List.mem_append.mp hbatch with hbatch | hbatch
      · exact hstep.1 batch hbatch
      · exact hrest.1 batch hbatch

end Batching
