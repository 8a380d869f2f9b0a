import Mathlib.Data.List.Forall2
import Mathlib.Data.List.Induction
import Mathlib.Data.List.Perm.Basic
import Vmars.KeyedMachine

/-!
# Tables of slots that pair messages

The cell of such a table holds at most one pending message.  A message finds its
slot empty and becomes pending, or it answers the pending message, which empties
the slot and emits a value for the pair, or else it is ignored.  The library
names nothing of a particular program.

* `run_explained`: the values of a run belong one to one to disjoint pairs of its
  messages, and what is pending is in no pair;
* `cellRun_of_backToBack`, `backToBack_of_count`: a slot uses up all its messages
  exactly when they arrive as pairs back to back;
* `cellRun_of_unanswered`: a message that nothing answers blocks its slot.
-/

namespace PendingSlot

open KeyedMachine

/-- What a pending message leaves in its slot, which messages answer it, and the
value of the pair. -/
structure Matcher (K M R V : Type) where
  key : M → K
  record : M → R
  answers : M → R → Bool
  value : R → M → V

variable {K M R V : Type} (matcher : Matcher K M R V)

/-- A message at a slot. -/
def Matcher.step (slot : Option R) (m : M) : Option R × List V :=
  match slot with
  | none => (some (matcher.record m), [])
  | some r => if matcher.answers m r then (none, [matcher.value r m]) else (some r, [])

/-- The table of the slots. -/
def Matcher.machine : Machine K M (Option R) V where
  key := matcher.key
  step := matcher.step

/-- A message that finds no record is stored. -/
@[simp] theorem Matcher.step_none (m : M) :
    matcher.step none m = (some (matcher.record m), []) := rfl

/-- A message that answers the record takes it away. -/
theorem Matcher.step_answered {r : R} {m : M} (h : matcher.answers m r) :
    matcher.step (some r) m = (none, [matcher.value r m]) := if_pos h

/-- Any other message leaves it. -/
theorem Matcher.step_ignored {r : R} {m : M} (h : ¬ matcher.answers m r) :
    matcher.step (some r) m = (some r, []) := if_neg h

/-- A slot on a sequence of messages. -/
def Matcher.cellRun (slot : Option R) (ms : List M) : Option R × List V :=
  matcher.machine.cellRun slot ms

@[simp] theorem Matcher.cellRun_nil (slot : Option R) : matcher.cellRun slot [] = (slot, []) := rfl

/-- The messages of a cell, one after the other. -/
theorem Matcher.cellRun_cons (slot : Option R) (m : M) (ms : List M) :
    matcher.cellRun slot (m :: ms) =
      ((matcher.cellRun (matcher.step slot m).1 ms).1,
        (matcher.step slot m).2 ++ (matcher.cellRun (matcher.step slot m).1 ms).2) := rfl

/-! ## One slot -/

/-- A message that nothing answers blocks its slot. -/
theorem Matcher.cellRun_of_unanswered {r : R} {ms : List M}
    (h : ∀ m ∈ ms, ¬ matcher.answers m r) : matcher.cellRun (some r) ms = (some r, []) := by
  induction ms with
  | nil => rfl
  | cons m ms ih =>
      rw [cellRun_cons, matcher.step_ignored (h m (List.mem_cons_self ..)),
        ih fun m' hm' => h m' (List.mem_cons_of_mem _ hm')]
      rfl

/-- A pending message that some message answers is paired with one that does. -/
theorem Matcher.cellRun_answered {r : R} {ms : List M} (h : ∃ m ∈ ms, matcher.answers m r) :
    ∃ m ∈ ms, matcher.answers m r ∧ matcher.value r m ∈ (matcher.cellRun (some r) ms).2 := by
  induction ms with
  | nil =>
      obtain ⟨m, hm, -⟩ := h
      cases hm
  | cons m ms ih =>
      rw [cellRun_cons]
      by_cases hm : matcher.answers m r
      · refine ⟨m, List.mem_cons_self .., hm, ?_⟩
        rw [matcher.step_answered hm]
        exact List.mem_append_left _ (List.mem_singleton_self _)
      · obtain ⟨m', hm', hans⟩ := h
        obtain ⟨m'', hm'', hans', hval⟩ := ih ⟨m', by
          rcases List.mem_cons.mp hm' with rfl | hm'
          · exact absurd hans hm
          · exact hm', hans⟩
        refine ⟨m'', List.mem_cons_of_mem _ hm'', hans', ?_⟩
        rw [matcher.step_ignored hm]
        exact List.mem_append_right _ hval

/-- The messages arrive as pairs, each message right before the one that answers it. -/
inductive Matcher.BackToBack : List M → Prop
  | nil : BackToBack []
  | pair {a b : M} {ms : List M} (answered : matcher.answers b (matcher.record a))
      (rest : BackToBack ms) : BackToBack (a :: b :: ms)

/-- The slot pairs what arrives back to back, and is empty again. -/
theorem Matcher.cellRun_pair {a b : M} (h : matcher.answers b (matcher.record a)) (ms : List M) :
    matcher.cellRun none (a :: b :: ms) =
      ((matcher.cellRun none ms).1,
        matcher.value (matcher.record a) b :: (matcher.cellRun none ms).2) := by
  rw [cellRun_cons, step_none, cellRun_cons, matcher.step_answered h]
  rfl

/-- What arrives back to back leaves the slot empty. -/
theorem Matcher.cellRun_of_backToBack {ms : List M} (h : matcher.BackToBack ms) :
    (matcher.cellRun none ms).1 = none := by
  induction h with
  | nil => rfl
  | pair answered _ ih => rw [matcher.cellRun_pair answered, ih]

/-- Every value uses up two messages, one of which may have been pending. -/
theorem Matcher.two_mul_values_le (slot : Option R) (ms : List M) :
    2 * (matcher.cellRun slot ms).2.length ≤ ms.length + slot.toList.length := by
  induction ms generalizing slot with
  | nil => simp
  | cons m ms ih =>
      rw [cellRun_cons, List.length_append, List.length_cons]
      cases slot with
      | none =>
          have hle := ih (some (matcher.record m))
          simp only [step_none, List.length_nil, Option.toList_some, Option.toList_none,
            List.length_singleton] at hle ⊢
          omega
      | some r =>
          by_cases hm : matcher.answers m r
          · have hle := ih none
            simp only [matcher.step_answered hm, List.length_nil, Option.toList_some,
              Option.toList_none, List.length_singleton] at hle ⊢
            omega
          · have hle := ih (some r)
            simp only [matcher.step_ignored hm, List.length_nil, Option.toList_some,
              List.length_singleton] at hle ⊢
            omega

/-- A slot that uses up all its messages got them back to back. -/
theorem Matcher.backToBack_of_count (ms : List M)
    (h : 2 * (matcher.cellRun none ms).2.length = ms.length) : matcher.BackToBack ms := by
  match ms with
  | [] => exact .nil
  | [a] => simp [cellRun_cons] at h
  | a :: b :: ms =>
      by_cases hb : matcher.answers b (matcher.record a)
      · refine .pair hb (backToBack_of_count ms ?_)
        rw [matcher.cellRun_pair hb, List.length_cons, List.length_cons, List.length_cons] at h
        omega
      · have hle := matcher.two_mul_values_le (some (matcher.record a)) ms
        have hignored : (matcher.cellRun none (a :: b :: ms)).2 =
            (matcher.cellRun (some (matcher.record a)) ms).2 := by
          rw [cellRun_cons, step_none, cellRun_cons, matcher.step_ignored hb]
          rfl
        rw [hignored, List.length_cons, List.length_cons] at h
        simp only [Option.toList_some, List.length_singleton] at hle
        omega

/-! ## The table -/

variable [DecidableEq K]

/-- The slots and the values after a sequence of messages, from empty slots. -/
def Matcher.run (ms : List M) : (K → Option R) × List (K × V) :=
  matcher.machine.run (fun _ => none) ms

/-- The values of a run, in order. -/
def Matcher.values (ms : List M) : List V := (matcher.run ms).2.map Prod.snd

/-- Values that use up all messages pair them back to back under every key. -/
theorem Matcher.backToBack_of_values {ms : List M} (h : 2 * (matcher.values ms).length = ms.length)
    (k : K) : matcher.BackToBack (matcher.machine.of k ms) := by
  classical
  let keys := (matcher.run ms).2.map Prod.fst
  have hvalues : keys.length = (matcher.values ms).length := by
    rw [List.length_map, values, List.length_map]
  have hcell : ∀ k', keys.count k' =
      (matcher.cellRun none (matcher.machine.of k' ms)).2.length := fun k' => by
    have houts := congrArg List.length (matcher.machine.run_outputs (fun _ => none) ms k')
    rw [List.length_map] at houts
    refine Eq.trans ?_ houts
    rw [List.count, List.countP_map, List.countP_eq_length_filter]
    congr 1
  have hkey : ∀ k', (ms.map matcher.key).count k' = (matcher.machine.of k' ms).length :=
    fun k' => by
      rw [List.count, List.countP_map, List.countP_eq_length_filter]
      congr 1
  -- each key of a value occurs twice among the keys of the messages
  have hle : ∀ k', (keys ++ keys).count k' ≤ (ms.map matcher.key).count k' := fun k' => by
    have htwo := matcher.two_mul_values_le none (matcher.machine.of k' ms)
    rw [Option.toList_none, List.length_nil] at htwo
    rw [List.count_append, hcell, hkey]
    omega
  have hperm : (keys ++ keys).Perm (ms.map matcher.key) := by
    refine (List.subperm_ext_iff.mpr fun k' _ => hle k').perm_of_length_le ?_
    rw [List.length_map, List.length_append, hvalues]
    omega
  refine matcher.backToBack_of_count _ ?_
  have hcount := hperm.count_eq k
  rw [List.count_append, hcell, hkey] at hcount
  omega

/-- The positions that occur in pairs. -/
def positions (pairs : List (Nat × Nat)) : List Nat := pairs.flatMap fun pair => [pair.1, pair.2]

@[simp] theorem positions_append (pairs pairs' : List (Nat × Nat)) :
    positions (pairs ++ pairs') = positions pairs ++ positions pairs' := List.flatMap_append ..

@[simp] theorem positions_singleton (i j : Nat) : positions [(i, j)] = [i, j] := rfl

/-- A pair of positions, the first pending when the second arrived, and its value. -/
def Matcher.PairAt (ms : List M) (pair : Nat × Nat) (value : V) : Prop :=
  ∃ a b, ms[pair.1]? = some a ∧ ms[pair.2]? = some b ∧ matcher.key a = matcher.key b ∧
    matcher.answers b (matcher.record a) ∧ value = matcher.value (matcher.record a) b

/-- Pairs of positions account for the values and for what is pending. -/
structure Matcher.Explains (ms : List M) (pairs : List (Nat × Nat)) (slots : K → Option R)
    (values : List V) : Prop where
  paired : List.Forall₂ (matcher.PairAt ms) pairs values
  once : (positions pairs).Nodup
  pending : ∀ k r, slots k = some r → ∃ i m, ms[i]? = some m ∧ matcher.key m = k ∧
    r = matcher.record m ∧ i ∉ positions pairs

variable {matcher}

/-- What stands in a sequence stands there in a longer one. -/
theorem getElem?_append_of_some {ms : List M} {i : Nat} {a : M} (h : ms[i]? = some a)
    (ms' : List M) : (ms ++ ms')[i]? = some a := by
  rw [List.getElem?_append_left (List.getElem?_eq_some_iff.mp h).1, h]

omit [DecidableEq K] in
/-- A pair stays where it is when messages follow. -/
theorem Matcher.PairAt.append {ms : List M} {pair : Nat × Nat} {value : V}
    (h : matcher.PairAt ms pair value) (ms' : List M) : matcher.PairAt (ms ++ ms') pair value := by
  obtain ⟨a, b, ha, hb, h⟩ := h
  exact ⟨a, b, getElem?_append_of_some ha _, getElem?_append_of_some hb _, h⟩

omit [DecidableEq K] in
/-- The pairs are pairs of messages of the sequence. -/
theorem Matcher.Explains.lt {ms : List M} {pairs : List (Nat × Nat)} {slots : K → Option R}
    {values : List V} (h : matcher.Explains ms pairs slots values) :
    ∀ i ∈ positions pairs, i < ms.length := by
  have hpaired := h.paired
  clear h
  induction hpaired with
  | nil => intro i hi; cases hi
  | @cons pair _ pairs _ hpair _ ih =>
      obtain ⟨a, b, ha, hb, -⟩ := hpair
      intro i hi
      rcases List.mem_append.mp (show i ∈ [pair.1, pair.2] ++ positions pairs from hi) with hi | hi
      · rcases List.mem_pair.mp hi with rfl | rfl
        · exact (List.getElem?_eq_some_iff.mp ha).1
        · exact (List.getElem?_eq_some_iff.mp hb).1
      · exact ih i hi

omit [DecidableEq K] in
/-- A message that is ignored is in no pair. -/
theorem Matcher.Explains.ignored {ms : List M} {pairs : List (Nat × Nat)} {slots : K → Option R}
    {values : List V} (h : matcher.Explains ms pairs slots values) (m : M) :
    matcher.Explains (ms ++ [m]) pairs slots values where
  paired := h.paired.imp fun _ _ hpair => hpair.append [m]
  once := h.once
  pending := fun k r hk => by
    obtain ⟨i, a, hi, rest⟩ := h.pending k r hk
    exact ⟨i, a, getElem?_append_of_some hi _, rest⟩

/-- A message that becomes pending is in no pair. -/
theorem Matcher.Explains.pended {ms : List M} {pairs : List (Nat × Nat)} {slots : K → Option R}
    {values : List V} (h : matcher.Explains ms pairs slots values) (m : M) :
    matcher.Explains (ms ++ [m]) pairs
      (Function.update slots (matcher.key m) (some (matcher.record m))) values where
  paired := (h.ignored m).paired
  once := h.once
  pending := fun k r hk => by
    by_cases hkey : k = matcher.key m
    · subst hkey
      rw [Function.update_self] at hk
      refine ⟨ms.length, m, by simp, rfl, (Option.some.inj hk).symm, fun hmem => ?_⟩
      exact Nat.lt_irrefl _ (h.lt _ hmem)
    · rw [Function.update_of_ne hkey] at hk
      exact (h.ignored m).pending k r hk

/-- A message that answers the pending one forms a pair with it. -/
theorem Matcher.Explains.answered {ms : List M} {pairs : List (Nat × Nat)} {slots : K → Option R}
    {values : List V} (h : matcher.Explains ms pairs slots values) {m : M} {r : R}
    (hslot : slots (matcher.key m) = some r) (hm : matcher.answers m r) :
    ∃ pair, matcher.Explains (ms ++ [m]) (pairs ++ [pair])
      (Function.update slots (matcher.key m) none) (values ++ [matcher.value r m]) := by
  obtain ⟨i, a, hi, hkey, rfl, hfree⟩ := h.pending _ r hslot
  have hlt : i < ms.length := (List.getElem?_eq_some_iff.mp hi).1
  refine ⟨(i, ms.length), ?_, ?_, ?_⟩
  · refine List.rel_append (h.ignored m).paired (.cons ?_ .nil)
    exact ⟨a, m, getElem?_append_of_some hi _, by simp, hkey, hm, rfl⟩
  · rw [positions_append, positions_singleton]
    refine List.nodup_append.mpr ⟨h.once, by simpa using Nat.ne_of_lt hlt, ?_⟩
    rintro j hj j' hj' rfl
    rcases List.mem_pair.mp hj' with rfl | rfl
    · exact hfree hj
    · exact Nat.lt_irrefl _ (h.lt _ hj)
  · intro k r' hk
    by_cases hmk : k = matcher.key m
    · rw [hmk, Function.update_self] at hk
      cases hk
    · rw [Function.update_of_ne hmk] at hk
      obtain ⟨j, b, hj, hbk, hb, hjfree⟩ := h.pending k r' hk
      refine ⟨j, b, getElem?_append_of_some hj _, hbk, hb, ?_⟩
      rw [positions_append, positions_singleton]
      intro hmem
      rcases List.mem_append.mp hmem with hmem | hmem
      · exact hjfree hmem
      rcases List.mem_pair.mp hmem with rfl | rfl
      · rw [hi] at hj
        obtain rfl := Option.some.inj hj
        exact hmk (hbk.symm.trans hkey)
      · exact Nat.lt_irrefl _ (List.getElem?_eq_some_iff.mp hj).1

/-- **One message.**  It becomes pending, or is paired with the message that is
pending under its key, or is ignored. -/
theorem Matcher.Explains.step {ms : List M} {pairs : List (Nat × Nat)} {slots : K → Option R}
    {values : List V} (h : matcher.Explains ms pairs slots values) (m : M) :
    ∃ new, matcher.Explains (ms ++ [m]) (pairs ++ new) (matcher.machine.next slots m)
      (values ++ (matcher.step (slots (matcher.key m)) m).2) := by
  have hnext : matcher.machine.next slots m =
      Function.update slots (matcher.key m) (matcher.step (slots (matcher.key m)) m).1 := rfl
  rw [hnext]
  cases hslot : slots (matcher.key m) with
  | none =>
      refine ⟨[], ?_⟩
      rw [step_none, List.append_nil, List.append_nil]
      exact h.pended m
  | some r =>
      by_cases hm : matcher.answers m r
      · obtain ⟨pair, hpair⟩ := h.answered hslot hm
        rw [matcher.step_answered hm]
        exact ⟨[pair], hpair⟩
      · refine ⟨[], ?_⟩
        rw [matcher.step_ignored hm, List.append_nil, List.append_nil, ← hslot,
          Function.update_eq_self]
        exact h.ignored m

/-- The values of a longer sequence begin with those of the shorter one. -/
theorem Matcher.values_append_singleton (ms : List M) (m : M) :
    matcher.values (ms ++ [m]) =
      matcher.values ms ++ (matcher.step ((matcher.run ms).1 (matcher.key m)) m).2 := by
  have hemitted : (matcher.machine.emitted (matcher.run ms).1 m).map Prod.snd =
      (matcher.step ((matcher.run ms).1 (matcher.key m)) m).2 := by
    rw [Machine.emitted, List.map_map]
    exact List.map_id _
  rw [← hemitted, values, values, ← List.map_append, run, Machine.run_append]
  simp only [Machine.run, List.append_nil]
  rfl

/-- One more message is one more step. -/
theorem Matcher.run_append_singleton (ms : List M) (m : M) :
    (matcher.run (ms ++ [m])).1 = matcher.machine.next (matcher.run ms).1 m := by
  rw [run, Machine.run_append]
  rfl

/-- A prefix of a run has no more values. -/
theorem Matcher.values_take_length_le (ms : List M) (n : Nat) :
    (matcher.values (ms.take n)).length ≤ (matcher.values ms).length := by
  have happend : matcher.values ms = matcher.values (ms.take n ++ ms.drop n) := by
    rw [List.take_append_drop]
  rw [happend, values, values, run, run, Machine.run_append, List.map_append, List.length_append]
  omega

/-- **Every run is explained.**  One list of pairs accounts for the values and the
pending messages after every step: those made so far are its beginning. -/
theorem Matcher.run_explained (ms : List M) :
    ∃ pairs : List (Nat × Nat), ∀ n, matcher.Explains (ms.take n)
      (pairs.take (matcher.values (ms.take n)).length) (matcher.run (ms.take n)).1
      (matcher.values (ms.take n)) := by
  induction ms using List.reverseRecOn with
  | nil =>
      refine ⟨[], fun n => ?_⟩
      rw [List.take_nil, List.take_nil]
      exact ⟨.nil, List.nodup_nil, fun k r hk => by cases hk⟩
  | append_singleton ms m ih =>
      obtain ⟨pairs, hpairs⟩ := ih
      have hfull := hpairs ms.length
      rw [List.take_length] at hfull
      obtain ⟨new, hnew⟩ := hfull.step m
      rw [← Matcher.values_append_singleton, ← Matcher.run_append_singleton] at hnew
      refine ⟨pairs.take (matcher.values ms).length ++ new, fun n => ?_⟩
      by_cases hn : n ≤ ms.length
      · rw [List.take_append_of_le_length hn, List.take_append_of_le_length, List.take_take,
          Nat.min_eq_left (Matcher.values_take_length_le ms n)]
        · exact hpairs n
        · rw [hfull.paired.length_eq]
          exact Matcher.values_take_length_le ms n
      · rw [List.take_of_length_le (by rw [List.length_append, List.length_singleton]; omega),
          ← hnew.paired.length_eq, List.take_length]
        exact hnew

end PendingSlot
