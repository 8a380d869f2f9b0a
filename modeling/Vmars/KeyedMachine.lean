import Mathlib.Algebra.BigOperators.Group.Finset.Piecewise
import Mathlib.Logic.Function.Basic
import Mathlib.Data.List.Basic

/-!
# Machines whose state is a table of independent cells

A small library for programs that keep one table and dispatch every message to
the cell of its key.  It names nothing of a particular program.

A step reads and writes the cell of the message's key only, so the whole run is
the product of one run for each key:

* `run_cell`, `run_outputs`: a cell, and the outputs under its key, are those of
  the run of that cell alone on the messages with its key;
* `run_congr`: two sequences with the same messages for each key, however the
  keys are interleaved, lead to the same table and to the same outputs up to
  their order;
* `run_lanes`: so do merged messages and the lanes that they come from, one lane
  after the other;
* `run_filter`: a machine that is given the messages with some of the keys only does
  with them what the whole machine does.
-/

namespace KeyedMachine

/-- What a message does to the cell of its key, and what it emits. -/
structure Machine (K M S O : Type) where
  key : M → K
  step : S → M → S × List O

variable {K M S O : Type} [DecidableEq K] (machine : Machine K M S O)

/-- The messages with a key. -/
def Machine.of (k : K) (ms : List M) : List M := ms.filter fun m => machine.key m = k

/-- The outputs under a key. -/
def outputsOf (k : K) (outs : List (K × O)) : List (K × O) := outs.filter fun out => out.1 = k

/-- A single cell on a sequence of messages. -/
def Machine.cellRun : S → List M → S × List O
  | s, [] => (s, [])
  | s, m :: ms =>
      ((cellRun (machine.step s m).1 ms).1,
        (machine.step s m).2 ++ (cellRun (machine.step s m).1 ms).2)

/-- The table after a message. -/
def Machine.next (table : K → S) (m : M) : K → S :=
  Function.update table (machine.key m) (machine.step (table (machine.key m)) m).1

/-- What a message emits, under its key. -/
def Machine.emitted (table : K → S) (m : M) : List (K × O) :=
  (machine.step (table (machine.key m)) m).2.map fun out => (machine.key m, out)

/-- The whole table on a sequence of messages. -/
def Machine.run : (K → S) → List M → (K → S) × List (K × O)
  | table, [] => (table, [])
  | table, m :: ms =>
      ((run (machine.next table m) ms).1,
        machine.emitted table m ++ (run (machine.next table m) ms).2)

/-! ## The interface -/

@[simp] theorem Machine.of_nil (k : K) : machine.of k [] = [] := rfl

theorem Machine.of_cons_self {k : K} {m : M} (ms : List M) (h : machine.key m = k) :
    machine.of k (m :: ms) = m :: machine.of k ms :=
  List.filter_cons_of_pos (by simpa using h)

theorem Machine.of_cons_ne {k : K} {m : M} (ms : List M) (h : machine.key m ≠ k) :
    machine.of k (m :: ms) = machine.of k ms :=
  List.filter_cons_of_neg (by simpa using h)

@[simp] theorem Machine.of_append (k : K) (ms ms' : List M) :
    machine.of k (ms ++ ms') = machine.of k ms ++ machine.of k ms' := List.filter_append ..

theorem Machine.mem_of {k : K} {m : M} {ms : List M} :
    m ∈ machine.of k ms ↔ m ∈ ms ∧ machine.key m = k := by
  simp [Machine.of]

omit [DecidableEq K] in
@[simp] theorem Machine.cellRun_nil (s : S) : machine.cellRun s [] = (s, []) := rfl

@[simp] theorem Machine.run_nil (table : K → S) : machine.run table [] = (table, []) := rfl

/-- A run goes on where the one before it ended. -/
theorem Machine.run_append (table : K → S) (ms ms' : List M) :
    machine.run table (ms ++ ms') =
      ((machine.run (machine.run table ms).1 ms').1,
        (machine.run table ms).2 ++ (machine.run (machine.run table ms).1 ms').2) := by
  induction ms generalizing table with
  | nil => rfl
  | cons m ms ih => simp only [List.cons_append, run, ih, List.append_assoc]

/-- A step works on the cell of its key. -/
theorem Machine.next_self (table : K → S) (m : M) :
    machine.next table m (machine.key m) = (machine.step (table (machine.key m)) m).1 :=
  Function.update_self ..

/-- **The frame**: it leaves all other cells. -/
theorem Machine.next_of_ne (table : K → S) {m : M} {k : K} (h : machine.key m ≠ k) :
    machine.next table m k = table k := Function.update_of_ne (Ne.symm h) ..

omit [DecidableEq K] in
/-- What a message emits, without the key. -/
theorem Machine.emitted_snd (table : K → S) (m : M) :
    (machine.emitted table m).map Prod.snd = (machine.step (table (machine.key m)) m).2 := by
  rw [emitted, List.map_map]
  exact List.map_id _

/-! ## A run is the product of its cells' runs -/

/-- A cell is only changed by the messages with its key. -/
theorem Machine.run_cell (table : K → S) (ms : List M) (k : K) :
    (machine.run table ms).1 k = (machine.cellRun (table k) (machine.of k ms)).1 := by
  induction ms generalizing table with
  | nil => rfl
  | cons m ms ih =>
      rw [run, ih]
      by_cases hk : machine.key m = k
      · rw [machine.of_cons_self ms hk, cellRun, ← hk, machine.next_self]
      · rw [machine.of_cons_ne ms hk, machine.next_of_ne table hk]

/-- What a step puts out is under its key. -/
theorem Machine.outputsOf_emitted (table : K → S) (m : M) (k : K) :
    outputsOf k (machine.emitted table m) =
      if machine.key m = k then machine.emitted table m else [] := by
  split
  · next h =>
    refine List.filter_eq_self.mpr fun out hout => ?_
    obtain ⟨o, -, rfl⟩ := List.mem_map.mp hout
    simpa using h
  · next h =>
    refine List.filter_eq_nil_iff.mpr fun out hout => ?_
    obtain ⟨o, -, rfl⟩ := List.mem_map.mp hout
    simpa using h

/-- The outputs under a key are those of its cell on the messages with the key. -/
theorem Machine.run_outputs (table : K → S) (ms : List M) (k : K) :
    outputsOf k (machine.run table ms).2 =
      (machine.cellRun (table k) (machine.of k ms)).2.map fun out => (k, out) := by
  induction ms generalizing table with
  | nil => rfl
  | cons m ms ih =>
      have hsplit : outputsOf k (machine.run table (m :: ms)).2 =
          outputsOf k (machine.emitted table m) ++
            outputsOf k (machine.run (machine.next table m) ms).2 := List.filter_append ..
      rw [hsplit, ih, machine.outputsOf_emitted]
      by_cases hk : machine.key m = k
      · subst hk
        rw [if_pos rfl, machine.of_cons_self ms rfl, cellRun, machine.next_self, List.map_append]
        rfl
      · rw [if_neg hk, machine.of_cons_ne ms hk, machine.next_of_ne table hk, List.nil_append]

/-- Messages with one key emit what their cell emits. -/
theorem Machine.run_single {table : K → S} {ms : List M} {k : K}
    (hms : ∀ m ∈ ms, machine.key m = k) :
    (machine.run table ms).2 = (machine.cellRun (table k) ms).2.map fun out => (k, out) := by
  induction ms generalizing table with
  | nil => rfl
  | cons m ms ih =>
      obtain rfl := hms m (List.mem_cons_self ..)
      rw [run, ih fun m' hm' => hms m' (List.mem_cons_of_mem _ hm'), cellRun, machine.next_self,
        List.map_append]
      rfl

/-- What every step preserves of its cell and guarantees of its outputs, a run
preserves of the table and guarantees of all outputs. -/
theorem Machine.run_invariant {P : S → Prop} {G : M → Prop} {Q : O → Prop}
    (hstep : ∀ s m, P s → G m → P (machine.step s m).1 ∧ ∀ out ∈ (machine.step s m).2, Q out)
    {table : K → S} {ms : List M} (htable : ∀ k, P (table k)) (hms : ∀ m ∈ ms, G m) :
    (∀ k, P ((machine.run table ms).1 k)) ∧ ∀ out ∈ (machine.run table ms).2, Q out.2 := by
  induction ms generalizing table with
  | nil => exact ⟨htable, fun out hout => by cases hout⟩
  | cons m ms ih =>
      have hm := hstep _ m (htable (machine.key m)) (hms m (List.mem_cons_self ..))
      have hnext : ∀ k, P (machine.next table m k) := fun k => by
        by_cases hk : machine.key m = k
        · rw [← hk, next_self]
          exact hm.1
        · rw [machine.next_of_ne table hk]
          exact htable k
      have hrest := ih hnext fun m' hm' => hms m' (List.mem_cons_of_mem _ hm')
      refine ⟨hrest.1, fun out hout => ?_⟩
      rcases List.mem_append.mp hout with hout | hout
      · obtain ⟨o, ho, rfl⟩ := List.mem_map.mp hout
        exact hm.2 o ho
      · exact hrest.2 out hout

/-! ## Outputs up to their order -/

/-- Outputs that agree for each key agree up to their order. -/
theorem perm_of_outputsOf {outs outs' : List (K × O)}
    (h : ∀ k, (outputsOf k outs).Perm (outputsOf k outs')) : outs.Perm outs' := by
  classical
  rw [List.perm_iff_count]
  intro out
  have hcount : ∀ l : List (K × O), (outputsOf out.1 l).count out = l.count out := fun l =>
    List.count_filter (by simp)
  rw [← hcount outs, ← hcount outs', (h out.1).count_eq]

/-- **Interleaving does not matter.**  Sequences with the same messages for each
key end in the same table and emit the same outputs up to their order. -/
theorem Machine.run_congr {table : K → S} {ms ms' : List M}
    (h : ∀ k, machine.of k ms = machine.of k ms') :
    (machine.run table ms).1 = (machine.run table ms').1 ∧
      (machine.run table ms).2.Perm (machine.run table ms').2 := by
  constructor
  · funext k
    rw [run_cell, run_cell, h k]
  · refine perm_of_outputsOf fun k => ?_
    rw [run_outputs, run_outputs, h k]

/-- Tables that differ in one cell emit the same outputs under the other keys. -/
theorem Machine.run_outputs_frame {table table' : K → S} {k : K}
    (h : ∀ k', k' ≠ k → table k' = table' k') (ms : List M) :
    ((machine.run table ms).2.filter fun out => out.1 ≠ k).Perm
      ((machine.run table' ms).2.filter fun out => out.1 ≠ k) := by
  refine perm_of_outputsOf fun k' => ?_
  have hcomm : ∀ outs : List (K × O), outputsOf k' (outs.filter fun out => out.1 ≠ k) =
      (outputsOf k' outs).filter fun out => out.1 ≠ k := fun outs => by
    simp only [outputsOf, List.filter_filter, Bool.and_comm]
  rw [hcomm, hcomm, run_outputs, run_outputs]
  have hnone : ∀ outs : List O,
      (outs.map fun out => (k, out)).filter (fun out => out.1 ≠ k) = [] := fun outs => by
    refine List.filter_eq_nil_iff.mpr fun out hout => ?_
    obtain ⟨o, -, rfl⟩ := List.mem_map.mp hout
    simp
  by_cases hk : k' = k
  · rw [hk, hnone, hnone]
  · rw [h k' hk]

/-- The number of outputs under a key and under the others. -/
theorem length_outputsOf_add (k : K) (outs : List (K × O)) :
    (outputsOf k outs).length + (outs.filter fun out => out.1 ≠ k).length = outs.length := by
  rw [List.length_eq_length_filter_add (fun out : K × O => decide (out.1 = k)) (l := outs)]
  simp only [ne_eq, decide_not]
  rfl

/-- Of two tables that differ in one cell, the one that emits more there emits more. -/
theorem Machine.run_length_lt {table table' : K → S} {k : K}
    (hframe : ∀ k', k' ≠ k → table k' = table' k') {ms : List M}
    (h : (machine.cellRun (table k) (machine.of k ms)).2.length <
      (machine.cellRun (table' k) (machine.of k ms)).2.length) :
    (machine.run table ms).2.length < (machine.run table' ms).2.length := by
  have hothers := (machine.run_outputs_frame hframe ms).length_eq
  have hsplit := length_outputsOf_add k (machine.run table ms).2
  have hsplit' := length_outputsOf_add k (machine.run table' ms).2
  rw [run_outputs, List.length_map] at hsplit hsplit'
  omega

/-- What a cell emits, the table emits. -/
theorem Machine.mem_run_of_mem_cellRun {table : K → S} {ms : List M} {k : K} {out : O}
    (h : out ∈ (machine.cellRun (table k) (machine.of k ms)).2) :
    (k, out) ∈ (machine.run table ms).2 := by
  have hmem : (k, out) ∈ outputsOf k (machine.run table ms).2 := by
    rw [run_outputs]
    exact List.mem_map_of_mem h
  exact (List.mem_filter.mp hmem).1

/-! ## Some of the keys -/

/-- **A machine for some of the keys.**  The messages with these keys find the same cells and
emit the same outputs, in the same order, whether or not there are others between them. -/
theorem Machine.run_filter {p : K → Bool} {table table' : K → S}
    (h : ∀ k, p k = true → table k = table' k) (ms : List M) :
    (∀ k, p k = true → (machine.run table ms).1 k =
        (machine.run table' (ms.filter fun m => p (machine.key m))).1 k) ∧
      ((machine.run table ms).2.filter fun out => p out.1) =
        (machine.run table' (ms.filter fun m => p (machine.key m))).2 := by
  induction ms generalizing table table' with
  | nil => exact ⟨h, rfl⟩
  | cons m ms ih =>
      by_cases hm : p (machine.key m) = true
      · have hcell := h _ hm
        have hemitted : machine.emitted table m = machine.emitted table' m := by
          rw [emitted, emitted, hcell]
        have hall : ∀ out ∈ machine.emitted table' m, p out.1 = true := by
          intro out hout
          obtain ⟨o, -, rfl⟩ := List.mem_map.mp hout
          exact hm
        have hnext : ∀ k, p k = true → machine.next table m k = machine.next table' m k := by
          intro k hk
          rw [next, next, hcell, Function.update_apply, Function.update_apply, h k hk]
        obtain ⟨htable, houts⟩ := ih hnext
        rw [List.filter_cons_of_pos (by exact hm), run, run]
        refine ⟨htable, ?_⟩
        rw [List.filter_append, houts, hemitted, List.filter_eq_self.mpr hall]
      · have hnone : ∀ out ∈ machine.emitted table m, ¬ p out.1 = true := by
          intro out hout
          obtain ⟨o, -, rfl⟩ := List.mem_map.mp hout
          exact hm
        have hnext : ∀ k, p k = true → machine.next table m k = table' k := by
          intro k hk
          have hne : machine.key m ≠ k := by
            rintro rfl
            exact hm hk
          rw [machine.next_of_ne table hne, h k hk]
        obtain ⟨htable, houts⟩ := ih hnext
        rw [List.filter_cons_of_neg (by exact hm), run]
        refine ⟨htable, ?_⟩
        rw [List.filter_append, houts, List.filter_eq_nil_iff.mpr hnone, List.nil_append]

/-! ## Messages from several lanes -/

/-- What came out of a lane, from the merged messages with their lanes. -/
def laneOf (lane : Nat) (log : List (Nat × M)) : List M :=
  (log.filter fun entry => entry.1 = lane).map Prod.snd

/-- What came out of a lane, from parts that come from one lane each. -/
theorem laneOf_flatMap {α : Type} (parts : List α) (lane : α → Nat) (f : α → List M) (i : Nat) :
    laneOf i (parts.flatMap fun part => (f part).map fun m => (lane part, m)) =
      (parts.filter fun part => lane part = i).flatMap f := by
  induction parts with
  | nil => rfl
  | cons part parts ih =>
      have hsplit : ∀ log log' : List (Nat × M),
          laneOf i (log ++ log') = laneOf i log ++ laneOf i log' := by
        intro log log'
        rw [laneOf, List.filter_append, List.map_append]
        rfl
      rw [List.flatMap_cons, hsplit, ih]
      by_cases hpart : lane part = i
      · have hall : laneOf i ((f part).map fun m => (lane part, m)) = f part := by
          rw [laneOf, List.filter_eq_self.mpr, List.map_map]
          · exact List.map_id _
          · intro entry hentry
            obtain ⟨m, -, rfl⟩ := List.mem_map.mp hentry
            exact decide_eq_true hpart
        rw [hall, List.filter_cons_of_pos (by simpa using hpart), List.flatMap_cons]
      · have hnone : laneOf i ((f part).map fun m => (lane part, m)) = [] := by
          rw [laneOf, List.filter_eq_nil_iff.mpr, List.map_nil]
          intro entry hentry
          obtain ⟨m, -, rfl⟩ := List.mem_map.mp hentry
          simpa using hpart
        rw [hnone, List.nil_append, List.filter_cons_of_neg (by simpa using hpart)]

/-- A sum over parts, lane by lane. -/
theorem sum_lanes {α ι A : Type} [AddCommMonoid A] [Fintype ι] [DecidableEq ι] (parts : List α)
    (lane : α → ι) (f : α → A) :
    (parts.map f).sum = ∑ i, ((parts.filter fun part => lane part = i).map f).sum := by
  induction parts with
  | nil => exact Finset.sum_const_zero.symm
  | cons part parts ih =>
      have hcons : ∀ i, (((part :: parts).filter fun part => lane part = i).map f).sum =
          (if lane part = i then f part else 0) +
            ((parts.filter fun part => lane part = i).map f).sum := by
        intro i
        by_cases hi : lane part = i
        · rw [List.filter_cons_of_pos (by simpa using hi), List.map_cons, List.sum_cons, if_pos hi]
        · rw [List.filter_cons_of_neg (by simpa using hi), if_neg hi, zero_add]
      rw [List.map_cons, List.sum_cons, ih, Finset.sum_congr rfl fun i _ => hcons i,
        Finset.sum_add_distrib, Finset.sum_ite_eq, if_pos (Finset.mem_univ _)]

/-- A concatenation with only one part that is not empty. -/
theorem flatMap_of_unique {α β : Type} {f : α → List β} {j : α} {is : List α} (h : is.Nodup)
    (hj : j ∈ is) (hothers : ∀ i, i ≠ j → f i = []) : is.flatMap f = f j := by
  induction is with
  | nil => cases hj
  | cons i is ih =>
      obtain ⟨hi, hrest⟩ := List.nodup_cons.mp h
      rw [List.flatMap_cons]
      rcases List.mem_cons.mp hj with rfl | hj
      · have hnone : is.flatMap f = [] := by
          apply List.flatMap_eq_nil_iff.mpr
          intro i' hi'
          apply hothers
          rintro rfl
          exact hi hi'
        rw [hnone, List.append_nil]
      · have hne : i ≠ j := by
          rintro rfl
          exact hi hj
        rw [hothers i hne, List.nil_append, ih hrest hj]

/-- The messages with a key that comes from one lane only are those of the lane. -/
theorem Machine.of_laneOf {log : List (Nat × M)} {lane : Nat} {k : K}
    (h : ∀ entry ∈ log, machine.key entry.2 = k → entry.1 = lane) :
    machine.of k (laneOf lane log) = machine.of k (log.map Prod.snd) := by
  induction log with
  | nil => rfl
  | cons entry log ih =>
      have hrest := ih fun entry' hmem => h entry' (List.mem_cons_of_mem _ hmem)
      rw [List.map_cons]
      by_cases hkey : machine.key entry.2 = k
      · have hlane := h entry (List.mem_cons_self ..) hkey
        have hcons : laneOf lane (entry :: log) = entry.2 :: laneOf lane log := by
          simp [laneOf, hlane]
        rw [hcons, machine.of_cons_self _ hkey, machine.of_cons_self _ hkey, hrest]
      · rw [machine.of_cons_ne _ hkey, ← hrest]
        by_cases hlane : entry.1 = lane
        · have hcons : laneOf lane (entry :: log) = entry.2 :: laneOf lane log := by
            simp [laneOf, hlane]
          rw [hcons, machine.of_cons_ne _ hkey]
        · have hcons : laneOf lane (entry :: log) = laneOf lane log := by
            simp [laneOf, hlane]
          rw [hcons]

/-- **Lanes do not matter.**  Where no key comes from two lanes, the merged messages lead to
the same table as the lanes one after the other, and to the same outputs up to their order. -/
theorem Machine.run_lanes {table : K → S} {log : List (Nat × M)} {lanes : Nat}
    (hlanes : ∀ entry ∈ log, entry.1 < lanes)
    (hapart : ∀ a ∈ log, ∀ b ∈ log, machine.key a.2 = machine.key b.2 → a.1 = b.1) :
    (machine.run table (log.map Prod.snd)).1 =
        (machine.run table ((List.range lanes).flatMap fun lane => laneOf lane log)).1 ∧
      (machine.run table (log.map Prod.snd)).2.Perm
        (machine.run table ((List.range lanes).flatMap fun lane => laneOf lane log)).2 := by
  apply machine.run_congr
  intro k
  have hsplit : machine.of k ((List.range lanes).flatMap fun lane => laneOf lane log) =
      (List.range lanes).flatMap fun lane => machine.of k (laneOf lane log) :=
    List.filter_flatMap ..
  rw [hsplit]
  by_cases hany : ∃ entry ∈ log, machine.key entry.2 = k
  · obtain ⟨entry, hmem, hkey⟩ := hany
    have honly : ∀ entry' ∈ log, machine.key entry'.2 = k → entry'.1 = entry.1 :=
      fun entry' hmem' hkey' => hapart entry' hmem' entry hmem (hkey'.trans hkey.symm)
    have hothers : ∀ lane, lane ≠ entry.1 → machine.of k (laneOf lane log) = [] := by
      intro lane hlane
      apply List.filter_eq_nil_iff.mpr
      intro m hm
      obtain ⟨entry', hentry', rfl⟩ := List.mem_map.mp hm
      obtain ⟨hmem', hlane'⟩ := List.mem_filter.mp hentry'
      have hno : machine.key entry'.2 ≠ k := by
        intro hkey'
        apply hlane
        rw [← of_decide_eq_true hlane']
        exact honly entry' hmem' hkey'
      simpa using hno
    rw [flatMap_of_unique List.nodup_range (List.mem_range.mpr (hlanes entry hmem)) hothers]
    exact (machine.of_laneOf honly).symm
  · have hnone : ∀ m ∈ log.map Prod.snd, machine.key m ≠ k := by
      intro m hm
      obtain ⟨entry, hmem, rfl⟩ := List.mem_map.mp hm
      exact fun hkey => hany ⟨entry, hmem, hkey⟩
    have hleft : machine.of k (log.map Prod.snd) = [] := by
      apply List.filter_eq_nil_iff.mpr
      intro m hm
      simpa using hnone m hm
    have hright : ∀ lane, machine.of k (laneOf lane log) = [] := by
      intro lane
      apply List.filter_eq_nil_iff.mpr
      intro m hm
      obtain ⟨entry, hentry, rfl⟩ := List.mem_map.mp hm
      simpa using hnone entry.2 (List.mem_map_of_mem (List.mem_of_mem_filter hentry))
    rw [hleft]
    exact (List.flatMap_eq_nil_iff.mpr fun lane _ => hright lane).symm

end KeyedMachine
