import Vmars.CaptureSteps
import Vmars.CounterHandler

/-!
# Reading counters that are being written

`vmars_poll_counters` reads the counters of the capture threads one by one, without a lock,
while the threads increment them.  A pass is therefore no snapshot: two counters are read at
different times.

* `gauges_between`: every published sum still lies between the sums at the begin and at the
  end of its pass, and **no gauge goes back** from one pass to a later one;
* `capture_increments`: what a capture does to its counters is a sequence of the increments
  that may come between two reads.
-/

namespace Vmars

open CMemory

/-! ## The code -/

/-- A counter of `vmars_monitoring_counters_t` that a capture thread increments. -/
inductive CounterField where
  | invalidChecksums | corruptMessages | validMessages | parsingErrors | bytesTotal
  | massQuoteCount | massQuoteAckCount | newOrderSingleCount | executionReportNewCount
  | traceRequestCount | traceRepsonseCount
  deriving DecidableEq, Repr

namespace CounterField

def get (counters : MonitoringCounters) : CounterField → Int
  | .invalidChecksums => counters.invalidChecksums
  | .corruptMessages => counters.corruptMessages
  | .validMessages => counters.validMessages
  | .parsingErrors => counters.parsingErrors
  | .bytesTotal => counters.bytesTotal
  | .massQuoteCount => counters.massQuoteCount
  | .massQuoteAckCount => counters.massQuoteAckCount
  | .newOrderSingleCount => counters.newOrderSingleCount
  | .executionReportNewCount => counters.executionReportNewCount
  | .traceRequestCount => counters.traceRequestCount
  | .traceRepsonseCount => counters.traceRepsonseCount

/-- The counters with `x` added to one of them. -/
def add (x : Int) (counters : MonitoringCounters) : CounterField → MonitoringCounters
  | .invalidChecksums => { counters with invalidChecksums := counters.invalidChecksums + x }
  | .corruptMessages => { counters with corruptMessages := counters.corruptMessages + x }
  | .validMessages => { counters with validMessages := counters.validMessages + x }
  | .parsingErrors => { counters with parsingErrors := counters.parsingErrors + x }
  | .bytesTotal => { counters with bytesTotal := counters.bytesTotal + x }
  | .massQuoteCount => { counters with massQuoteCount := counters.massQuoteCount + x }
  | .massQuoteAckCount => { counters with massQuoteAckCount := counters.massQuoteAckCount + x }
  | .newOrderSingleCount =>
      { counters with newOrderSingleCount := counters.newOrderSingleCount + x }
  | .executionReportNewCount =>
      { counters with executionReportNewCount := counters.executionReportNewCount + x }
  | .traceRequestCount => { counters with traceRequestCount := counters.traceRequestCount + x }
  | .traceRepsonseCount => { counters with traceRepsonseCount := counters.traceRepsonseCount + x }

end CounterField

/-- The counters that the loop over the contexts reads, in its order. -/
def gathered : List CounterField :=
  [.validMessages, .invalidChecksums, .corruptMessages, .massQuoteCount, .massQuoteAckCount,
    .newOrderSingleCount, .executionReportNewCount, .traceRequestCount, .traceRepsonseCount,
    .bytesTotal]

/-- The reads of a pass over `n` contexts. -/
def schedule (n : Nat) : List (Nat × CounterField) :=
  (List.range n).flatMap fun i => gathered.map fun field => (i, field)

/-- `ctx->counters_vec.counters[i]->field`. -/
def cell (contexts : List MonitoringCounters) (field : CounterField) (i : Nat) : Int :=
  ((contexts[i]?).map fun counters => field.get counters).getD 0

/-- A pass that was published: the counters when it began, its sums, and the counters when
it was over. -/
structure Pass where
  atBegin : List MonitoringCounters
  aggregate : MonitoringCounters
  atEnd : List MonitoringCounters

/-- The counters of all contexts and the thread that reads them. -/
structure Polling where
  contexts : List MonitoringCounters
  /-- The reads that are left in the pass; `none` while the thread sleeps. -/
  todo : Option (List (Nat × CounterField))
  aggregate : MonitoringCounters
  atBegin : List MonitoringCounters
  passes : List Pass

inductive PollingEvent where
  /-- `atomic_release_increment` in the capture thread of a context. -/
  | count (i : Nat) (field : CounterField)
  /-- The next step of `vmars_poll_counters`. -/
  | poll

namespace Polling

def initial (contexts : List MonitoringCounters) : Polling where
  contexts := contexts
  todo := none
  aggregate := {}
  atBegin := contexts
  passes := []

def step (p : Polling) : PollingEvent → Polling
  | .count i field =>
      { p with contexts := p.contexts.modify i fun counters => field.add 1 counters }
  | .poll =>
      match p.todo with
      | none =>
          { p with
            todo := some (schedule p.contexts.length), aggregate := {}, atBegin := p.contexts }
      | some ((i, field) :: todo) =>
          { p with
            todo := some todo, aggregate := field.add (cell p.contexts field i) p.aggregate }
      | some [] =>
          { p with
            todo := none
            passes := p.passes ++
              [{ atBegin := p.atBegin, aggregate := p.aggregate, atEnd := p.contexts }] }

/-- Any interleaving of the threads. -/
def run (p : Polling) (events : List PollingEvent) : Polling := events.foldl step p

end Polling

/-- The sum of a counter over all contexts. -/
def total (contexts : List MonitoringCounters) (field : CounterField) : Int :=
  (contexts.map fun counters => field.get counters).sum

/-- The reads of a context, all at once, are what the loop adds. -/
theorem addCounters_eq_gathered (aggregate counters : MonitoringCounters) :
    addCounters aggregate counters =
      gathered.foldl (fun aggregate field => field.add (field.get counters) aggregate)
        aggregate := rfl

/-! ## Reads of growing cells -/

section Cells

variable {ι : Type}

/-- What was added up lies between the cells at the start and the cells now. -/
structure Between (atStart now : ι → Int) (done : List ι) (sum : Int) : Prop where
  low : (done.map atStart).sum ≤ sum
  high : sum ≤ (done.map now).sum

/-- Larger cells have larger sums. -/
theorem sum_map_le {cells cells' : ι → Int} (h : ∀ i, cells i ≤ cells' i) (is : List ι) :
    (is.map cells).sum ≤ (is.map cells').sum := by
  induction is with
  | nil => exact Int.le_refl 0
  | cons i is ih =>
      have hi := h i
      simp only [List.map_cons, List.sum_cons]
      omega

namespace Between

variable {atStart now now' : ι → Int} {done : List ι} {sum : Int}

theorem start (atStart now : ι → Int) : Between atStart now [] 0 :=
  ⟨Int.le_refl 0, Int.le_refl 0⟩

/-- The cells may grow between two reads. -/
theorem grow (h : Between atStart now done sum) (hgrow : ∀ i, now i ≤ now' i) :
    Between atStart now' done sum :=
  ⟨h.low, Int.le_trans h.high (sum_map_le hgrow done)⟩

/-- A read adds what the cell has now. -/
theorem read (h : Between atStart now done sum) (hgrown : ∀ i, atStart i ≤ now i) (i : ι) :
    Between atStart now (done ++ [i]) (sum + now i) := by
  have hlow := h.low
  have hhigh := h.high
  have hi := hgrown i
  constructor
  · simp only [List.map_append, List.sum_append, List.map_cons, List.map_nil, List.sum_cons,
      List.sum_nil]
    omega
  · simp only [List.map_append, List.sum_append, List.map_cons, List.map_nil, List.sum_cons,
      List.sum_nil]
    omega

end Between

end Cells

/-! ## The counters -/

/-- An increment changes its own field only. -/
theorem CounterField.get_add (field other : CounterField) (x : Int)
    (counters : MonitoringCounters) :
    other.get (field.add x counters) =
      other.get counters + if field = other then x else 0 := by
  cases field <;> cases other <;> simp [CounterField.get, CounterField.add]

/-- A counter only grows. -/
theorem cell_modify_le (contexts : List MonitoringCounters) (field other : CounterField)
    (i j : Nat) :
    cell contexts other j ≤
      cell (contexts.modify i fun counters => field.add 1 counters) other j := by
  unfold cell
  rw [List.getElem?_modify]
  cases contexts[j]? with
  | none => simp
  | some counters =>
      by_cases hij : i = j
      · simp only [hij, if_true, Option.map_eq_map, Option.map_some, Option.getD_some,
          CounterField.get_add]
        split
        · omega
        · omega
      · simp [hij]

/-- The sum over all contexts, cell by cell. -/
theorem total_eq (contexts : List MonitoringCounters) (field : CounterField) :
    total contexts field = ((List.range contexts.length).map (cell contexts field)).sum := by
  have hcells : contexts.map (fun counters => field.get counters) =
      (List.range contexts.length).map (cell contexts field) := by
    apply List.ext_getElem
    · simp
    · intro i hi hi'
      rw [List.length_map] at hi
      simp [cell, List.getElem?_eq_getElem hi]
  rw [total, hcells]

/-- The contexts of which a counter was read. -/
def readsOf (field : CounterField) (reads : List (Nat × CounterField)) : List Nat :=
  (reads.filter fun read => read.2 = field).map Prod.fst

theorem readsOf_append (field : CounterField) (xs ys : List (Nat × CounterField)) :
    readsOf field (xs ++ ys) = readsOf field xs ++ readsOf field ys := by
  simp [readsOf]

theorem readsOf_singleton (field other : CounterField) (i : Nat) :
    readsOf other [(i, field)] = if field = other then [i] else [] := by
  by_cases h : field = other
  · simp [readsOf, h]
  · simp [readsOf, h]

/-- A pass reads a counter of each context once. -/
theorem readsOf_schedule {field : CounterField} (h : field ∈ gathered) (n : Nat) :
    readsOf field (schedule n) = List.range n := by
  have hcontext : ∀ i, readsOf field (gathered.map fun field => (i, field)) = [i] := by
    intro i
    cases field with
    | parsingErrors => exact absurd h (by decide)
    | _ => rfl
  unfold schedule
  induction List.range n with
  | nil => rfl
  | cons i is ih => rw [List.flatMap_cons, readsOf_append, hcontext, ih, List.singleton_append]

/-! ## The invariant -/

/-- The sums lie between those at the begin and at the end of the pass. -/
def Pass.Exact (pass : Pass) : Prop :=
  ∀ field ∈ gathered, total pass.atBegin field ≤ field.get pass.aggregate ∧
    field.get pass.aggregate ≤ total pass.atEnd field

/-- The reader stands in the middle of a pass whose sums are those of the reads that are
done, and all earlier passes ended before. -/
structure Polling.Inv (p : Polling) : Prop where
  length_eq : p.atBegin.length = p.contexts.length
  grown : ∀ field i, cell p.atBegin field i ≤ cell p.contexts field i
  reading : ∀ todo, p.todo = some todo → ∃ done, schedule p.contexts.length = done ++ todo ∧
    ∀ field, Between (cell p.atBegin field) (cell p.contexts field) (readsOf field done)
      (field.get p.aggregate)
  exact : ∀ pass ∈ p.passes, pass.Exact
  ended : ∀ pass ∈ p.passes, pass.atEnd.length = p.contexts.length ∧
    (∀ field i, cell pass.atEnd field i ≤ cell p.contexts field i) ∧
    (p.todo.isSome → ∀ field i, cell pass.atEnd field i ≤ cell p.atBegin field i)
  ordered : p.passes.Pairwise fun earlier later =>
    ∀ field ∈ gathered, field.get earlier.aggregate ≤ field.get later.aggregate

/-- Where the cells are less the sum is. -/
theorem total_le {contexts contexts' : List MonitoringCounters} {field : CounterField}
    (hlength : contexts.length = contexts'.length)
    (h : ∀ i, cell contexts field i ≤ cell contexts' field i) :
    total contexts field ≤ total contexts' field := by
  rw [total_eq, total_eq, hlength]
  exact sum_map_le h _

namespace Polling.Inv

variable {p : Polling}

/-- Before the first pass nothing was read. -/
theorem initial (contexts : List MonitoringCounters) : (Polling.initial contexts).Inv where
  length_eq := rfl
  grown := fun _ _ => Int.le_refl _
  reading := by
    intro todo htodo
    cases htodo
  exact := by
    intro pass hpass
    cases hpass
  ended := by
    intro pass hpass
    cases hpass
  ordered := .nil

/-- A capture thread counts. -/
theorem count (h : p.Inv) (i : Nat) (field : CounterField) :
    (p.step (.count i field)).Inv := by
  have hgrow := fun other => cell_modify_le p.contexts field other i
  have hlength : (p.contexts.modify i fun counters => field.add 1 counters).length =
      p.contexts.length := List.length_modify ..
  refine ⟨h.length_eq.trans hlength.symm, ?_, ?_, h.exact, ?_, h.ordered⟩
  · exact fun other j => Int.le_trans (h.grown other j) (hgrow other j)
  · intro todo htodo
    obtain ⟨done, hschedule, hbetween⟩ := h.reading todo htodo
    refine ⟨done, ?_, fun other => (hbetween other).grow (hgrow other)⟩
    show schedule (p.contexts.modify i fun counters => field.add 1 counters).length = _
    rw [hlength, hschedule]
  · intro pass hpass
    obtain ⟨hend, hnow, hbegin⟩ := h.ended pass hpass
    exact ⟨hend.trans hlength.symm, fun other j => Int.le_trans (hnow other j) (hgrow other j),
      hbegin⟩

/-- A pass begins. -/
theorem start (h : p.Inv) (htodo : p.todo = none) : (p.step .poll).Inv := by
  simp only [step, htodo]
  refine ⟨rfl, fun _ _ => Int.le_refl _, ?_, h.exact, ?_, h.ordered⟩
  · intro todo hsome
    obtain rfl := Option.some.inj hsome
    refine ⟨[], rfl, fun field => ?_⟩
    have hzero : field.get {} = 0 := by
      cases field <;> rfl
    show Between _ _ [] (field.get {})
    rw [hzero]
    exact .start _ _
  · intro pass hpass
    obtain ⟨hend, hnow, -⟩ := h.ended pass hpass
    exact ⟨hend, hnow, fun _ => hnow⟩

/-- A counter is read. -/
theorem read (h : p.Inv) {i : Nat} {field : CounterField} {todo : List (Nat × CounterField)}
    (htodo : p.todo = some ((i, field) :: todo)) : (p.step .poll).Inv := by
  obtain ⟨done, hschedule, hbetween⟩ := h.reading _ htodo
  simp only [step, htodo]
  refine ⟨h.length_eq, h.grown, ?_, h.exact, ?_, h.ordered⟩
  · intro rest hsome
    obtain rfl := Option.some.inj hsome
    refine ⟨done ++ [(i, field)], ?_, fun other => ?_⟩
    · rw [List.append_assoc, List.singleton_append]
      exact hschedule
    · show Between _ _ _ (other.get (field.add (cell p.contexts field i) p.aggregate))
      rw [readsOf_append, readsOf_singleton, CounterField.get_add]
      by_cases hfield : field = other
      · subst hfield
        rw [if_pos rfl, if_pos rfl]
        exact (hbetween field).read (h.grown field) i
      · rw [if_neg hfield, if_neg hfield, List.append_nil, Int.add_zero]
        exact hbetween other
  · intro pass hpass
    obtain ⟨hend, hnow, hbegin⟩ := h.ended pass hpass
    exact ⟨hend, hnow, fun _ => hbegin (by rw [htodo]; rfl)⟩

/-- The sums at the end of the reads. -/
theorem exact_of_done (h : p.Inv) (htodo : p.todo = some []) :
    Pass.Exact { atBegin := p.atBegin, aggregate := p.aggregate, atEnd := p.contexts } := by
  obtain ⟨done, hschedule, hbetween⟩ := h.reading _ htodo
  rw [List.append_nil] at hschedule
  intro field hfield
  have hfinal := hbetween field
  rw [← hschedule, readsOf_schedule hfield] at hfinal
  rw [total_eq, total_eq, h.length_eq]
  exact ⟨hfinal.low, hfinal.high⟩

/-- The sums are published. -/
theorem publish (h : p.Inv) (htodo : p.todo = some []) : (p.step .poll).Inv := by
  have hexact := h.exact_of_done htodo
  simp only [step, htodo]
  refine ⟨h.length_eq, h.grown, ?_, ?_, ?_, ?_⟩
  · intro todo hsome
    cases hsome
  · intro pass hpass
    rcases List.mem_append.mp hpass with hpass | hpass
    · exact h.exact pass hpass
    · obtain rfl := List.mem_singleton.mp hpass
      exact hexact
  · intro pass hpass
    rcases List.mem_append.mp hpass with hpass | hpass
    · obtain ⟨hend, hnow, -⟩ := h.ended pass hpass
      exact ⟨hend, hnow, fun hno => by cases hno⟩
    · obtain rfl := List.mem_singleton.mp hpass
      exact ⟨rfl, fun _ _ => Int.le_refl _, fun hno => by cases hno⟩
  · apply List.pairwise_append.mpr
    refine ⟨h.ordered, List.pairwise_singleton _ _, ?_⟩
    intro earlier hearlier later hlater field hfield
    obtain rfl := List.mem_singleton.mp hlater
    obtain ⟨hend, -, hbegin⟩ := h.ended earlier hearlier
    have hbetween : total earlier.atEnd field ≤ total p.atBegin field := by
      apply total_le
      · rw [hend, h.length_eq]
      · exact hbegin (by rw [htodo]; rfl) field
    calc field.get earlier.aggregate
        ≤ total earlier.atEnd field := (h.exact earlier hearlier field hfield).2
      _ ≤ total p.atBegin field := hbetween
      _ ≤ field.get p.aggregate := (hexact field hfield).1

/-- Every event keeps the invariant. -/
theorem step (h : p.Inv) (event : PollingEvent) : (p.step event).Inv := by
  cases event with
  | count i field => exact h.count i field
  | poll =>
      match htodo : p.todo with
      | none => exact h.start htodo
      | some [] => exact h.publish htodo
      | some ((i, field) :: todo) => exact h.read htodo

/-- Every run keeps the invariant. -/
theorem run (h : p.Inv) (events : List PollingEvent) : (p.run events).Inv := by
  induction events generalizing p with
  | nil => exact h
  | cons event events ih => exact ih (h.step event)

end Polling.Inv

/-- **Gauges are no snapshot but never go back.**  Whatever the capture threads count between
two reads, each published sum lies between the sums at the begin and at the end of its pass,
and no sum is less than in an earlier pass. -/
theorem gauges_between (contexts : List MonitoringCounters) (events : List PollingEvent) :
    (∀ pass ∈ ((Polling.initial contexts).run events).passes, pass.Exact) ∧
      ((Polling.initial contexts).run events).passes.Pairwise fun earlier later =>
        ∀ field ∈ gathered, field.get earlier.aggregate ≤ field.get later.aggregate := by
  have hinv := (Polling.Inv.initial contexts).run events
  exact ⟨hinv.exact, hinv.ordered⟩

/-! ## A capture increments -/

/-- Some counters are incremented, one after the other. -/
def increments (counters : MonitoringCounters) (fields : List CounterField) :
    MonitoringCounters :=
  fields.foldl (fun counters field => field.add 1 counters) counters

/-- The counters of `fix.c` have grown by increments, whatever the others are. -/
def Grown (before after : Counters) : Prop :=
  ∃ fields, ∀ fd bytesTotal, increments { before with fd, bytesTotal } fields =
    { after with fd, bytesTotal }

namespace Grown

variable {before middle after : Counters}

theorem refl (counters : Counters) : Grown counters counters := ⟨[], fun _ _ => rfl⟩

/-- Increments after increments. -/
theorem trans (h : Grown before middle) (h' : Grown middle after) : Grown before after := by
  obtain ⟨fields, hfields⟩ := h
  obtain ⟨fields', hfields'⟩ := h'
  refine ⟨fields ++ fields', fun fd bytesTotal => ?_⟩
  unfold increments at *
  rw [List.foldl_append, hfields, hfields']

/-- The result of the parser is counted by increments. -/
theorem of_result (counters : Counters) (outcome : FixResult) :
    Grown counters (countResult counters outcome) := by
  cases outcome with
  | ok => exact ⟨[.validMessages], fun _ _ => rfl⟩
  | messageTooShort => exact .refl _
  | checksumInvalid => exact ⟨[.invalidChecksums], fun _ _ => rfl⟩
  | _ => exact ⟨[.parsingErrors], fun _ _ => rfl⟩

/-- So is the type of a message. -/
theorem messageType (counters : Counters) (messageType : Int) :
    Grown counters (recordMessageTypeCounter counters messageType) := by
  unfold recordMessageTypeCounter
  split
  · exact ⟨[.newOrderSingleCount], fun _ _ => rfl⟩
  · split
    · exact ⟨[.massQuoteCount], fun _ _ => rfl⟩
    · split
      · exact ⟨[.traceRequestCount], fun _ _ => rfl⟩
      · split
        · exact ⟨[.executionReportNewCount], fun _ _ => rfl⟩
        · split
          · exact ⟨[.massQuoteAckCount], fun _ _ => rfl⟩
          · split
            · exact ⟨[.traceRepsonseCount], fun _ _ => rfl⟩
            · exact .refl _

end Grown

section Capture

variable {R : Type} [RingBuffer R] {n : Nat}

/-- A step of a capture increments. -/
theorem CaptureStep.grown {ctx ctx' : CaptureContext R} (h : CaptureStep n ctx ctx') :
    Grown ctx.counters ctx'.counters := by
  cases h with
  | put h =>
      obtain ⟨-, -, -, -, -, hcounters, -⟩ := putFragment_ok h
      rw [hcounters]
      exact .refl _
  | store h =>
      obtain ⟨-, -, -, hcounters, -⟩ := storeFragment_ok h
      rw [hcounters]
      exact .refl _
  | remove streamId =>
      rw [(removeFragment_frame _ _).2.1]
      exact .refl _
  | corrupt => exact ⟨[.corruptMessages], fun _ _ => rfl⟩
  | parse hsize h =>
      obtain ⟨run, -, h⟩ := bind_eq_ok.mp h
      obtain ⟨details, -, h⟩ := bind_eq_ok.mp h
      obtain ⟨rfl, -⟩ := Prod.mk.inj (Except.ok.inj h)
      exact .of_result _ _
  | process hsize hrun hdetails h =>
      obtain ⟨summary, -, h⟩ := bind_eq_ok.mp h
      cases summary with
      | none =>
          obtain rfl := Except.ok.inj h
          exact .refl _
      | some summary =>
          obtain rfl := Except.ok.inj h
          exact .messageType _ _

/-- A capture changes its counters by increments only. -/
theorem CaptureSteps.grown {ctx ctx' : CaptureContext R} (h : CaptureSteps n ctx ctx') :
    Grown ctx.counters ctx'.counters := by
  induction h with
  | refl => exact .refl _
  | tail _ hstep ih => exact ih.trans hstep.grown

omit [RingBuffer R] in
/-- Each block counts one. -/
theorem walkBlocks_bytesTotal {display : List UInt8 → Nat → CaptureContext R →
    Checked (CaptureContext R)} {blocks : List (List UInt8)}
    {th th' : Monitored (CaptureContext R)} (h : walkBlocks display th blocks = .ok th') :
    th'.bytesTotal = th.bytesTotal + blocks.length := by
  unfold walkBlocks at h
  induction blocks generalizing th with
  | nil =>
      obtain rfl := Except.ok.inj h
      exact (Int.add_zero _).symm
  | cons pbd blocks ih =>
      rw [List.foldlM_cons] at h
      obtain ⟨th₁, hblock, hrest⟩ := bind_eq_ok.mp h
      obtain ⟨numPkts, -, hblock⟩ := bind_eq_ok.mp hblock
      obtain ⟨offsetToFirstPkt, -, hblock⟩ := bind_eq_ok.mp hblock
      obtain ⟨walked, -, hblock⟩ := bind_eq_ok.mp hblock
      obtain rfl := Except.ok.inj hblock
      rw [ih hrest, List.length_cons]
      show th.bytesTotal + 1 + _ = _
      omega

end Capture

/-- The increments of a thread, as events of the polling. -/
theorem run_count (p : Polling) (i : Nat) (fields : List CounterField) :
    p.run (fields.map (.count i)) =
      { p with contexts := p.contexts.modify i fun counters => increments counters fields } := by
  induction fields generalizing p with
  | nil =>
      have hsame : p.contexts.modify i (fun counters => increments counters []) = p.contexts :=
        List.modify_id ..
      rw [hsame]
      rfl
  | cons field fields ih =>
      have hcons : p.run ((field :: fields).map (.count i)) =
          (p.step (.count i field)).run (fields.map (.count i)) := rfl
      rw [hcons, ih, Polling.step]
      simp only [List.modify_modify_eq]
      rfl

/-- `bytes_total` is counted once for each block. -/
theorem increments_bytesTotal (counters : Counters) (fd bytesTotal : Int) (n : Nat) :
    increments { counters with fd, bytesTotal } (List.replicate n .bytesTotal) =
      { counters with fd, bytesTotal := bytesTotal + n } := by
  induction n generalizing bytesTotal with
  | zero =>
      show { counters with fd, bytesTotal : MonitoringCounters } = _
      simp
  | succ n ih =>
      have hcons : increments { counters with fd, bytesTotal }
          (List.replicate (n + 1) .bytesTotal) =
          increments { counters with fd, bytesTotal := bytesTotal + 1 }
            (List.replicate n .bytesTotal) := rfl
      rw [hcons, ih, Int.add_right_comm, Int.add_assoc]
      rfl

/-- **A capture increments**: what blocks of the kernel do to the counters of a context is a
run of increments. -/
theorem capture_increments {R : Type} [RingBuffer R] {port : Int}
    {th th' : Monitored (CaptureContext R)} {blocks : List (List UInt8)}
    (h : walkBlocks (display port) th blocks = .ok th') {p : Polling} {i : Nat} {fd : Int}
    (hi : p.contexts[i]? = some { th.ctx.counters with fd, bytesTotal := th.bytesTotal }) :
    ∃ fields : List CounterField, p.run (fields.map (.count i)) =
      { p with contexts := p.contexts.set i
                { th'.ctx.counters with fd, bytesTotal := th'.bytesTotal } } := by
  obtain ⟨fields, hfields⟩ := (walkBlocks_steps h).grown
  refine ⟨fields ++ List.replicate blocks.length .bytesTotal, ?_⟩
  have hall : increments { th.ctx.counters with fd, bytesTotal := th.bytesTotal }
      (fields ++ List.replicate blocks.length .bytesTotal) =
        { th'.ctx.counters with fd, bytesTotal := th'.bytesTotal } := by
    rw [walkBlocks_bytesTotal h, ← increments_bytesTotal, ← hfields]
    exact List.foldl_append ..
  rw [run_count, List.modify_eq_set_getElem?, hi]
  simp only [Option.map_eq_map, Option.map_some, Option.getD_some, hall]

end Vmars
