import Vmars.CaptureLog
import Vmars.LatencyMeasurement
import Vmars.SpscRbSession

/-!
# From the capture threads to the histogram

The whole path of a summary: a capture thread publishes it in its ring, and the one latency
handler takes it out and hands it to `calculate_latency`.  A run mixes the publications of all
threads with the polls of the handler in any order; a pass of `poll_ring_buffers` is one such
order, with a poll of a record that it leaves where the limit stops it.

* `Pipeline.Inv.run`: in every state of every run each ring holds exactly the published
  summaries that are not handled, and the table and the histogram are those of the handled
  ones in order;
* `pipeline_schedule`: where no key occurs in two rings, **the schedule does not matter**: the
  result is that of handling the rings one after the other.
-/

namespace Vmars

open CMemory ByteRing KeyedMachine

/-! ## The code -/

/-- A capture thread with its ring. -/
structure Lane where
  rb : SpscRb
  /-- The summaries that the thread has not tried to publish yet. -/
  todo : List FixMessageSummary
  /-- The summaries that got into the ring, oldest first. -/
  accepted : List FixMessageSummary
  /-- The summaries for which the ring had no room. -/
  dropped : List FixMessageSummary
  /-- The summaries that were handed to `calculate_latency`. -/
  handled : List FixMessageSummary

namespace Lane

/-- A thread with all its summaries before it. -/
def initial (capacity : Nat) (log : List FixMessageSummary) : Lane where
  rb := (Session.initial capacity).rb
  todo := log
  accepted := []
  dropped := []
  handled := []

/-- The summaries in the ring. -/
def queue (lane : Lane) : List FixMessageSummary := lane.accepted.drop lane.handled.length

/-- The claim for a summary finds room. -/
def hasRoom (lane : Lane) (summary : FixMessageSummary) : Bool :=
  (vmarsSpscRbClaim lane.rb (sizeofFixMessageSummary + (summary.key.length + 1))).2.isSome

/-- `process_for_latency_measurement` with the next summary. -/
def push (lane : Lane) : Option Lane :=
  match lane.todo with
  | [] => none
  | summary :: todo =>
      some { lane with
        rb := lane.rb.push summary
        todo
        accepted := if lane.hasRoom summary then lane.accepted ++ [summary] else lane.accepted
        dropped := if lane.hasRoom summary then lane.dropped else lane.dropped ++ [summary] }

/-- A round of the loop of `poll_ring_buffers` on the ring: the lane and the summary that was
handed to `calculate_latency`. -/
def poll (lane : Lane) : Lane × Option FixMessageSummary :=
  match vmarsSpscRbPoll lane.rb with
  | (rb, none) => ({ lane with rb }, none)
  | (rb, some record) =>
      let msg := loadSummary rb (record + sizeofRbRecord)
      ({ lane with
          rb := (vmarsSpscRbRelease rb record).1
          handled := lane.handled ++ [msg] }, some msg)

/-- The poll after which the limit stops the loop. -/
def peek (lane : Lane) : Lane := { lane with rb := (vmarsSpscRbPoll lane.rb).1 }

end Lane

inductive PipelineEvent where
  | push (ring : Nat)
  | poll (ring : Nat)
  | peek (ring : Nat)

/-- The threads with their rings, and the latency handler. -/
structure Pipeline where
  lanes : List Lane
  latency : LatencyState
  /-- What was handed to `calculate_latency`, with its ring. -/
  log : List (Nat × FixMessageSummary)

namespace Pipeline

/-- Threads with rings of these capacities and with these summaries to publish. -/
def initial (threads : List (Nat × List FixMessageSummary)) : Pipeline where
  lanes := threads.map fun thread => Lane.initial thread.1 thread.2
  latency := .init
  log := []

/-- The state after an event, `none` when there is no such ring or nothing to publish. -/
def step (p : Pipeline) : PipelineEvent → Option Pipeline
  | .push ring =>
      p.lanes[ring]?.bind fun lane =>
        lane.push.map fun lane => { p with lanes := p.lanes.set ring lane }
  | .poll ring =>
      p.lanes[ring]?.map fun lane =>
        match lane.poll with
        | (lane, none) => { p with lanes := p.lanes.set ring lane }
        | (lane, some msg) =>
            { lanes := p.lanes.set ring lane
              latency := calculateLatency p.latency msg
              log := p.log ++ [(ring, msg)] }
  | .peek ring =>
      p.lanes[ring]?.map fun lane => { p with lanes := p.lanes.set ring lane.peek }

/-- The state after some events. -/
def run (p : Pipeline) : List PipelineEvent → Option Pipeline
  | [] => some p
  | event :: events => (p.step event).bind fun p => p.run events

/-- What was handled, ring after ring. -/
def handled (p : Pipeline) : List FixMessageSummary := p.lanes.flatMap Lane.handled

end Pipeline

/-! ## A lane -/

/-- The ring holds what is accepted and not handled; what was accepted and what was dropped
are the summaries that the thread is done with. -/
structure Lane.Inv (log : List FixMessageSummary) (lane : Lane) : Prop where
  ring : ∃ head, lane.rb.Inv head (lane.queue.map FixMessageSummary.bytes) []
  fifo : lane.accepted = lane.handled ++ lane.queue
  pushed : ∃ pushed, log = pushed ++ lane.todo ∧ lane.accepted.Sublist pushed ∧
    (lane.accepted ++ lane.dropped).Perm pushed

namespace Lane.Inv

variable {log : List FixMessageSummary} {lane lane' : Lane}

/-- A thread that has published nothing. -/
theorem initial {capacity : Nat} (h : IsRingCapacity capacity) (log : List FixMessageSummary) :
    (Lane.initial capacity log).Inv log where
  ring := ⟨_, (Session.Inv.initial h).ring⟩
  fifo := rfl
  pushed := ⟨[], rfl, List.Sublist.refl _, List.Perm.refl _⟩

/-- The summaries that are waiting are those of the thread. -/
theorem mem_queue (h : lane.Inv log) {summary : FixMessageSummary}
    (hmem : summary ∈ lane.queue) : summary ∈ log := by
  obtain ⟨pushed, rfl, hsub, -⟩ := h.pushed
  apply List.mem_append_left
  apply hsub.subset
  rw [h.fifo]
  exact List.mem_append_right _ hmem

/-- The claim finds room when the record fits behind those in the ring. -/
theorem hasRoom_iff (h : lane.Inv log) (summary : FixMessageSummary) :
    lane.hasRoom summary = true ↔
      (encodeRecords (lane.queue.map FixMessageSummary.bytes)).length + eventSize summary.key ≤
        lane.rb.capacity := by
  obtain ⟨head, hring⟩ := h.ring
  have hsize : eventSize summary.key =
      sizeofFixMessageSummary + (summary.key.length + 1) + 4 := by
    unfold eventSize sizeofRbRecord
    omega
  unfold Lane.hasRoom
  rw [hsize]
  constructor
  · intro hroom
    apply Decidable.of_not_not
    intro hno
    rw [hring.claim_none hno] at hroom
    cases hroom
  · intro hfits
    obtain ⟨rb, hclaim, -⟩ := hring.claim hfits
    rw [hclaim]
    rfl

/-- Without room the ring stays as it is. -/
theorem push_full (h : lane.Inv log) {summary : FixMessageSummary}
    (hroom : ¬ lane.hasRoom summary = true) : lane.rb.push summary = lane.rb := by
  obtain ⟨head, hring⟩ := h.ring
  have hno : ¬ (encodeRecords (lane.queue.map FixMessageSummary.bytes)).length +
      (sizeofFixMessageSummary + (summary.key.length + 1) + 4) ≤ lane.rb.capacity := by
    intro hfits
    apply hroom
    apply (h.hasRoom_iff summary).mpr
    unfold eventSize sizeofRbRecord
    omega
  unfold SpscRb.push
  rw [hring.claim_none hno]

/-- The thread goes on by one summary, which is accepted or dropped. -/
theorem push (h : lane.Inv log) (hstep : lane.push = some lane') :
    lane'.Inv log ∧ lane'.handled = lane.handled := by
  obtain ⟨head, hring⟩ := h.ring
  obtain ⟨pushed, hlog, hsub, hperm⟩ := h.pushed
  unfold Lane.push at hstep
  cases htodo : lane.todo with
  | nil =>
      rw [htodo] at hstep
      cases hstep
  | cons summary todo =>
      rw [htodo] at hstep hlog
      obtain rfl := Option.some.inj hstep
      refine ⟨?_, rfl⟩
      have hlog' : log = (pushed ++ [summary]) ++ todo := by
        rw [hlog, List.append_assoc, List.singleton_append]
      by_cases hroom : lane.hasRoom summary = true
      · have hqueue : (lane.accepted ++ [summary]).drop lane.handled.length =
            lane.queue ++ [summary] := by
          apply List.drop_append_of_le_length
          rw [h.fifo, List.length_append]
          exact Nat.le_add_right _ _
        have hpush := (hring.push ((h.hasRoom_iff summary).mp hroom)).1
        refine ⟨⟨head, ?_⟩, ?_, pushed ++ [summary], hlog', ?_, ?_⟩
        · simpa only [Lane.queue, if_pos hroom, hqueue] using hpush
        · simp only [Lane.queue, if_pos hroom, hqueue]
          rw [← List.append_assoc]
          exact congrArg (· ++ [summary]) h.fifo
        · simp only [if_pos hroom]
          exact hsub.append (List.Sublist.refl _)
        · simp only [if_pos hroom]
          calc (lane.accepted ++ [summary] ++ lane.dropped).Perm
                (lane.accepted ++ (lane.dropped ++ [summary])) := by
                  rw [List.append_assoc]
                  exact List.perm_append_comm.append_left _
            _ = (lane.accepted ++ lane.dropped) ++ [summary] := (List.append_assoc ..).symm
            _ |>.Perm (pushed ++ [summary]) := hperm.append_right _
      · refine ⟨⟨head, ?_⟩, ?_, pushed ++ [summary], hlog', ?_, ?_⟩
        · simpa only [Lane.queue, if_neg hroom, h.push_full hroom] using hring
        · simp only [Lane.queue, if_neg hroom]
          exact h.fifo
        · simp only [if_neg hroom]
          exact hsub.trans (List.sublist_append_left ..)
        · simp only [if_neg hroom]
          rw [← List.append_assoc]
          exact hperm.append_right _

/-- A poll hands over the oldest summary of the ring, as it was published. -/
theorem poll (h : lane.Inv log) (hfits : ∀ summary ∈ log, summary.Fits) :
    lane.poll.1.Inv log ∧ lane.poll.1.handled = lane.handled ++ lane.poll.2.toList := by
  obtain ⟨head, hring⟩ := h.ring
  cases hqueue : lane.queue with
  | nil =>
      rw [hqueue] at hring
      have hpoll : lane.poll = (lane, none) := by
        unfold Lane.poll
        rw [hring.poll_empty]
      rw [hpoll]
      exact ⟨h, (List.append_nil _).symm⟩
  | cons summary rest =>
      have hmem : summary ∈ lane.queue := by
        rw [hqueue]
        exact List.mem_cons_self ..
      rw [hqueue] at hring
      obtain ⟨rb, hpoll, hinv, hpolled⟩ := SpscRb.Inv.poll hring
      have hread := loadSummary_eq (hfits summary (h.mem_queue hmem)) hinv
      have hlane : lane.poll = ({ lane with
          rb := (vmarsSpscRbRelease rb (headIndex rb.capacity rb.headPosition)).1
          handled := lane.handled ++ [summary] }, some summary) := by
        unfold Lane.poll
        rw [hpoll]
        simp only [hread]
      have hrest : lane.accepted.drop (lane.handled ++ [summary]).length = rest := by
        rw [List.length_append, ← List.drop_drop]
        show lane.queue.drop 1 = rest
        rw [hqueue]
        rfl
      rw [hlane]
      refine ⟨⟨⟨head + (summary.bytes.length + 4), ?_⟩, ?_, h.pushed⟩, rfl⟩
      · simpa only [Lane.queue, hrest] using hinv.release_record hpolled
      · simp only [Lane.queue, hrest]
        rw [List.append_assoc, List.singleton_append, ← hqueue]
        exact h.fifo

/-- A record that is polled and left stays the oldest one. -/
theorem peek (h : lane.Inv log) : lane.peek.Inv log := by
  obtain ⟨head, hring⟩ := h.ring
  refine ⟨⟨head, ?_⟩, h.fifo, h.pushed⟩
  show (vmarsSpscRbPoll lane.rb).1.Inv head (lane.queue.map FixMessageSummary.bytes) []
  cases hqueue : lane.queue with
  | nil =>
      rw [hqueue] at hring
      rw [hring.poll_empty]
      exact hring
  | cons summary rest =>
      rw [hqueue] at hring
      obtain ⟨rb, hpoll, hinv, -⟩ := SpscRb.Inv.poll hring
      rw [hpoll]
      exact hinv

end Lane.Inv

/-! ## The pipeline -/

/-- The state after some events: each lane keeps its invariant, and the latency handler has
seen what the log says. -/
structure Pipeline.Inv (threads : List (Nat × List FixMessageSummary)) (p : Pipeline) :
    Prop where
  lanes : List.Forall₂ (fun thread lane => lane.Inv thread.2) threads p.lanes
  latency : p.latency = calculateLatencies .init (p.log.map Prod.snd)
  handled : ∀ ring lane, p.lanes[ring]? = some lane →
    lane.handled = laneOf ring p.log
  rings : ∀ entry ∈ p.log, entry.1 < p.lanes.length

namespace Pipeline.Inv

variable {threads : List (Nat × List FixMessageSummary)} {p p' : Pipeline}

/-- Before the first event nothing was handled. -/
theorem initial (h : ∀ thread ∈ threads, IsRingCapacity thread.1) :
    (Pipeline.initial threads).Inv threads where
  lanes := by
    show List.Forall₂ _ threads (threads.map fun thread => Lane.initial thread.1 thread.2)
    rw [List.forall₂_map_right_iff]
    exact List.forall₂_same.mpr fun thread hmem => .initial (h thread hmem) thread.2
  latency := rfl
  handled := by
    intro ring lane hlane
    obtain ⟨thread, -, rfl⟩ := List.mem_map.mp (List.mem_of_getElem? hlane)
    rfl
  rings := by
    intro entry hentry
    cases hentry

/-- The lane of a ring belongs to a thread. -/
theorem lane (h : p.Inv threads) {ring : Nat} {lane : Lane}
    (hlane : p.lanes[ring]? = some lane) :
    ∃ thread, threads[ring]? = some thread ∧ lane.Inv thread.2 := by
  obtain ⟨hlt, rfl⟩ := List.getElem?_eq_some_iff.mp hlane
  have hlt' : ring < threads.length := h.lanes.length_eq ▸ hlt
  exact ⟨threads[ring], List.getElem?_eq_getElem hlt', List.Forall₂.get h.lanes hlt' hlt⟩

/-- A lane may be replaced by one that keeps the invariant. -/
theorem set (h : p.Inv threads) {ring : Nat} {lane lane' : Lane}
    (hlane : p.lanes[ring]? = some lane)
    (hnew : ∀ thread ∈ threads, lane.Inv thread.2 → lane'.Inv thread.2) :
    List.Forall₂ (fun thread lane => lane.Inv thread.2) threads (p.lanes.set ring lane') := by
  have hlanes := h.lanes
  clear h
  generalize p.lanes = lanes at hlanes hlane
  induction hlanes generalizing ring with
  | nil => cases hlane
  | cons hfirst hrest ih =>
      cases ring with
      | zero =>
          obtain rfl := Option.some.inj hlane
          exact .cons (hnew _ (List.mem_cons_self ..) hfirst) hrest
      | succ ring =>
          refine .cons hfirst (ih (fun thread hmem => ?_) hlane)
          exact hnew thread (List.mem_cons_of_mem _ hmem)

/-- An event that hands nothing over. -/
theorem quiet (h : p.Inv threads) {ring : Nat} {lane lane' : Lane}
    (hlane : p.lanes[ring]? = some lane)
    (hnew : ∀ thread ∈ threads, lane.Inv thread.2 → lane'.Inv thread.2)
    (hhandled : lane'.handled = lane.handled) :
    { p with lanes := p.lanes.set ring lane' }.Inv threads where
  lanes := h.set hlane hnew
  latency := h.latency
  handled := by
    intro other lane₁ hlane₁
    by_cases hring : ring = other
    · subst hring
      rw [List.getElem?_set_self (List.getElem?_eq_some_iff.mp hlane).1] at hlane₁
      obtain rfl := Option.some.inj hlane₁
      rw [hhandled]
      exact h.handled ring lane hlane
    · rw [List.getElem?_set_ne hring] at hlane₁
      exact h.handled other lane₁ hlane₁
  rings := by
    intro entry hentry
    rw [List.length_set]
    exact h.rings entry hentry

/-- A summary is taken out of its ring and handled. -/
theorem taken (h : p.Inv threads) {ring : Nat} {lane lane' : Lane} {msg : FixMessageSummary}
    (hlane : p.lanes[ring]? = some lane)
    (hnew : ∀ thread ∈ threads, lane.Inv thread.2 → lane'.Inv thread.2)
    (hhandled : lane'.handled = lane.handled ++ [msg]) :
    Pipeline.Inv threads
      { lanes := p.lanes.set ring lane'
        latency := calculateLatency p.latency msg
        log := p.log ++ [(ring, msg)] } where
  lanes := h.set hlane hnew
  latency := by
    rw [List.map_append, calculateLatencies_append, ← h.latency]
    rfl
  handled := by
    intro other lane₁ hlane₁
    rw [laneOf, List.filter_append, List.map_append]
    by_cases hring : ring = other
    · subst hring
      rw [List.getElem?_set_self (List.getElem?_eq_some_iff.mp hlane).1] at hlane₁
      obtain rfl := Option.some.inj hlane₁
      rw [hhandled, h.handled ring lane hlane]
      simp [laneOf]
    · rw [List.getElem?_set_ne hring] at hlane₁
      rw [h.handled other lane₁ hlane₁]
      simp [laneOf, hring]
  rings := by
    intro entry hentry
    rw [List.length_set]
    rcases List.mem_append.mp hentry with hentry | hentry
    · exact h.rings entry hentry
    · obtain rfl := List.mem_singleton.mp hentry
      exact (List.getElem?_eq_some_iff.mp hlane).1

/-- Every event keeps the invariant. -/
theorem step (h : p.Inv threads) (hfits : ∀ thread ∈ threads, ∀ summary ∈ thread.2, summary.Fits)
    {event : PipelineEvent} (hstep : p.step event = some p') : p'.Inv threads := by
  cases event with
  | push ring =>
      obtain ⟨lane, hlane, hstep⟩ := Option.bind_eq_some_iff.mp hstep
      obtain ⟨lane', hpush, rfl⟩ := Option.map_eq_some_iff.mp hstep
      obtain ⟨thread, -, hinv⟩ := h.lane hlane
      apply h.quiet hlane
      · exact fun thread _ hinv => (hinv.push hpush).1
      · exact (hinv.push hpush).2
  | poll ring =>
      obtain ⟨lane, hlane, rfl⟩ := Option.map_eq_some_iff.mp hstep
      obtain ⟨thread, hthread, hinv⟩ := h.lane hlane
      have hhandled := (hinv.poll (hfits thread (List.mem_of_getElem? hthread))).2
      have hnew : ∀ thread ∈ threads, lane.Inv thread.2 → lane.poll.1.Inv thread.2 :=
        fun thread hmem hinv => (hinv.poll (hfits thread hmem)).1
      cases hpoll : lane.poll with
      | mk lane' msg =>
          rw [hpoll] at hhandled hnew
          cases msg with
          | none => exact h.quiet hlane hnew (hhandled.trans (List.append_nil _))
          | some msg => exact h.taken hlane hnew hhandled
  | peek ring =>
      obtain ⟨lane, hlane, rfl⟩ := Option.map_eq_some_iff.mp hstep
      apply h.quiet hlane
      · exact fun thread _ hinv => hinv.peek
      · rfl

/-- Every run keeps the invariant. -/
theorem run (h : p.Inv threads) (hfits : ∀ thread ∈ threads, ∀ summary ∈ thread.2, summary.Fits)
    {events : List PipelineEvent} (hrun : p.run events = some p') : p'.Inv threads := by
  induction events generalizing p with
  | nil =>
      obtain rfl := Option.some.inj hrun
      exact h
  | cons event events ih =>
      obtain ⟨p₁, hstep, hrest⟩ := Option.bind_eq_some_iff.mp hrun
      exact ih (h.step hfits hstep) hrest

end Pipeline.Inv

/-! ## The schedule does not matter -/

/-- No key occurs in the summaries of two threads. -/
def KeysApart (threads : List (Nat × List FixMessageSummary)) : Prop :=
  ∀ (i j : Nat) (a b : Nat × List FixMessageSummary),
    threads[i]? = some a → threads[j]? = some b →
      ∀ summary ∈ a.2, ∀ summary' ∈ b.2, cstr summary.key = cstr summary'.key → i = j

/-- The keys of every two threads differ. -/
theorem keysApart_iff {threads : List (Nat × List FixMessageSummary)} :
    KeysApart threads ↔ threads.Pairwise fun a b =>
      ∀ summary ∈ a.2, ∀ summary' ∈ b.2, cstr summary.key ≠ cstr summary'.key := by
  rw [List.pairwise_iff_getElem]
  constructor
  · intro h i j hi hj hij summary hsummary summary' hsummary' hkey
    have hsame := h i j _ _ (List.getElem?_eq_getElem hi) (List.getElem?_eq_getElem hj)
      summary hsummary summary' hsummary' hkey
    omega
  · intro h i j a b ha hb summary hsummary summary' hsummary' hkey
    obtain ⟨hi, rfl⟩ := List.getElem?_eq_some_iff.mp ha
    obtain ⟨hj, rfl⟩ := List.getElem?_eq_some_iff.mp hb
    rcases Nat.lt_trichotomy i j with hij | hij | hij
    · exact (h i j hi hj hij summary hsummary summary' hsummary' hkey).elim
    · exact hij
    · exact (h j i hj hi hij summary' hsummary' summary hsummary hkey.symm).elim

/-- Every summary of every thread was published and taken out of its ring. -/
def Pipeline.Drained (p : Pipeline) : Prop :=
  ∀ lane ∈ p.lanes, lane.todo = [] ∧ lane.dropped = [] ∧ lane.queue = []

namespace Pipeline.Inv

variable {threads : List (Nat × List FixMessageSummary)} {p : Pipeline}

/-- What was handled is what came out of the rings. -/
theorem handled_eq (h : p.Inv threads) :
    p.handled = (List.range p.lanes.length).flatMap fun ring => laneOf ring p.log := by
  have hlanes : p.lanes.map Lane.handled =
      (List.range p.lanes.length).map fun ring => laneOf ring p.log := by
    apply List.ext_getElem
    · rw [List.length_map, List.length_map, List.length_range]
    · intro ring hleft hright
      rw [List.length_map] at hleft
      rw [List.getElem_map, List.getElem_map, List.getElem_range]
      exact h.handled ring _ (List.getElem?_eq_getElem hleft)
  rw [Pipeline.handled, List.flatMap_def, List.flatMap_def, hlanes]

/-- A summary that was handled is one of the thread of its ring. -/
theorem mem_log (h : p.Inv threads) {entry : Nat × FixMessageSummary} (hentry : entry ∈ p.log) :
    ∃ thread, threads[entry.1]? = some thread ∧ entry.2 ∈ thread.2 := by
  have hlane := List.getElem?_eq_getElem (h.rings entry hentry)
  obtain ⟨thread, hthread, hinv⟩ := h.lane hlane
  refine ⟨thread, hthread, ?_⟩
  have hmem : entry.2 ∈ laneOf entry.1 p.log :=
    List.mem_map_of_mem (List.mem_filter.mpr ⟨hentry, decide_eq_true rfl⟩)
  rw [← h.handled _ _ hlane] at hmem
  obtain ⟨pushed, hlog, hsub, -⟩ := hinv.pushed
  rw [hlog]
  apply List.mem_append_left
  apply hsub.subset
  rw [hinv.fifo]
  exact List.mem_append_left _ hmem

/-- With the keys of the rings apart, the rings might be handled one after the other. -/
theorem apart (h : p.Inv threads) (hapart : KeysApart threads) :
    p.latency.latencyTable = (calculateLatencies .init p.handled).latencyTable ∧
      p.latency.histogram.Perm (calculateLatencies .init p.handled).histogram := by
  have hkeys : ∀ a ∈ p.log, ∀ b ∈ p.log,
      latencyMatcher.machine.key a.2 = latencyMatcher.machine.key b.2 → a.1 = b.1 := by
    intro a ha b hb hkey
    obtain ⟨thread, hthread, hmem⟩ := h.mem_log ha
    obtain ⟨thread', hthread', hmem'⟩ := h.mem_log hb
    exact hapart a.1 b.1 thread thread' hthread hthread' a.2 hmem b.2 hmem' hkey
  obtain ⟨htable, hperm⟩ := @Machine.run_lanes _ _ _ _ _ latencyMatcher.machine
    LatencyState.init.latencyTable p.log p.lanes.length h.rings hkeys
  rw [h.latency, h.handled_eq, calculateLatencies_eq, calculateLatencies_eq]
  exact ⟨htable, (hperm.map _).append_left _⟩

/-- At the end of a run without a dropped summary everything was handled. -/
theorem drained (h : p.Inv threads) (hdrained : p.Drained) :
    p.handled = threads.flatMap Prod.snd := by
  have hlanes := h.lanes
  unfold Pipeline.Drained at hdrained
  unfold Pipeline.handled
  clear h
  generalize p.lanes = lanes at hlanes hdrained
  induction hlanes with
  | nil => rfl
  | @cons thread lane threads lanes hfirst hrest ih =>
      obtain ⟨htodo, hdropped, hqueue⟩ := hdrained lane (List.mem_cons_self ..)
      obtain ⟨pushed, hlog, hsub, hperm⟩ := hfirst.pushed
      have hfifo := hfirst.fifo
      rw [htodo, List.append_nil] at hlog
      rw [hdropped, List.append_nil] at hperm
      rw [hqueue, List.append_nil] at hfifo
      rw [List.flatMap_cons, List.flatMap_cons, ← hfifo, hlog,
        hsub.eq_of_length hperm.length_eq,
        ih fun lane hmem => hdrained lane (List.mem_cons_of_mem _ hmem)]

end Pipeline.Inv

/-- **The schedule does not matter.**  In every state of every run each ring carries the
summaries of its thread in order, those of the log were handled one after the other, and with
the keys of the rings apart the result is that of handling ring after ring. -/
theorem pipeline_schedule {threads : List (Nat × List FixMessageSummary)}
    (hcapacities : ∀ thread ∈ threads, IsRingCapacity thread.1)
    (hfits : ∀ thread ∈ threads, ∀ summary ∈ thread.2, summary.Fits)
    {events : List PipelineEvent} {p : Pipeline}
    (hrun : (Pipeline.initial threads).run events = some p) :
    p.Inv threads ∧ (p.Drained → p.handled = threads.flatMap Prod.snd) ∧
      (KeysApart threads →
        p.latency.latencyTable = (calculateLatencies .init p.handled).latencyTable ∧
          p.latency.histogram.Perm (calculateLatencies .init p.handled).histogram) := by
  have hinv := (Pipeline.Inv.initial hcapacities).run hfits hrun
  exact ⟨hinv, hinv.drained, hinv.apart⟩

end Vmars
