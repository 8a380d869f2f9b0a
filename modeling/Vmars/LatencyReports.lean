import Vmars.LatencyDraining

/-!
# Reporting the latencies (`latency_handler.c`)

Before each pass over the rings `poll_ring_buffers` reads the clock.  In a new second it adds
the size of the histogram to `completed_requests`, logs it with the percentiles as gauges, and
resets the histogram.  The table of pending messages is not reset.

* `reports_partition`: **the reports cut the sequence of latencies into pieces**: with the
  values behind the last one they are what is recorded without any report, each value once and
  in order, and `completedRequests` counts all of them up to its report.
-/

namespace Vmars

open CMemory

/-! ## The code -/

/-- The histogram library, as functions of the values that a histogram has kept. -/
structure Hdr where
  /-- `hdr_record_value` keeps the value. -/
  records : Int → Bool
  max : List Int → Int
  /-- A percentile, in hundredths. -/
  valueAtPercentile : List Int → Nat → Int
  /-- `(int64_t) hdr_mean`. -/
  mean : List Int → Int

namespace Hdr

variable (hdr : Hdr)

/-- The values that were kept. -/
def kept (values : List Int) : List Int := values.filter hdr.records

/-- `histogram->total_count`. -/
def totalCount (values : List Int) : Int := (hdr.kept values).length

end Hdr

/-- What is logged in a new second. -/
structure Report where
  /-- The values since the last report. -/
  values : List Int
  completedRequests : Int
  /-- `curr_timestamp.tv_sec`. -/
  tvSec : Int
  timestampMs : Int
  gauges : List (String × Int)

/-- The gauges, in the order in which they are logged. -/
def latencyGauges (hdr : Hdr) (completedRequests : Int) (values : List Int) :
    List (String × Int) :=
  [("vmars.latency.completedRequests", completedRequests),
    ("vmars.latency.max", hdr.max (hdr.kept values)),
    ("vmars.latency.50", hdr.valueAtPercentile (hdr.kept values) 5000),
    ("vmars.latency.99", hdr.valueAtPercentile (hdr.kept values) 9900),
    ("vmars.latency.9999", hdr.valueAtPercentile (hdr.kept values) 9999),
    ("vmars.latency.mean",
      if 0 ≠ hdr.totalCount values then hdr.mean (hdr.kept values) else 0)]

/-- The rings and `poll_ring_buffers` with its locals; the histogram of `latency` has the
values since the last reset. -/
structure Reporting where
  draining : Draining
  completedRequests : Int
  /-- `last_timestamp.tv_sec`. -/
  lastSec : Int
  /-- What was logged. -/
  reports : List Report

inductive ReportEvent where
  | capture (ring : Nat) (call : CaptureCall)
  /-- A round of the loop, at a second of the clock. -/
  | round (currSec : Int)

/-- A round without its report is a pass. -/
def ReportEvent.drain : ReportEvent → DrainEvent
  | .capture ring call => .capture ring call
  | .round _ => .pass

namespace Reporting

variable (hdr : Hdr)

/-- The handler is started in a second of the clock. -/
def initial (capacities : List Nat) (startSec : Int) : Reporting where
  draining := .initial capacities
  completedRequests := 0
  lastSec := startSec
  reports := []

/-- The report at the start of a round. -/
def report (s : Reporting) (currSec : Int) : Reporting :=
  if currSec > s.lastSec then
    let values := s.draining.latency.histogram
    let completedRequests := s.completedRequests + hdr.totalCount values
    { draining := { s.draining with latency := { s.draining.latency with histogram := [] } }
      completedRequests
      lastSec := currSec
      reports := s.reports ++
        [{ values, completedRequests, tvSec := currSec, timestampMs := currSec * 1000
           gauges := latencyGauges hdr completedRequests values }] }
  else s

/-- The state after an event, `none` when it breaks the protocol of a ring. -/
def step (s : Reporting) : ReportEvent → Option Reporting
  | .capture ring call =>
      (s.draining.step (.capture ring call)).map fun draining => { s with draining }
  | .round currSec =>
      let s := s.report hdr currSec
      (s.draining.step .pass).map fun draining => { s with draining }

/-- The state after some events. -/
def run (s : Reporting) : List ReportEvent → Option Reporting
  | [] => some s
  | event :: events => (s.step hdr event).bind fun s => s.run events

end Reporting

/-! ## The histogram does not matter -/

/-- The state with more values before those of its histogram. -/
def LatencyState.after (st : LatencyState) (values : List Int) : LatencyState :=
  { st with histogram := values ++ st.histogram }

/-- What was recorded before stays in front. -/
theorem calculateLatency_after (st : LatencyState) (values : List Int)
    (msg : FixMessageSummary) :
    calculateLatency (st.after values) msg = (calculateLatency st msg).after values := by
  rw [calculateLatency_eq, calculateLatency_eq]
  simp only [LatencyState.after, List.append_assoc]

/-- So it does in a drain of a ring. -/
theorem drainRing_after (pollLimit : Nat) (rb : SpscRb) (st : LatencyState)
    (values : List Int) :
    drainRing pollLimit rb (st.after values) =
      { drainRing pollLimit rb st with st := (drainRing pollLimit rb st).st.after values } := by
  induction pollLimit generalizing rb st with
  | zero => rfl
  | succ pollLimit ih =>
      simp only [drainRing]
      cases hpoll : vmarsSpscRbPoll rb with
      | mk rb₁ record =>
          cases record with
          | none => rfl
          | some record =>
              dsimp only
              split
              · rw [calculateLatency_after, ih]
              · rfl

/-- A pass does the same behind more values. -/
theorem pollRingBuffers_after (chs : List Channel) (st : LatencyState) (values : List Int) :
    pollRingBuffers chs (st.after values) =
      ((pollRingBuffers chs st).1, (pollRingBuffers chs st).2.after values) := by
  induction chs generalizing st with
  | nil => rfl
  | cons ch chs ih =>
      simp only [pollRingBuffers, drainRing_after, ih]
      rfl

/-! ## The reports -/

/-- The values that were reported. -/
def reported (reports : List Report) : List Int := reports.flatMap Report.values

theorem reported_append (reports : List Report) (report : Report) :
    reported (reports ++ [report]) = reported reports ++ report.values := by
  simp [reported]

/-- A report logs the size and the percentiles of its own values, and the number of all
values so far. -/
structure Report.Of (hdr : Hdr) (earlier : List Report) (report : Report) : Prop where
  completed : report.completedRequests = hdr.totalCount (reported (earlier ++ [report]))
  gauges : report.gauges = latencyGauges hdr report.completedRequests report.values
  timestamp : report.timestampMs = report.tvSec * 1000
  /-- There is no other one in the same second. -/
  later : ∀ other ∈ earlier, other.tvSec < report.tvSec

/-- The handler beside one that never reports. -/
structure Reporting.Rel (hdr : Hdr) (s : Reporting) (d : Draining) : Prop where
  channels : s.draining.channels = d.channels
  latency : d.latency = s.draining.latency.after (reported s.reports)
  completed : s.completedRequests = hdr.totalCount (reported s.reports)
  reports : ∀ earlier report later, s.reports = earlier ++ report :: later →
    report.Of hdr earlier
  last : ∀ report ∈ s.reports, report.tvSec ≤ s.lastSec

theorem Hdr.totalCount_append (hdr : Hdr) (xs ys : List Int) :
    hdr.totalCount (xs ++ ys) = hdr.totalCount xs + hdr.totalCount ys := by
  simp [Hdr.totalCount, Hdr.kept]

namespace Reporting.Rel

variable {hdr : Hdr} {s s' : Reporting} {d : Draining}

/-- Before the first report both have recorded nothing. -/
theorem initial (hdr : Hdr) (capacities : List Nat) (startSec : Int) :
    (Reporting.initial capacities startSec).Rel hdr (.initial capacities) where
  channels := rfl
  latency := rfl
  completed := rfl
  reports := by
    intro earlier report later hreports
    have hlength := congrArg List.length hreports
    rw [List.length_append, List.length_cons] at hlength
    cases hlength
  last := by
    intro report hreport
    cases hreport

/-- The last piece of the reports: one of the old ones, or the new one. -/
theorem split_concat {reports earlier later : List Report} {new report : Report}
    (h : reports ++ [new] = earlier ++ report :: later) :
    (later = [] ∧ reports = earlier ∧ report = new) ∨
      ∃ rest, reports = earlier ++ report :: rest := by
  rcases List.eq_nil_or_concat later with rfl | ⟨rest, last, rfl⟩
  · obtain ⟨hreports, hnew⟩ := List.append_inj' h rfl
    exact .inl ⟨rfl, hreports, (List.head_eq_of_cons_eq hnew).symm⟩
  · rw [List.concat_eq_append, ← List.cons_append, ← List.append_assoc] at h
    exact .inr ⟨rest, (List.append_inj' h rfl).1⟩

/-- A report takes the values out of the histogram. -/
theorem report (h : s.Rel hdr d) (currSec : Int) : (s.report hdr currSec).Rel hdr d := by
  unfold Reporting.report
  split
  · next hnew =>
    have hcompleted : s.completedRequests + hdr.totalCount s.draining.latency.histogram =
        hdr.totalCount (reported s.reports ++ s.draining.latency.histogram) := by
      rw [Hdr.totalCount_append, h.completed]
    refine ⟨h.channels, ?_, ?_, ?_, ?_⟩
    · rw [h.latency, reported_append]
      simp only [LatencyState.after, List.append_nil]
    · rw [reported_append]
      exact hcompleted
    · intro earlier report later hreports
      rcases split_concat hreports with ⟨-, rfl, rfl⟩ | ⟨rest, hold⟩
      · refine ⟨?_, rfl, rfl, ?_⟩
        · rw [reported_append]
          exact hcompleted
        · intro other hother
          exact Int.lt_of_le_of_lt (h.last other hother) hnew
      · exact h.reports earlier report rest hold
    · intro report hreport
      rcases List.mem_append.mp hreport with hreport | hreport
      · exact Int.le_of_lt (Int.lt_of_le_of_lt (h.last report hreport) hnew)
      · obtain rfl := List.mem_singleton.mp hreport
        exact Int.le_refl _
  · exact h

/-- A pass keeps the handlers together. -/
theorem pass (h : s.Rel hdr d) : { s with draining := s.draining.pass }.Rel hdr d.pass := by
  have hpass : pollRingBuffers d.channels d.latency =
      ((pollRingBuffers s.draining.channels s.draining.latency).1,
        (pollRingBuffers s.draining.channels s.draining.latency).2.after
          (reported s.reports)) := by
    rw [h.latency, ← h.channels, pollRingBuffers_after]
  refine ⟨?_, ?_, h.completed, h.reports, h.last⟩
  · exact (congrArg Prod.fst hpass).symm
  · exact congrArg Prod.snd hpass

/-- A capture does not touch the histogram. -/
theorem capture (h : s.Rel hdr d) {ring : Nat} {call : CaptureCall} {draining : Draining}
    (hstep : s.draining.step (.capture ring call) = some draining) :
    ∃ d', d.step (.capture ring call) = some d' ∧ { s with draining }.Rel hdr d' := by
  obtain ⟨ch, hch, hstep⟩ := Option.bind_eq_some_iff.mp hstep
  obtain ⟨session, hsession, rfl⟩ := Option.map_eq_some_iff.mp hstep
  refine ⟨{ d with channels := d.channels.set ring { ch with session } }, ?_, ?_⟩
  · rw [Draining.step, ← h.channels, hch, Option.bind_some, hsession]
    rfl
  · refine ⟨?_, h.latency, h.completed, h.reports, h.last⟩
    show s.draining.channels.set ring { ch with session } = _
    rw [h.channels]

/-- Every event keeps the handlers together. -/
theorem step (h : s.Rel hdr d) {event : ReportEvent} (hstep : s.step hdr event = some s') :
    ∃ d', d.step event.drain = some d' ∧ s'.Rel hdr d' := by
  cases event with
  | capture ring call =>
      obtain ⟨draining, hcapture, rfl⟩ := Option.map_eq_some_iff.mp hstep
      exact h.capture hcapture
  | round currSec =>
      obtain rfl := Option.some.inj hstep
      exact ⟨d.pass, rfl, (h.report currSec).pass⟩

/-- Every run keeps the handlers together. -/
theorem run (h : s.Rel hdr d) {events : List ReportEvent} (hrun : s.run hdr events = some s') :
    ∃ d', d.run (events.map ReportEvent.drain) = some d' ∧ s'.Rel hdr d' := by
  induction events generalizing s d with
  | nil =>
      obtain rfl := Option.some.inj hrun
      exact ⟨d, rfl, h⟩
  | cons event events ih =>
      obtain ⟨s₁, hstep, hrest⟩ := Option.bind_eq_some_iff.mp hrun
      obtain ⟨d₁, hdrain, hrel⟩ := h.step hstep
      obtain ⟨d', hdrained, hrel'⟩ := ih hrel hrest
      refine ⟨d', ?_, hrel'⟩
      rw [List.map_cons, Draining.run, hdrain]
      exact hdrained

end Reporting.Rel

/-- **The reports cut the latencies into pieces.**  In every run, whatever the clock shows, the
reported values and those behind the last report are the values of the same run without any
report, on the same rings and with the same table, and every report logs its own piece and
the number of all values so far. -/
theorem reports_partition (hdr : Hdr) {capacities : List Nat} {startSec : Int}
    {events : List ReportEvent} {s : Reporting}
    (hrun : (Reporting.initial capacities startSec).run hdr events = some s) :
    ∃ d, (Draining.initial capacities).run (events.map ReportEvent.drain) = some d ∧
      d.channels = s.draining.channels ∧
      d.latency.latencyTable = s.draining.latency.latencyTable ∧
      d.latency.histogram = reported s.reports ++ s.draining.latency.histogram ∧
      ∀ earlier report later, s.reports = earlier ++ report :: later →
        report.Of hdr earlier := by
  obtain ⟨d, hdrained, hrel⟩ := (Reporting.Rel.initial hdr capacities startSec).run hrun
  refine ⟨d, hdrained, hrel.channels.symm, ?_, ?_, hrel.reports⟩
  · rw [hrel.latency]
    rfl
  · rw [hrel.latency]
    rfl

/-- A histogram that keeps the values up to ten seconds and knows their maximum. -/
def tenSeconds : Hdr where
  records value := 0 ≤ value && value ≤ 10000000000
  max values := values.foldl max 0
  valueAtPercentile values _ := values.headD 0
  mean values := values.headD 0

/-- An order and its response go through a ring, one on each side of a new second. -/
def acrossSeconds : List ReportEvent :=
  publishing (captured "a" 68 1) 0 ++ [.round 5] ++ publishing (captured "a" 56 3) 30 ++
    [.round 5, .round 6, .round 6]
where
  /-- The calls that publish a summary at an offset of the first ring. -/
  publishing (summary : FixMessageSummary) (record : Nat) : List ReportEvent :=
    .capture 0 (.claim summary.bytes.length) ::
      summary.bytes.zipIdx.map (fun (b, j) => .capture 0 (.write j b)) ++
        [.capture 0 (.publish record)]

/-- A request in one second and its response in a later one. -/
theorem reports_partition_acrossSeconds :
    let s := ((Reporting.initial [64] 5).run tenSeconds acrossSeconds).get (by decide +kernel)
    ∃ d, (Draining.initial [64]).run (acrossSeconds.map ReportEvent.drain) = some d ∧
      d.channels = s.draining.channels ∧
      d.latency.latencyTable = s.draining.latency.latencyTable ∧
      d.latency.histogram = reported s.reports ++ s.draining.latency.histogram ∧
      ∀ earlier report later, s.reports = earlier ++ report :: later →
        report.Of tenSeconds earlier :=
  @reports_partition tenSeconds [64] 5 acrossSeconds _ (Option.some_get _).symm

end Vmars
