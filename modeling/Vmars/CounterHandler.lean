import Vmars.FixOutcomes
import Vmars.JodieDatagrams

/-!
# Publishing the counters (`counter_handler.c`)

Once a second a thread adds up the counters of all capture contexts and logs the sums
as gauges of the metrics client.

Of the outcomes of a parse only two have a gauge: the messages that were accepted and
those with a bad checksum.  `fix.c` counts all other errors in `parsing_errors`, which
is neither added up nor logged, so such a message leaves no trace (`recovered_iff`).

* `aggregate_counted` — the sums over all contexts are the numbers of their outcomes;
* `pass_published` — the lines of a pass are the gauges, and all of them are sent.
-/

namespace Vmars

open CMemory

/-! ## The code -/

/-- `vmars_monitoring_counters_t`: the counters of `fix.c`, the socket of the capture
thread and the bytes that it counts. -/
structure MonitoringCounters extends Counters where
  fd : Int := 0
  bytesTotal : Int := 0
  deriving DecidableEq, Repr

/-- `struct tpacket_stats_v3`, of `unsigned int`s. -/
structure TpacketStatsV3 where
  tpPackets : UInt32 := 0
  tpDrops : UInt32 := 0
  tpFreezeQCnt : UInt32 := 0
  deriving DecidableEq, Repr

section Poll

variable (getsockopt : Int → Option TpacketStatsV3)

/-- `gather_socket_stats`; `getsockopt` gives the statistics of a socket, or fails. -/
def gatherSocketStats (fd : Int) (aggregateStats : TpacketStatsV3) : TpacketStatsV3 :=
  if fd = 0 then aggregateStats
  else
    match getsockopt fd with
    | none => aggregateStats
    | some stats =>
        { tpDrops := aggregateStats.tpDrops + stats.tpDrops
          tpPackets := aggregateStats.tpPackets + stats.tpPackets
          tpFreezeQCnt := aggregateStats.tpFreezeQCnt + stats.tpFreezeQCnt }

/-- What the loop over the contexts adds to the sums. -/
def addCounters (aggregate counters : MonitoringCounters) : MonitoringCounters :=
  { aggregate with
    validMessages := aggregate.validMessages + counters.validMessages
    invalidChecksums := aggregate.invalidChecksums + counters.invalidChecksums
    corruptMessages := aggregate.corruptMessages + counters.corruptMessages
    massQuoteCount := aggregate.massQuoteCount + counters.massQuoteCount
    massQuoteAckCount := aggregate.massQuoteAckCount + counters.massQuoteAckCount
    newOrderSingleCount := aggregate.newOrderSingleCount + counters.newOrderSingleCount
    executionReportNewCount := aggregate.executionReportNewCount + counters.executionReportNewCount
    traceRequestCount := aggregate.traceRequestCount + counters.traceRequestCount
    traceRepsonseCount := aggregate.traceRepsonseCount + counters.traceRepsonseCount
    bytesTotal := aggregate.bytesTotal + counters.bytesTotal }

/-- The loop over the contexts. -/
def aggregateCounters (contexts : List MonitoringCounters) : MonitoringCounters × TpacketStatsV3 :=
  contexts.foldl (fun (aggregate, stats) counters =>
    (addCounters aggregate counters, gatherSocketStats getsockopt counters.fd stats)) ({}, {})

/-- The gauges of a pass, in the order in which they are logged. -/
def gauges (contexts : List MonitoringCounters) : List (String × Int) :=
  let (aggregate, stats) := aggregateCounters getsockopt contexts
  [("vmars.fix.valid_messages", aggregate.validMessages),
    ("vmars.fix.invalid_checksums", aggregate.invalidChecksums),
    ("vmars.fix.corrupt_messages", aggregate.corruptMessages),
    ("vmars.fix.mass_quote", aggregate.massQuoteCount),
    ("vmars.fix.mass_quote_ack", aggregate.massQuoteAckCount),
    ("vmars.fix.new_order_single", aggregate.newOrderSingleCount),
    ("vmars.fix.execution_report_new", aggregate.executionReportNewCount),
    ("vmars.fix.trace_request", aggregate.traceRequestCount),
    ("vmars.fix.trace_response", aggregate.traceRepsonseCount),
    ("vmars.network.bytes", aggregate.bytesTotal),
    ("vmars.network.packets", stats.tpPackets.toNat),
    ("vmars.network.drops", stats.tpDrops.toNat),
    ("vmars.network.freeze_q_cnt", stats.tpFreezeQCnt.toNat)]

/-- A pass of the loop of `vmars_poll_counters`, as calls of the metrics client. -/
def vmarsPollCounters (contexts : List MonitoringCounters) (timestamp : Int) (outside : Outside) :
    List JodieStep :=
  (gauges getsockopt contexts).map (fun (name, value) =>
    { call := .logGauge (ascii name) value timestamp, outside }) ++ [{ call := .flush, outside }]

end Poll

/-! ## What is published -/

/-- The line of a gauge. -/
def gaugeLine (timestamp : Int) (outside : Outside) (gauge : String × Int) : List UInt8 :=
  logText (ascii gauge.1) (unsignedDigits gauge.2)
    (if timestamp = 0 then outside.millis else timestamp) "gauge"

/-- The lines of a pass are its gauges. -/
theorem acceptedLines_pass (getsockopt : Int → Option TpacketStatsV3)
    (contexts : List MonitoringCounters) (timestamp : Int) (outside : Outside) :
    acceptedLines (vmarsPollCounters getsockopt contexts timestamp outside) =
      (gauges getsockopt contexts).map (gaugeLine timestamp outside) := by
  rfl

/-- **A pass sends all its gauges.**  From a buffer that carries nothing, while datagrams
can be sent, the datagrams of a pass are the lines of its gauges in their order, and the
buffer carries nothing again. -/
theorem pass_published {client : Jodie} (h : client.Carries [])
    (getsockopt : Int → Option TpacketStatsV3) (contexts : List MonitoringCounters)
    (timestamp : Int) {outside : Outside} (hsent : outside.sent = true) :
    ∃ datagrams client',
      jodieSession client (vmarsPollCounters getsockopt contexts timestamp outside) =
          .ok (datagrams, client') ∧
        client'.Carries [] ∧
        datagrams.flatten =
          (gauges getsockopt contexts).flatMap (gaugeLine timestamp outside) := by
  have hsteps : ∀ step ∈ vmarsPollCounters getsockopt contexts timestamp outside,
      step.outside.sent = true := by
    intro step hmem
    rcases List.mem_append.mp hmem with hlog | hflush
    · obtain ⟨gauge, -, rfl⟩ := List.mem_map.mp hlog
      exact hsent
    · obtain rfl := List.mem_singleton.mp hflush
      exact hsent
  obtain ⟨client', hrun, hcarries⟩ := jodieSession_refines h (Nat.zero_le _) hsteps
  have hflatten := @Batching.run_flatten _ List.length packetSize []
    ((vmarsPollCounters getsockopt contexts timestamp outside).flatMap JodieStep.ops)
  -- the flush at the end leaves nothing behind
  have hlast : (Batching.run List.length packetSize []
      ((vmarsPollCounters getsockopt contexts timestamp outside).flatMap JodieStep.ops)).2 =
        [] := by
    rw [vmarsPollCounters, List.flatMap_append, Batching.run_append]
    rfl
  rw [hlast] at hcarries
  rw [hlast, items_ops, acceptedLines_pass, List.append_nil, List.nil_append] at hflatten
  refine ⟨_, client', hrun, hcarries, ?_⟩
  rw [← List.flatten_flatten, hflatten, ← List.flatMap_def]

/-! ## The sums -/

section Sums

variable {R : Type} [RingBuffer R]

/-- A capture thread: its socket, the bytes it counts, its ring, and the packets that it
has processed. -/
structure CaptureThread (R : Type) where
  fd : Int
  bytesTotal : Int
  rb : R
  packets : List Packet

/-- The outcomes of all parses of a thread. -/
def CaptureThread.outcomes (thread : CaptureThread R) : List FixResult :=
  runOutcomes { rb := thread.rb } thread.packets

/-- These are the counters of a thread that has processed its packets. -/
def CaptureThread.Shows (thread : CaptureThread R) (counters : MonitoringCounters) : Prop :=
  ∃ ctx, extractAll { rb := thread.rb } thread.packets = .ok ctx ∧
    counters = { ctx.counters with fd := thread.fd, bytesTotal := thread.bytesTotal }

/-- The counters that are shown count the outcomes of the thread. -/
theorem CaptureThread.Shows.counted {thread : CaptureThread R} {counters : MonitoringCounters}
    (h : thread.Shows counters) : Counted {} counters.toCounters thread.outcomes := by
  obtain ⟨ctx, hrun, rfl⟩ := h
  exact extractAll_counted hrun

/-- **The sums are the outcomes of all threads**, as far as they are summed up: the parse
errors are not. -/
theorem aggregate_counted {getsockopt : Int → Option TpacketStatsV3}
    {threads : List (CaptureThread R)} {contexts : List MonitoringCounters}
    (h : List.Forall₂ CaptureThread.Shows threads contexts)
    (aggregate : MonitoringCounters) (stats : TpacketStatsV3) :
    ∃ sums, contexts.foldl (fun (aggregate, stats) counters =>
        (addCounters aggregate counters, gatherSocketStats getsockopt counters.fd stats))
        (aggregate, stats) = sums ∧
      sums.1.validMessages = aggregate.validMessages +
        (threads.flatMap CaptureThread.outcomes).count .ok ∧
      sums.1.invalidChecksums = aggregate.invalidChecksums +
        (threads.flatMap CaptureThread.outcomes).count .checksumInvalid ∧
      sums.1.parsingErrors = aggregate.parsingErrors := by
  induction h generalizing aggregate stats with
  | nil => exact ⟨_, rfl, (Int.add_zero _).symm, (Int.add_zero _).symm, rfl⟩
  | @cons thread counters threads contexts hthread _ ih =>
      obtain ⟨sums, hsums, hvalid, hchecksum, herrors⟩ :=
        ih (addCounters aggregate counters) (gatherSocketStats getsockopt counters.fd stats)
      have hcounted := hthread.counted
      have hthreadValid := hcounted.valid
      have hthreadChecksum := hcounted.checksum
      refine ⟨sums, hsums, ?_, ?_, herrors⟩
      · rw [hvalid, List.flatMap_cons, List.count_append]
        simp only [addCounters] at *
        omega
      · rw [hchecksum, List.flatMap_cons, List.count_append]
        simp only [addCounters] at *
        omega

end Sums

/-! ## Recovering the outcomes -/

/-- The outcomes other than too short are the accepted messages, the bad checksums and
the other errors. -/
theorem countP_outcomes (outcomes : List FixResult) :
    outcomes.countP (fun o => o ≠ .messageTooShort) =
      outcomes.count .ok + outcomes.count .checksumInvalid +
        outcomes.countP fun o => OtherError o := by
  induction outcomes with
  | nil => rfl
  | cons o outcomes ih =>
      rw [List.countP_cons, List.count_cons, List.count_cons, List.countP_cons, ih]
      cases o <;> simp [OtherError] <;> omega

/-- The value of a gauge of a pass. -/
def gaugeValue (gauges : List (String × Int)) (name : String) : Int :=
  (gauges.lookup name).getD 0

/-- The number of parses that did not end as too short is the sum of these gauges. -/
def RecoveredBy (names : List String) (gauges : List (String × Int)) (outcomes : List FixResult) :
    Prop :=
  (names.map (gaugeValue gauges)).sum = outcomes.countP fun o => o ≠ .messageTooShort

/-- The gauges that count an outcome of a parse. -/
def perOutcomeGauges : List String := ["vmars.fix.valid_messages", "vmars.fix.invalid_checksums"]

/-- **The outcomes can be recovered from the gauges exactly while no message ends in
another error** than a bad checksum, on any path of any thread. -/
theorem recovered_iff {R : Type} [RingBuffer R] {threads : List (CaptureThread R)}
    {contexts : List MonitoringCounters}
    (h : List.Forall₂ CaptureThread.Shows threads contexts)
    (getsockopt : Int → Option TpacketStatsV3) :
    RecoveredBy perOutcomeGauges (gauges getsockopt contexts)
        (threads.flatMap CaptureThread.outcomes) ↔
      ∀ outcome ∈ threads.flatMap CaptureThread.outcomes, ¬ OtherError outcome := by
  obtain ⟨sums, hsums, hvalid, hchecksum, -⟩ := @aggregate_counted _ _ getsockopt _ _ h {} {}
  have hvalues : (perOutcomeGauges.map (gaugeValue (gauges getsockopt contexts))).sum =
      sums.1.validMessages + sums.1.invalidChecksums := by
    rw [← hsums]
    show _ + (_ + 0) = _
    rw [Int.add_zero]
    rfl
  have hnone : (threads.flatMap CaptureThread.outcomes).countP (fun o => OtherError o) = 0 ↔
      ∀ outcome ∈ threads.flatMap CaptureThread.outcomes, ¬ OtherError outcome := by
    rw [List.countP_eq_zero]
    simp
  rw [RecoveredBy, hvalues, hvalid, hchecksum, countP_outcomes, ← hnone]
  simp only [Int.zero_add]
  omega

/-- A thread without a socket that has processed one packet. -/
def threadOf (data : List UInt8) (h : data.length + marker.length ≤ intMax) :
    CaptureThread (List FixMessageSummary) where
  fd := 0
  bytesTotal := 0
  rb := []
  packets := [⟨exampleStream, 1, 2, data, h⟩]

/-- A thread has counters to show when its capture returns. -/
theorem exists_shows {thread : CaptureThread (List FixMessageSummary)} {counters : Counters}
    (h : (extractAll { rb := thread.rb } thread.packets).map CaptureContext.counters =
      .ok counters) :
    thread.Shows { counters with fd := thread.fd, bytesTotal := thread.bytesTotal } := by
  cases hrun : extractAll { rb := thread.rb } thread.packets with
  | error fault =>
      rw [hrun] at h
      cases h
  | ok ctx =>
      rw [hrun] at h
      obtain rfl := Except.ok.inj h
      exact ⟨ctx, hrun, rfl⟩

/-- The counters of one new order. -/
def orderCounters : MonitoringCounters where
  validMessages := 1
  newOrderSingleCount := 1

/-- A thread that accepted one order. -/
theorem orderThread_shows :
    (threadOf newOrderExample.encode newOrderExample_fits).Shows orderCounters :=
  @exists_shows _ { validMessages := 1, newOrderSingleCount := 1 } (by decide +kernel)

/-- The gauges after that order. -/
theorem recovered_iff_newOrder :
    RecoveredBy perOutcomeGauges (gauges (fun _ => none) [orderCounters])
        ([threadOf newOrderExample.encode newOrderExample_fits].flatMap
          CaptureThread.outcomes) ↔
      ∀ outcome ∈ [threadOf newOrderExample.encode newOrderExample_fits].flatMap
        CaptureThread.outcomes, ¬ OtherError outcome :=
  recovered_iff (.cons orderThread_shows .nil) _

/-- A message whose BodyLength is no number. -/
def badBodyLength : List UInt8 :=
  ascii "8=FIX.4.2" ++ [SOH] ++ ascii "9=x" ++ [SOH] ++ ascii "35=D" ++ [SOH]

/-- The thread that has received it. -/
def badThread : CaptureThread (List FixMessageSummary) := threadOf badBodyLength (by decide)

/-- Gauges that are all zero. -/
theorem gaugeValue_eq_zero {gauges : List (String × Int)} (h : ∀ gauge ∈ gauges, gauge.2 = 0)
    (name : String) : gaugeValue gauges name = 0 := by
  unfold gaugeValue
  cases hlookup : gauges.lookup name with
  | none => rfl
  | some value =>
      obtain ⟨before, after, rfl, -⟩ := List.lookup_eq_some_iff.mp hlookup
      exact h (name, value) (List.mem_append_right _ List.mem_cons_self)

/-- The message is rejected, and no choice of gauges shows it. -/
theorem not_recovered_badBodyLength :
    badThread.Shows { parsingErrors := 1 } ∧
      ∀ names, ¬ RecoveredBy names (gauges (fun _ => none) [{ parsingErrors := 1 }])
        ([badThread].flatMap CaptureThread.outcomes) := by
  refine ⟨@exists_shows badThread { parsingErrors := 1 } (by decide +kernel), ?_⟩
  intro names h
  have houtcomes : [badThread].flatMap CaptureThread.outcomes = [.tagInvalid] := by
    decide +kernel
  have hzero : ∀ gauge ∈ gauges (fun _ => none) [{ parsingErrors := 1 }], gauge.2 = 0 := by
    decide
  have hsum :
      (names.map (gaugeValue (gauges (fun _ => none) [{ parsingErrors := 1 }]))).sum = 0 := by
    rw [List.map_congr_left fun name _ => gaugeValue_eq_zero hzero name]
    simp
  rw [RecoveredBy, houtcomes, hsum] at h
  revert h
  decide

end Vmars
