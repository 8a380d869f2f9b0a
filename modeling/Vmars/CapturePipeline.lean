import Vmars.CaptureLog
import Vmars.CaptureSteps
import Vmars.Pipeline

/-!
# From the blocks of the kernel to the histogram

The whole of vmars: each capture thread walks over its retired blocks, extracts the messages
and publishes their summaries in its ring, and the latency handler drains all rings.

What a thread publishes does not depend on its ring (`CaptureRun.pollSocket_rb`), so a thread is the
log of its capture, and every summary of a log fits its record (`captureLog_fits`).

* `capture_pipeline`: **what is measured depends on the blocks and not on the schedule**, as
  long as no ring overflows and no key is captured by two threads.
-/

namespace Vmars

open CMemory

/-- What a capture thread publishes for its retired blocks. -/
def captureLog (port : Int) (blocks : List (List UInt8)) : Checked (List FixMessageSummary) := do
  let th ← pollSocket port { ctx := { rb := [] }, bytesTotal := 0 } blocks
  .ok th.ctx.rb

/-- **A capture publishes only summaries that fit**, whatever is in the blocks. -/
theorem captureLog_fits {port : Int} {blocks : List (List UInt8)} {log : List FixMessageSummary}
    (h : captureLog port blocks = .ok log) : ∀ summary ∈ log, summary.Fits := by
  obtain ⟨th, hwalk, h⟩ := bind_eq_ok.mp h
  obtain rfl := Except.ok.inj h
  apply (walkBlocks_steps hwalk).fits (by decide)
  intro summary hsummary
  cases hsummary

/-- A capture thread that does not fault: its ring, its port, its retired blocks and what it
publishes for them. -/
structure CaptureRun where
  capacity : Nat
  port : Int
  blocks : List (List UInt8)
  log : List FixMessageSummary
  isRingCapacity : IsRingCapacity capacity
  captured : captureLog port blocks = .ok log

namespace CaptureRun

/-- The thread in the pipeline. -/
def thread (capture : CaptureRun) : Nat × List FixMessageSummary := (capture.capacity, capture.log)

/-- The same walk over the thread's own ring publishes the same. -/
theorem pollSocket_rb (capture : CaptureRun) (rb : SpscRb) :
    ∃ th, pollSocket capture.port { ctx := { rb := rb }, bytesTotal := 0 } capture.blocks =
        .ok th ∧
      th.ctx.rb = capture.log.foldl SpscRb.push rb := by
  obtain ⟨log, hwalk, hlog⟩ := bind_eq_ok.mp capture.captured
  have hrelated := (LoggedThread.initial rb).walkBlocks capture.port capture.blocks
  unfold pollSocket at hwalk ⊢
  rw [hwalk] at hrelated
  cases hth : walkBlocks (display capture.port) { ctx := { rb := rb }, bytesTotal := 0 }
      capture.blocks with
  | error fault =>
      rw [hth] at hrelated
      cases hrelated
  | ok th =>
      rw [hth] at hrelated
      cases hrelated with
      | ok hlogged =>
          refine ⟨th, rfl, ?_⟩
          rw [← Except.ok.inj hlog]
          exact hlogged.ctx.rb

end CaptureRun

/-- **What is measured depends on the blocks and not on the schedule.**  In every interleaving
of capture threads that do not fault with the latency handler, each ring carries the summaries of its own
thread in order; once all of them are handled, without a dropped one, they are those of the
blocks; and with no key in two threads the table and the latencies, up to their order, are
those of handling the threads one after the other. -/
theorem capture_pipeline (captures : List CaptureRun) {events : List PipelineEvent} {p : Pipeline}
    (hrun : (Pipeline.initial (captures.map CaptureRun.thread)).run events = some p) :
    p.Inv (captures.map CaptureRun.thread) ∧
      (p.Drained → p.handled = captures.flatMap CaptureRun.log) ∧
      (KeysApart (captures.map CaptureRun.thread) →
        p.latency.latencyTable = (calculateLatencies .init p.handled).latencyTable ∧
          p.latency.histogram.Perm (calculateLatencies .init p.handled).histogram) := by
  have hcapacities : ∀ thread ∈ captures.map CaptureRun.thread, IsRingCapacity thread.1 := by
    intro thread hthread
    obtain ⟨capture, -, rfl⟩ := List.mem_map.mp hthread
    exact capture.isRingCapacity
  have hfits : ∀ thread ∈ captures.map CaptureRun.thread, ∀ summary ∈ thread.2,
      summary.Fits := by
    intro thread hthread
    obtain ⟨capture, -, rfl⟩ := List.mem_map.mp hthread
    exact captureLog_fits capture.captured
  obtain ⟨hinv, hdrained, hapart⟩ := pipeline_schedule hcapacities hfits hrun
  refine ⟨hinv, fun h => ?_, hapart⟩
  rw [hdrained h, List.flatMap_map]
  rfl

/-- A block with one frame that carries a TCP payload from port 9999. -/
def blockOf (tvSec tvNsec : Nat) (payload : List UInt8) : List UInt8 :=
  List.replicate 8 0 ++ leBytes 4 tpStatus ++ leBytes 4 1 ++ leBytes 4 48 ++
    List.replicate 28 0 ++
    leBytes 4 0 ++ leBytes 4 tvSec ++ leBytes 4 tvNsec ++ leBytes 4 (54 + payload.length) ++
    leBytes 4 (54 + payload.length) ++ leBytes 4 0 ++ leBytes 2 48 ++ leBytes 2 62 ++
    List.replicate 20 0 ++
    List.replicate 12 0 ++ [8, 0] ++
    [0x45, 0] ++ leBytes 2 (ntohs (40 + payload.length)) ++
    [0, 0, 0, 0, 64, 6, 0, 0, 10, 0, 0, 1] ++ [10, 0, 0, 2] ++
    leBytes 2 (ntohs 9999) ++ leBytes 2 (ntohs 5001) ++ List.replicate 8 0 ++ [0x50] ++
    List.replicate 7 0 ++ payload
where
  /-- The block is the user's. -/
  tpStatus : Nat := 1

/-- An order and its report, captured in two blocks. -/
def orderCapture : CaptureRun where
  capacity := 128
  port := 9999
  blocks := [blockOf 7 300 orderExample.encode, blockOf 8 100 reportExample.encode]
  log := [⟨7, 300, 68, orderExample.requestKey⟩, ⟨8, 100, 56, orderExample.requestKey⟩]
  isRingCapacity := ⟨7, by decide, rfl⟩
  captured := by decide +kernel

/-- Those of another client, captured by another thread in a smaller ring. -/
def sellerCapture : CaptureRun where
  capacity := 64
  port := 9999
  blocks := [blockOf 7 400 sellerOrder.encode, blockOf 7 900 sellerReport.encode]
  log := [⟨7, 400, 68, sellerOrder.requestKey⟩, ⟨7, 900, 56, sellerOrder.requestKey⟩]
  isRingCapacity := ⟨6, by decide, rfl⟩
  captured := by decide +kernel

/-- Publications and polls of both threads in turn; the smaller ring has room for one summary
at a time. -/
def bothThreads : List PipelineEvent :=
  [.push 0, .push 1, .poll 1, .push 1, .peek 0, .poll 0, .poll 1, .push 0, .poll 0]

/-- All summaries of both threads get through. -/
theorem capture_pipeline_twoThreads :
    let p := ((Pipeline.initial ([orderCapture, sellerCapture].map CaptureRun.thread)).run
      bothThreads).get (by decide +kernel)
    p.Inv ([orderCapture, sellerCapture].map CaptureRun.thread) ∧
      p.handled = [orderCapture, sellerCapture].flatMap CaptureRun.log ∧
      p.latency.latencyTable = (calculateLatencies .init p.handled).latencyTable ∧
      p.latency.histogram.Perm (calculateLatencies .init p.handled).histogram := by
  intro p
  obtain ⟨hinv, hdrained, hapart⟩ := @capture_pipeline [orderCapture, sellerCapture] bothThreads p
    (Option.some_get _).symm
  have hall : p.Drained := by
    unfold Pipeline.Drained
    decide +kernel
  exact ⟨hinv, hdrained hall, hapart (keysApart_iff.mpr (by decide +kernel))⟩

end Vmars
