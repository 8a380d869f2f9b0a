import Vmars.FixDetails
import Vmars.SimpleBoyerMoore
import Vmars.SpscRb

/-!
# Extracting messages from packets (`fix.c`)

`vmarsExtractFixMessages` takes the data of one packet: bytes before the first
marker continue the stored fragment of the stream, every marker starts a message,
and what is left over becomes the new fragment.  The table of fragments is a
finite map on streams.

The ring is a parameter: a real `SpscRb`, or the list of all summaries, which is
a ring that always has room.  The field `accepted` of the context is no part of
the source; it records the bytes of the messages that were parsed with result 0.
-/

namespace Vmars

open CMemory

/-! ## Streams and fragments -/

/-- `ipv4_stream_t`. -/
structure Ipv4Stream where
  saddr : UInt32
  daddr : UInt32
  sport : UInt16
  dport : UInt16
  deriving DecidableEq, Repr

/-- `ipv4_stream_hash`. -/
def ipv4StreamHash (streamId : Ipv4Stream) : UInt32 :=
  ((streamId.saddr * 31 + streamId.daddr) * 31 + streamId.sport.toUInt32) * 31 +
    streamId.dport.toUInt32

/-- `ipv4_stream_equal`. -/
def ipv4StreamEqual (a b : Ipv4Stream) : Bool :=
  a.saddr == b.saddr && a.daddr == b.daddr && a.sport == b.sport && a.dport == b.dport

/-- The table keeps apart exactly the streams that differ somewhere. -/
theorem ipv4StreamEqual_iff {a b : Ipv4Stream} : ipv4StreamEqual a b = true ↔ a = b := by
  cases a
  cases b
  simp [ipv4StreamEqual, and_assoc]

/-- `MAX_FRAGMENT_TOTAL_SIZE`. -/
def maxFragmentTotalSize : Nat := 4096

/-- The capacity of every fragment: the allocation less `sizeof(fragment_t)`. -/
def fragmentCapacity : Nat := maxFragmentTotalSize - 8

/-- `fragment_t`: the first `len` of its bytes, inside the allocation. -/
structure Fragment where
  s : List UInt8
  length_le : s.length ≤ fragmentCapacity
  deriving DecidableEq, Repr

/-! ## The capture context -/

/-- The counters that `fix.c` increments. -/
structure Counters where
  invalidChecksums : Int := 0
  corruptMessages : Int := 0
  validMessages : Int := 0
  parsingErrors : Int := 0
  massQuoteCount : Int := 0
  massQuoteAckCount : Int := 0
  newOrderSingleCount : Int := 0
  executionReportNewCount : Int := 0
  traceRequestCount : Int := 0
  traceRepsonseCount : Int := 0
  deriving DecidableEq, Repr

/-- What `process_for_latency_measurement` does with the ring. -/
class RingBuffer (R : Type) where
  /-- Claims a record, writes the summary and publishes it; without room the
  summary is dropped. -/
  push : R → FixMessageSummary → R

/-- A ring with room for every summary, as the list of what was published. -/
instance : RingBuffer (List FixMessageSummary) where
  push log summary := log ++ [summary]

/-- The summary in a record of the ring. -/
def SpscRb.push (rb : SpscRb) (summary : FixMessageSummary) : SpscRb :=
  match vmarsSpscRbClaim rb (sizeofFixMessageSummary + (summary.key.length + 1)) with
  | (rb, none) => rb
  | (rb, some record) =>
      (vmarsSpscRbPublish (rb.storeBytes (record + sizeofRbRecord) summary.bytes) record).1

instance : RingBuffer SpscRb where
  push := SpscRb.push

/-- `vmars_capture_context_t`: the ring, the counters and the table of fragments,
which is created on demand. -/
structure CaptureContext (R : Type) where
  rb : R
  counters : Counters := {}
  state : Option (Ipv4Stream → Option Fragment) := none
  /-- The accepted messages, oldest first. -/
  accepted : List (List UInt8) := []

section Extraction

variable {R : Type} [RingBuffer R]

/-- `get_fragment`. -/
def getFragment (ctx : CaptureContext R) (streamId : Ipv4Stream) : Option Fragment :=
  match ctx.state with
  | none => none
  | some fragmentMap => fragmentMap streamId

/-- Stores the bytes as the fragment of a stream; they must fit the allocation. -/
def storeFragment (ctx : CaptureContext R) (streamId : Ipv4Stream) (s : List UInt8) :
    Checked (CaptureContext R) :=
  if h : s.length ≤ fragmentCapacity then
    .ok { ctx with
          state := some (Function.update (ctx.state.getD fun _ => none) streamId (some ⟨s, h⟩)) }
  else .error (.overflow s.length)

/-- `put_fragment`: `strncpy` with `len` as a `size_t` and no look at the
capacity of the fragment. -/
def putFragment (ctx : CaptureContext R) (streamId : Ipv4Stream) (message : List UInt8)
    (len : Int) : Checked (CaptureContext R) :=
  if 0 ≤ len ∧ len ≤ fragmentCapacity then do
    let s ← strncpy message len.toNat
    storeFragment ctx streamId s
  else .error (.overflow len)

/-- `remove_fragment`. -/
def removeFragment (ctx : CaptureContext R) (streamId : Ipv4Stream) : CaptureContext R :=
  match ctx.state with
  | none => ctx
  | some fragmentMap => { ctx with state := some (Function.update fragmentMap streamId none) }

/-- `record_message_type_counter`. -/
def recordMessageTypeCounter (counters : Counters) (messageType : Int) : Counters :=
  if messageType = msgTypeNewOrderSingle then
    { counters with newOrderSingleCount := counters.newOrderSingleCount + 1 }
  else if messageType = msgTypeMassQuote then
    { counters with massQuoteCount := counters.massQuoteCount + 1 }
  else if messageType = msgTypeTraceReq then
    { counters with traceRequestCount := counters.traceRequestCount + 1 }
  else if messageType = msgTypeExecutionReport then
    { counters with executionReportNewCount := counters.executionReportNewCount + 1 }
  else if messageType = msgTypeMassQuoteAck then
    { counters with massQuoteAckCount := counters.massQuoteAckCount + 1 }
  else if messageType = msgTypeTraceRsp then
    { counters with traceRepsonseCount := counters.traceRepsonseCount + 1 }
  else counters

/-- `process_for_latency_measurement`. -/
def processForLatencyMeasurement (ctx : CaptureContext R) (tvSec tvNsec : UInt32)
    (details : FixDetails) : Checked (CaptureContext R) := do
  match ← summaryOf tvSec tvNsec details with
  | none => .ok ctx
  | some summary =>
      .ok { ctx with
            counters := recordMessageTypeCounter ctx.counters details.messageType
            rb := RingBuffer.push ctx.rb summary }

/-- How `try_parse_fix_message` counts a result. -/
def countResult (counters : Counters) : FixResult → Counters
  | .ok => { counters with validMessages := counters.validMessages + 1 }
  | .messageTooShort => counters
  | .checksumInvalid => { counters with invalidChecksums := counters.invalidChecksums + 1 }
  | _ => { counters with parsingErrors := counters.parsingErrors + 1 }

/-- `try_parse_fix_message`: the context, the parser's result and the details. -/
def tryParseFixMessage (ctx : CaptureContext R) (fixMessage : List UInt8) (len : Int) :
    Checked (CaptureContext R × VmarsFixParseResult × FixDetails) := do
  let run ← vmarsFixParseMsg fixMessage len 0
  let details ← collect fixMessage run.calls {}
  .ok ({ ctx with
          counters := countResult ctx.counters run.ret.result
          accepted :=
            if run.ret.result = .ok then
              ctx.accepted ++ [fixMessage.take run.ret.bytesConsumed.toNat]
            else ctx.accepted },
        run.ret, details)

/-! ## Extraction -/

/-- The text that starts every message, the pattern of the matcher that
`vmars_poll_socket` hands to every context. -/
def marker : List UInt8 := ascii "8=FIX.4."

/-- `ctx->matcher`. -/
def matcher : BoyermooreS := boyermooreInit marker

/-- The data of a packet of a stream, with its time stamp.  A captured packet is
far shorter than an `int` can count. -/
structure Packet where
  streamId : Ipv4Stream
  tvSec : UInt32
  tvNsec : UInt32
  data : List UInt8
  length_le : data.length + marker.length ≤ intMax

/-- The search for the marker behind the message at `curr`.  The comparison with
`matcher->len` is one of `size_t`. -/
def searchNext (data : List UInt8) (curr : Nat) (bufRemaining : Int) : Checked (Option Nat) :=
  if toSize bufRemaining > matcher.len then do
    let haystack ← pointerAt data (curr + matcher.len : Nat)
    let hit ← boyermooreSearch matcher haystack (wrap32 (bufRemaining - matcher.len))
    .ok (hit.map (curr + matcher.len + ·))
  else .ok none

/-- A round of the `while` loop for the message at `curr`: the context, the next
message and `buf_remaining`.  The parser sees the bytes from the message on; to
`extractRoundAt` those in front of it are in sight as well. -/
def extractRound (packet : Packet) (ctx : CaptureContext R) (curr : Nat) (bufRemaining : Int) :
    Checked (CaptureContext R × Option Nat × Int) := do
  let next ← searchNext packet.data curr bufRemaining
  let fixMessageLen : Int :=
    match next with
    | none => bufRemaining
    | some next => next - curr
  let fixMessage ← pointerAt packet.data curr
  let (ctx, result, details) ← tryParseFixMessage ctx fixMessage fixMessageLen
  let bufRemaining := wrap32 (bufRemaining - result.bytesConsumed)
  if result.result = .ok then do
    let ctx ← processForLatencyMeasurement ctx packet.tvSec packet.tvNsec details
    .ok (ctx, next, bufRemaining)
  else if result.result = .messageTooShort then do
    let ctx ← putFragment ctx packet.streamId fixMessage fixMessageLen
    .ok (ctx, next, bufRemaining)
  else .ok (ctx, next, bufRemaining)

/-- The `while` loop, for at most `fuel` rounds. -/
def extractLoop (packet : Packet) :
    Nat → CaptureContext R → Option Nat → Int → Checked (CaptureContext R × Int)
  | _, ctx, none, bufRemaining => .ok (ctx, bufRemaining)
  | 0, _, some _, _ => .error .diverged
  | fuel + 1, ctx, some curr, bufRemaining => do
      let (ctx, next, bufRemaining) ← extractRound packet ctx curr bufRemaining
      extractLoop packet fuel ctx next bufRemaining

/-- The bytes before the first marker, `fragmentLen` of them: stored when they
may be the start of a marker, or appended to the stored fragment. -/
def leadingFragment (packet : Packet) (ctx : CaptureContext R) (fragmentLen : Nat) :
    Checked (CaptureContext R) :=
  match getFragment ctx packet.streamId with
  | none =>
      if packet.data.length < matcher.len then
        putFragment ctx packet.streamId packet.data packet.data.length
      else
        .ok { ctx with
              counters.corruptMessages := ctx.counters.corruptMessages + 1 }
  | some fragment =>
      if fragment.s.length + fragmentLen < fragmentCapacity then do
        let tail ← strncpy packet.data fragmentLen
        let s := fragment.s ++ tail
        let ctx ← storeFragment ctx packet.streamId s
        let (ctx, result, details) ← tryParseFixMessage ctx s s.length
        let ctx ←
          if result.result = .ok then
            processForLatencyMeasurement ctx packet.tvSec packet.tvNsec details
          else .ok ctx
        .ok (if result.result ≠ .messageTooShort then removeFragment ctx packet.streamId else ctx)
      else .ok ctx

/-- `vmars_extract_fix_messages`. -/
def vmarsExtractFixMessages (ctx : CaptureContext R) (packet : Packet) :
    Checked (CaptureContext R) := do
  let bufRemaining := wrap32 packet.data.length
  let curr ← boyermooreSearch matcher packet.data bufRemaining
  let (ctx, bufRemaining) ←
    if curr ≠ some 0 then do
      let fragmentLen := curr.getD packet.data.length
      let ctx ← leadingFragment packet ctx fragmentLen
      .ok (ctx, wrap32 (bufRemaining - fragmentLen))
    else .ok (ctx, bufRemaining)
  let (ctx, bufRemaining) ←
    extractLoop packet (packet.data.length + 1) ctx curr bufRemaining
  if bufRemaining > 0 then do
    let rest ← pointerAt packet.data (packet.data.length - bufRemaining)
    putFragment ctx packet.streamId rest bufRemaining
  else .ok ctx

/-- The packets of a capture, one after the other. -/
def extractAll (ctx : CaptureContext R) : List Packet → Checked (CaptureContext R)
  | [] => .ok ctx
  | packet :: packets => do
      let ctx ← vmarsExtractFixMessages ctx packet
      extractAll ctx packets

end Extraction

end Vmars
