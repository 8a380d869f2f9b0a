import Vmars.FixExtraction

/-!
# The parser in front of its message (`fixparser.c`, `fix.c`)

`vmars_extract_fix_messages` hands the parser a pointer into the packet.  When a BodyLength wraps
to a negative `int` the parser computes the checksum and reads the supplied one in front of
the message.  To `vmarsFixParseMsg`, which sees its buffer and nothing else, such a read is a
fault; inside a packet there are bytes, and the code goes on with a negative number of consumed
bytes.  This is the extraction with these bytes in sight.

* `extractAllAt_extends`: it differs from `extractAll` only where that reads out of bounds.  What
  is proved of calls that return holds here too.
-/

namespace Vmars

open CMemory Occurrence

/-! ## The code -/

/-- `calculate_checksum` of the message at `curr`. -/
def calculateChecksumAt (data : List UInt8) (curr : Nat) (bufLen : Int) : Checked Int := do
  let extra := bufLen % 8
  let ii := bufLen / 8
  let sum ← checksumBlocks data ii.toNat curr 0
  let sum ← checksumTail data extra.toNat (curr + (bufLen - extra)) sum
  .ok (sum % 256)

/-- `vmars_fix_parse_msg` after the scan of BodyLength, for the message at `curr`.  Only the two
checksums can be in front of it: the fields are read from `position` on. -/
def parseBodyAt (data : List UInt8) (curr : Nat) (len fixType : Int) (options : Int32)
    (msgLen : Int) (position : Nat) : Checked ParseRun :=
  if msgLen = 0 ∨ msgLen > len - position - checkSumLen then
    .ok (rejected .messageTooShort len)
  else do
    let len := msgLen + position + checkSumLen
    let calculated ← calculateChecksumAt data curr (msgLen + position)
    let checksum ← suppliedChecksum data (curr + (position + msgLen + 3))
    if optValidateChecksum options ∧ calculated ≠ checksum then
      .ok (rejected .checksumInvalid len)
    else do
      let run ← fieldLoop (data.drop curr) len options calculated
        ((len - position).toNat + 1) position
      .ok { ret := { result := run.1, bytesConsumed := len }
            calls := .startp msgLen fixType :: run.2 ++
              if run.1 = .ok then [.endp] else [] }

/-- `vmars_fix_parse_msg` on the `len` bytes of the message at `curr`. -/
def vmarsFixParseMsgAt (data : List UInt8) (curr : Nat) (len : Int) (options : Int32) :
    Checked ParseRun :=
  if initialHeaderLen > len then .ok (rejected .messageTooShort len)
  else do
    let is42 ← strncmpEq (data.drop curr) initialHeader42 0
    let is44 ← strncmpEq (data.drop curr) initialHeader44 0
    let fixType := if is44 then 44 else if is42 then 42 else -1
    if fixType = -1 then .ok (rejected .invalidType len)
    else do
      match ← bodyLengthLoop (data.drop curr) (len - initialHeaderLen).toNat initialHeaderLen with
      | none => .ok (rejected .tagInvalid len)
      | some (msgLen, position) => parseBodyAt data curr len fixType options msgLen position

section Extraction

variable {R : Type} [RingBuffer R]

/-- `try_parse_fix_message` for the message at `curr`. -/
def tryParseFixMessageAt (ctx : CaptureContext R) (data : List UInt8) (curr : Nat) (len : Int) :
    Checked (CaptureContext R × VmarsFixParseResult × FixDetails) := do
  let run ← vmarsFixParseMsgAt data curr len 0
  let details ← collect (data.drop curr) run.calls {}
  .ok ({ ctx with
          counters := countResult ctx.counters run.ret.result
          accepted :=
            if run.ret.result = .ok then
              ctx.accepted ++ [(data.drop curr).take run.ret.bytesConsumed.toNat]
            else ctx.accepted },
        run.ret, details)

/-- A round of the `while` loop for the message at `curr`. -/
def extractRoundAt (packet : Packet) (ctx : CaptureContext R) (curr : Nat) (bufRemaining : Int) :
    Checked (CaptureContext R × Option Nat × Int) := do
  let next ← searchNext packet.data curr bufRemaining
  let fixMessageLen : Int :=
    match next with
    | none => bufRemaining
    | some next => next - curr
  let fixMessage ← pointerAt packet.data curr
  let (ctx, result, details) ← tryParseFixMessageAt ctx packet.data curr fixMessageLen
  let bufRemaining := wrap32 (bufRemaining - result.bytesConsumed)
  if result.result = .ok then do
    let ctx ← processForLatencyMeasurement ctx packet.tvSec packet.tvNsec details
    .ok (ctx, next, bufRemaining)
  else if result.result = .messageTooShort then do
    let ctx ← putFragment ctx packet.streamId fixMessage fixMessageLen
    .ok (ctx, next, bufRemaining)
  else .ok (ctx, next, bufRemaining)

/-- The `while` loop, for at most `fuel` rounds. -/
def extractLoopAt (packet : Packet) :
    Nat → CaptureContext R → Option Nat → Int → Checked (CaptureContext R × Int)
  | _, ctx, none, bufRemaining => .ok (ctx, bufRemaining)
  | 0, _, some _, _ => .error .diverged
  | fuel + 1, ctx, some curr, bufRemaining => do
      let (ctx, next, bufRemaining) ← extractRoundAt packet ctx curr bufRemaining
      extractLoopAt packet fuel ctx next bufRemaining

/-- `vmars_extract_fix_messages`. -/
def vmarsExtractFixMessagesAt (ctx : CaptureContext R) (packet : Packet) :
    Checked (CaptureContext R) := do
  let bufRemaining := wrap32 packet.data.length
  let curr ← boyermooreSearch matcher packet.data bufRemaining
  let (ctx, bufRemaining) ←
    if curr ≠ some 0 then do
      let fragmentLen := curr.getD packet.data.length
      let ctx ← leadingFragment packet ctx fragmentLen
      .ok (ctx, wrap32 (bufRemaining - fragmentLen))
    else .ok (ctx, bufRemaining)
  let (ctx, bufRemaining) ←
    extractLoopAt packet (packet.data.length + 1) ctx curr bufRemaining
  storeLeftover packet ctx bufRemaining

/-- A call from its loop on. -/
def finishPacketAt (packet : Packet) (ctx : CaptureContext R) (curr : Option Nat)
    (bufRemaining : Int) : Checked (CaptureContext R) := do
  let (ctx, bufRemaining) ← extractLoopAt packet (packet.data.length + 1) ctx curr bufRemaining
  storeLeftover packet ctx bufRemaining

/-- The packets of a capture, one after the other. -/
def extractAllAt (ctx : CaptureContext R) : List Packet → Checked (CaptureContext R)
  | [] => .ok ctx
  | packet :: packets => do
      let ctx ← vmarsExtractFixMessagesAt ctx packet
      extractAllAt ctx packets

end Extraction

/-! ## The parser -/

section Parser

variable (data : List UInt8) (curr : Nat)

/-- Eight bytes from a pointer on, by induction on their number. -/
theorem psadbw_extends (n pointer : Nat) :
    Extends (psadbw (data.drop curr) n pointer) (psadbw data n (curr + pointer)) := by
  induction n generalizing pointer with
  | zero => exact .same _
  | succ n ih =>
      refine (readAt_extends data curr pointer).bind fun b => ?_
      exact (ih (pointer + 1)).bind fun rest => .same _

/-- The loop over the blocks starts at the front of the message. -/
theorem checksumBlocks_extends (ii pointer : Nat) (sum : Int) :
    Extends (checksumBlocks (data.drop curr) ii pointer sum)
      (checksumBlocks data ii (curr + pointer) sum) := by
  induction ii generalizing pointer sum with
  | zero => exact .same _
  | succ ii ih =>
      exact (psadbw_extends data curr 8 pointer).bind fun dest => ih (pointer + 8) _

/-- The loop over the last bytes may start in front of it. -/
theorem checksumTail_extends (n : Nat) (ii sum : Int) :
    Extends (checksumTail (data.drop curr) n ii sum) (checksumTail data n (curr + ii) sum) := by
  induction n generalizing ii sum with
  | zero => exact .same _
  | succ n ih =>
      refine (readAt_extends data curr ii).bind fun b => ?_
      have hnext := ih (ii + 1) (sum + charToInt b)
      rwa [← Int.add_assoc] at hnext

/-- The checksum. -/
theorem calculateChecksum_extends (bufLen : Int) :
    Extends (calculateChecksum (data.drop curr) bufLen)
      (calculateChecksumAt data curr bufLen) := by
  refine (checksumBlocks_extends data curr _ 0 0).bind fun sum => ?_
  exact (checksumTail_extends data curr _ _ sum).bind fun sum => .same _

/-- The three digits of the supplied checksum. -/
theorem suppliedChecksum_extends (expected : Int) :
    Extends (suppliedChecksum (data.drop curr) expected)
      (suppliedChecksum data (curr + expected)) := by
  refine (readAt_extends data curr expected).bind fun b0 => ?_
  rw [Int.add_assoc, Int.add_assoc]
  refine (readAt_extends data curr (expected + 1)).bind fun b1 => ?_
  exact (readAt_extends data curr (expected + 2)).bind fun b2 => .same _

/-- The fields are read from the message on in both, behind the two checksums. -/
theorem parseBody_extends (len fixType : Int) (options : Int32) (msgLen : Int) (position : Nat) :
    Extends (parseBody (data.drop curr) len fixType options msgLen position)
      (parseBodyAt data curr len fixType options msgLen position) := by
  unfold parseBody parseBodyAt
  split
  · exact .same _
  · refine (calculateChecksum_extends data curr _).bind fun calculated => ?_
    exact (suppliedChecksum_extends data curr _).bind fun checksum => .same _

/-- **The parser in a packet** goes on only where the parser on the message alone reads out of
bounds. -/
theorem vmarsFixParseMsg_extends (len : Int) (options : Int32) :
    Extends (vmarsFixParseMsg (data.drop curr) len options)
      (vmarsFixParseMsgAt data curr len options) := by
  unfold vmarsFixParseMsg vmarsFixParseMsgAt
  split
  · exact .same _
  · refine Extends.bind_self fun is42 _ => ?_
    refine Extends.bind_self fun is44 _ => ?_
    dsimp only
    generalize (if is44 = true then (44 : Int) else if is42 = true then 42 else -1) = fixType
    split
    · exact .same _
    · refine Extends.bind_self fun scan _ => ?_
      cases scan with
      | none => exact .same _
      | some scan => exact parseBody_extends data curr _ _ _ _ _

end Parser

/-! ## The extraction -/

section Extraction

variable {R : Type} [RingBuffer R] {packet : Packet}

omit [RingBuffer R] in
/-- The parser and its callbacks. -/
theorem tryParse_extends (ctx : CaptureContext R) (data : List UInt8) (curr : Nat) (len : Int) :
    Extends (tryParseFixMessage ctx (data.drop curr) len)
      (tryParseFixMessageAt ctx data curr len) :=
  (vmarsFixParseMsg_extends data curr len 0).bind fun _ => .same _

/-- A round of the loop. -/
theorem extractRound_extends (ctx : CaptureContext R) (curr : Nat) (bufRemaining : Int) :
    Extends (extractRound packet ctx curr bufRemaining)
      (extractRoundAt packet ctx curr bufRemaining) := by
  unfold extractRound extractRoundAt
  refine Extends.bind_self fun next _ => ?_
  refine Extends.bind_self fun message hmessage => ?_
  obtain ⟨-, rfl⟩ := pointerAt_eq_ok hmessage
  exact (tryParse_extends ctx packet.data curr _).bind fun parsed => .same _

/-- Without a message the loop is over. -/
theorem extractLoopAt_none (fuel : Nat) (ctx : CaptureContext R) (bufRemaining : Int) :
    extractLoopAt packet fuel ctx none bufRemaining = .ok (ctx, bufRemaining) := by
  cases fuel <;> rfl

/-- The loop, by induction on its fuel. -/
theorem extractLoop_extends (fuel : Nat) (ctx : CaptureContext R) (curr : Option Nat)
    (bufRemaining : Int) :
    Extends (extractLoop packet fuel ctx curr bufRemaining)
      (extractLoopAt packet fuel ctx curr bufRemaining) := by
  induction fuel generalizing ctx curr bufRemaining with
  | zero => cases curr <;> exact .same _
  | succ fuel ih =>
      cases curr with
      | none => exact .same _
      | some curr =>
          exact (extractRound_extends ctx curr bufRemaining).bind fun round => ih _ _ _

/-- A call, with the first marker found: the bytes before it, and the loop. -/
theorem extractAt_eq (ctx : CaptureContext R) (packet : Packet) :
    vmarsExtractFixMessagesAt ctx packet =
      let first := firstOccurrence marker packet.data
      let fragmentLen := first.getD packet.data.length
      if first ≠ some 0 then do
        let ctx ← leadingFragment packet ctx fragmentLen
        finishPacketAt packet ctx first (packet.data.length - fragmentLen : Nat)
      else finishPacketAt packet ctx first (packet.data.length - fragmentLen : Nat) := by
  rw [vmarsExtractFixMessagesAt, searchFirst_eq, ok_bind]
  dsimp only
  rw [packet.wrap32_length]
  split
  · rw [← @Packet.wrap32_behind packet _ rfl]
    cases leadingFragment packet ctx
        ((firstOccurrence marker packet.data).getD packet.data.length) with
    | error fault => rfl
    | ok ctx₁ => rfl
  · next hzero =>
    rw [not_not.mp hzero, Option.getD_some, Nat.sub_zero]
    rfl

/-- **A call in front of whose messages there are bytes** is the call of `extractAll` wherever
that does not read out of bounds. -/
theorem vmarsExtractFixMessages_extends (ctx : CaptureContext R) (packet : Packet) :
    Extends (vmarsExtractFixMessages ctx packet) (vmarsExtractFixMessagesAt ctx packet) := by
  unfold vmarsExtractFixMessages vmarsExtractFixMessagesAt
  refine Extends.bind_self fun curr _ => ?_
  dsimp only
  split
  · refine Extends.bind_self fun ctx _ => ?_
    exact (extractLoop_extends _ _ _ _).bind fun left => .same _
  · exact (extractLoop_extends _ _ _ _).bind fun left => .same _

/-- **A capture in sight of its packets** is the capture of `extractAll` wherever that does
not read out of bounds. -/
theorem extractAllAt_extends (ctx : CaptureContext R) (packets : List Packet) :
    Extends (extractAll ctx packets) (extractAllAt ctx packets) := by
  induction packets generalizing ctx with
  | nil => exact .same _
  | cons packet packets ih =>
      exact (vmarsExtractFixMessages_extends ctx packet).bind fun ctx => ih ctx

end Extraction

end Vmars
