import Vmars.CMemory

/-!
# The FIX message parser (`fixparser.c`)

`vmarsFixParseMsg` is `vmars_fix_parse_msg`: the header test, the scan of
BodyLength into a 32-bit `int`, the guard against the end of the buffer, the
blocked checksum, the comparison with the digits at a fixed offset, and the
nested tag and value loops.  Instead of calling function pointers it returns the
calls it makes, in order; a value handed to `tagp` is a range of the buffer.

Every loop is structural in the number of bytes before the end of its range,
which is the number of rounds that the C loop condition leaves.
-/

namespace Vmars

open CMemory

/-- The byte SOH, `'\x01'`. -/
def SOH : UInt8 := 1

/-- The byte `'='`. -/
def equalsSign : UInt8 := 61

/-- `INITIAL_HEADER_42`. -/
def initialHeader42 : List UInt8 := ascii "8=FIX.4.2" ++ SOH :: ascii "9="

/-- `INITIAL_HEADER_44`. -/
def initialHeader44 : List UInt8 := ascii "8=FIX.4.4" ++ SOH :: ascii "9="

/-- `INITIAL_HEADER_LEN`. -/
def initialHeaderLen : Nat := 12

/-- `CHECK_SUM_LEN`. -/
def checkSumLen : Nat := 7

/-- The results of the parser: `ok` is `0`, the others are the `FIX_E` codes. -/
inductive FixResult where
  | ok
  | messageTooShort
  | checksumInvalid
  | tagInvalid
  | emptyValue
  | invalidType
  deriving DecidableEq, Repr

/-- `vmars_fix_parse_result`. -/
structure VmarsFixParseResult where
  result : FixResult
  bytesConsumed : Int
  deriving DecidableEq, Repr

/-- The pointer and length that `tagp` receives: a range of the parsed buffer,
or the local array with the calculated checksum. -/
inductive TagValue where
  | inBuffer (start len : Nat)
  | calculatedChecksumStr (chars : List UInt8)
  deriving DecidableEq, Repr

/-- The characters that a callback receives. -/
def TagValue.bytes (buf : List UInt8) : TagValue → List UInt8
  | .inBuffer start len => (buf.drop start).take len
  | .calculatedChecksumStr chars => chars

/-- A call that the parser makes through one of its function pointers. -/
inductive Callback where
  | startp (msgLen fixType : Int)
  | tagp (tag : Int) (value : TagValue)
  | endp
  deriving DecidableEq, Repr

/-- What a run of the parser returns and which calls it made before. -/
structure ParseRun where
  ret : VmarsFixParseResult
  calls : List Callback
  deriving DecidableEq, Repr

/-- `FIX_OPT_SKIP_VERIFY_CHECKSUM` is not set. -/
def optValidateChecksum (options : Int32) : Bool := options &&& 1 == 0

/-- `FIX_OPT_REPORT_CALCULATED_CHECKSUM_FOR_TAG_10` is set. -/
def optReportCalculatedChecksum (options : Int32) : Bool := options &&& 2 != 0

/-! ## The checksum -/

/-- `_m_psadbw` against zero, for the `n` unsigned bytes from `pointer` on. -/
def psadbw (buf : List UInt8) : Nat → Nat → Checked Int
  | 0, _ => .ok 0
  | n + 1, pointer => do
      let b ← readAt buf pointer
      let rest ← psadbw buf n (pointer + 1)
      .ok (b.toNat + rest)

/-- `_mm_extract_pi16(dest, 0)`: the lowest 16 bits. -/
def mmExtractPi16 (dest : Int) : Int := dest % 65536

/-- The loop over the blocks of eight bytes. -/
def checksumBlocks (buf : List UInt8) : Nat → Nat → Int → Checked Int
  | 0, _, sum => .ok sum
  | ii + 1, pointer, sum => do
      let dest ← psadbw buf 8 pointer
      checksumBlocks buf ii (pointer + 8) (sum + mmExtractPi16 dest)

/-- The loop over the extra characters at the end, which are signed. -/
def checksumTail (buf : List UInt8) : Nat → Int → Int → Checked Int
  | 0, _, sum => .ok sum
  | n + 1, ii, sum => do
      let b ← readAt buf ii
      checksumTail buf n (ii + 1) (sum + charToInt b)

/-- `calculate_checksum`: `buf_len & 0x07` and `buf_len >> 3` are the remainder
and the quotient by eight, also for a negative length. -/
def calculateChecksum (buf : List UInt8) (bufLen : Int) : Checked Int := do
  let extra := bufLen % 8
  let ii := bufLen / 8
  let sum ← checksumBlocks buf ii.toNat 0 0
  let sum ← checksumTail buf extra.toNat (bufLen - extra) sum
  .ok (sum % 256)

/-- `supplied_checksum` of the three characters at `expected`. -/
def suppliedChecksum (buf : List UInt8) (expected : Int) : Checked Int := do
  let b0 ← readAt buf expected
  let b1 ← readAt buf (expected + 1)
  let b2 ← readAt buf (expected + 2)
  .ok ((charToInt b0 - 48) * 100 + (charToInt b1 - 48) * 10 + (charToInt b2 - 48))

/-- The array `calculated_checksum_str`. -/
def checksumStr (calculated : Int) : List UInt8 :=
  [calculated / 100, calculated / 10 % 10, calculated % 10].map
    fun d => (48 + d).toNat.toUInt8

/-! ## The loops -/

/-- `strncmp(&buf[i], header, length of header) == 0`, for a header without NUL. -/
def strncmpEq (buf : List UInt8) : List UInt8 → Nat → Checked Bool
  | [], _ => .ok true
  | c :: cs, i => do
      let b ← readAt buf i
      if b = c then strncmpEq buf cs (i + 1) else .ok false

/-- The shape of the two loops that read a decimal number, with `n` bytes before
`len`: the accumulated number and the position after the terminator (or `len`);
`none` is the return of `FIX_ETAGINVALID`. -/
def numberLoop (terminator : UInt8) (buf : List UInt8) :
    Nat → Nat → Int → Checked (Option (Int × Nat))
  | 0, position, number => .ok (some (number, position))
  | n + 1, position, number => do
      let b ← readAt buf position
      if isDigit b then
        numberLoop terminator buf n (position + 1) (wrap32 (number * 10 + digitValue b))
      else if b = terminator then .ok (some (number, position + 1))
      else .ok none

/-- The scan of BodyLength into `msg_len`, up to its SOH. -/
def bodyLengthLoop (buf : List UInt8) (n position : Nat) : Checked (Option (Int × Nat)) :=
  numberLoop SOH buf n position 0

/-- The scan of a tag, up to its `'='`. -/
def tagLoop (buf : List UInt8) (n position : Nat) : Checked (Option (Int × Nat)) :=
  numberLoop equalsSign buf n position 0

/-- The scan of a value with `n` bytes before `len`: the position after its
SOH; `none` when there is no SOH (`valueEndPosition == -1`). -/
def valueLoop (buf : List UInt8) : Nat → Nat → Checked (Option Nat)
  | 0, _ => .ok none
  | n + 1, position => do
      let b ← readAt buf position
      if b = SOH then .ok (some (position + 1)) else valueLoop buf n (position + 1)

/-- One round of the `do` loop: an early return, or a call of `tagp` and the
position after the field. -/
inductive FieldRound where
  | stop (result : FixResult)
  | call (tag : Int) (value : TagValue) (position : Nat)
  deriving DecidableEq, Repr

/-- The body of the `do` loop from `position` on. -/
def fieldRound (buf : List UInt8) (len : Int) (options : Int32) (calculated : Int)
    (position : Nat) : Checked FieldRound := do
  match ← tagLoop buf (len - position).toNat position with
  | none => .ok (.stop .tagInvalid)
  | some (tag, valueStart) =>
      match ← valueLoop buf (len - valueStart).toNat valueStart with
      | none => .ok (.stop .emptyValue)
      | some next =>
          if optReportCalculatedChecksum options ∧ tag = 10 then
            .ok (.call tag (.calculatedChecksumStr (checksumStr calculated)) next)
          else .ok (.call tag (.inBuffer valueStart (next - 1 - valueStart)) next)

/-- The `do ... while (position < len)` loop, for at most `fuel` rounds. -/
def fieldLoop (buf : List UInt8) (len : Int) (options : Int32) (calculated : Int) :
    Nat → Nat → Checked (FixResult × List Callback)
  | 0, _ => .error .diverged
  | fuel + 1, position => do
      match ← fieldRound buf len options calculated position with
      | .stop result => .ok (result, [])
      | .call tag value next =>
          if next < len then do
            let rest ← fieldLoop buf len options calculated fuel next
            .ok (rest.1, .tagp tag value :: rest.2)
          else .ok (.ok, [.tagp tag value])

/-- A return before the first callback. -/
def rejected (result : FixResult) (bytesConsumed : Int) : ParseRun :=
  { ret := { result, bytesConsumed }, calls := [] }

/-- `vmars_fix_parse_msg` after the scan of BodyLength. -/
def parseBody (buf : List UInt8) (len fixType : Int) (options : Int32) (msgLen : Int)
    (position : Nat) : Checked ParseRun :=
  if msgLen = 0 ∨ msgLen > len - position - checkSumLen then
    .ok (rejected .messageTooShort len)
  else do
    let len := msgLen + position + checkSumLen
    let calculated ← calculateChecksum buf (msgLen + position)
    let checksum ← suppliedChecksum buf (position + msgLen + 3)
    if optValidateChecksum options ∧ calculated ≠ checksum then
      .ok (rejected .checksumInvalid len)
    else do
      let run ← fieldLoop buf len options calculated ((len - position).toNat + 1) position
      .ok { ret := { result := run.1, bytesConsumed := len }
            calls := .startp msgLen fixType :: run.2 ++
              if run.1 = .ok then [.endp] else [] }

/-- `vmars_fix_parse_msg` on the `len` bytes at `buf`, with all three callbacks
given.  The second header test overwrites the outcome of the first. -/
def vmarsFixParseMsg (buf : List UInt8) (len : Int) (options : Int32) : Checked ParseRun :=
  if initialHeaderLen > len then .ok (rejected .messageTooShort len)
  else do
    let is42 ← strncmpEq buf initialHeader42 0
    let is44 ← strncmpEq buf initialHeader44 0
    let fixType := if is44 then 44 else if is42 then 42 else -1
    if fixType = -1 then .ok (rejected .invalidType len)
    else do
      match ← bodyLengthLoop buf (len - initialHeaderLen).toNat initialHeaderLen with
      | none => .ok (rejected .tagInvalid len)
      | some (msgLen, position) => parseBody buf len fixType options msgLen position

end Vmars
