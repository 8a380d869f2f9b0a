import Vmars.FixParserSafety

/-!
# What a message contributes to the latency measurement (`fix.c`)

`handleTag` is the callback that collects the tags of interest while a message
is parsed, `summaryOf` is the part of `process_for_latency_measurement` that
chooses whether a message is measured and builds its summary: the ids swap their
roles between a request and its response, so that both get the same key.
-/

namespace Vmars

open CMemory

/-! ## Tags and message types -/

def fixClOrdId : Int := 11
def fixMsgType : Int := 35
def fixSecurityId : Int := 48
def fixSenderCompId : Int := 49
def fixSymbol : Int := 55
def fixTargetCompId : Int := 56
def fixQuoteId : Int := 117
def fixExecType : Int := 150
def fixQuoteStatus : Int := 297
def fixUnderlyingSecurityId : Int := 309
def fixUnderlyingSymbol : Int := 311

/-- `FIX_EXEC_TYPE_NEW`, `'0'`. -/
def fixExecTypeNew : Int := 48

/-- `FIX_QUOTE_STATUS_ACCEPTED`. -/
def fixQuoteStatusAccepted : Int := 0

/-- `INT_OF`: two characters in one `int`. -/
def intOf (x y : Int) : Int := x * 256 + y

def msgTypeNewOrderSingle : Int := 68
def msgTypeExecutionReport : Int := 56
def msgTypeMassQuote : Int := 105
def msgTypeMassQuoteAck : Int := 98
def msgTypeTraceReq : Int := intOf 120 114
def msgTypeTraceRsp : Int := intOf 120 115

/-! ## Numbers in values -/

/-- `isspace` in the C locale. -/
def isSpace (b : UInt8) : Bool := b = 32 || (9 ≤ b && b ≤ 13)

/-- The largest and the smallest number `strtol` returns. -/
def clampLong (x : Int) : Int := max (-9223372036854775808) (min x 9223372036854775807)

/-- `atoi` of a C string: white space, a sign, digits up to the first other
byte; the `long` that `strtol` returns is cast to `int`. -/
def atoi (s : List UInt8) : Int :=
  match s.dropWhile isSpace with
  | 45 :: s => wrap32 (clampLong (-(decimal (s.takeWhile isDigit) : Int)))
  | 43 :: s => wrap32 (clampLong (decimal (s.takeWhile isDigit)))
  | s => wrap32 (clampLong (decimal (s.takeWhile isDigit)))

/-- `str2int`: at most 31 characters are copied and converted. -/
def str2int (c : List UInt8) (len : Nat) : Checked Int :=
  if len > 31 then .ok (-1)
  else do
    let temp ← strncpy c len
    .ok (atoi (temp ++ [0]))

/-! ## The details of a message -/

/-- `fix_details_t`; a `str_t` is the characters it points to. -/
structure FixDetails where
  messageType : Int := 0
  execType : Int := 0
  quoteStatus : Int := 0
  senderCompId : List UInt8 := []
  clOrdId : List UInt8 := []
  targetCompId : List UInt8 := []
  symbol : List UInt8 := []
  securityId : List UInt8 := []
  deriving DecidableEq, Repr

/-- The cases of `handle_tag` that store the value as a `str_t`. -/
def FixDetails.storeStr (details : FixDetails) (fixTag : Int) (value : List UInt8) : FixDetails :=
  if fixTag = fixClOrdId then { details with clOrdId := value }
  else if fixTag = fixQuoteId then { details with clOrdId := value }
  else if fixTag = fixSenderCompId then { details with senderCompId := value }
  else if fixTag = fixTargetCompId then { details with targetCompId := value }
  else if fixTag = fixSymbol then { details with symbol := value }
  else if fixTag = fixSecurityId then { details with securityId := value }
  else if fixTag = fixUnderlyingSecurityId then { details with securityId := value }
  else if fixTag = fixUnderlyingSymbol then { details with symbol := value }
  else details

/-- `handle_tag`; `fixValue` is what can be read through the pointer, of which
`len` characters are the value. -/
def handleTag (details : FixDetails) (fixTag : Int) (fixValue : List UInt8) (len : Nat) :
    Checked FixDetails :=
  if fixTag = fixMsgType then
    if len = 1 then do
      let c ← readAt fixValue 0
      .ok { details with messageType := charToInt c }
    else if len = 2 then do
      let x ← readAt fixValue 0
      let y ← readAt fixValue 1
      .ok { details with messageType := intOf (charToInt x) (charToInt y) }
    else .ok details
  else if fixTag = fixExecType then do
    let c ← readAt fixValue 0
    .ok { details with execType := charToInt c }
  else if fixTag = fixQuoteStatus then do
    let status ← str2int fixValue len
    .ok { details with quoteStatus := status }
  else .ok (details.storeStr fixTag (fixValue.take len))

/-- What a callback of `try_parse_fix_message` does: only `tagp` is given. -/
def Callback.handle (buf : List UInt8) (details : FixDetails) : Callback → Checked FixDetails
  | .tagp tag (.inBuffer start len) => handleTag details tag (buf.drop start) len
  | .tagp tag (.calculatedChecksumStr chars) => handleTag details tag chars chars.length
  | _ => .ok details

/-- The details that the calls of a run collect, in order. -/
def collect (buf : List UInt8) (calls : List Callback) (details : FixDetails) :
    Checked FixDetails :=
  match calls with
  | [] => .ok details
  | call :: calls => do
      let details ← call.handle buf details
      collect buf calls details

/-! ## The summary of a message -/

/-- `vmars_fix_message_summary_t`; `key` is without its NUL. -/
structure FixMessageSummary where
  tvSec : Int
  tvNsec : Int
  msgType : Int
  key : List UInt8
  deriving DecidableEq, Repr

/-- `sizeof(vmars_fix_message_summary_t)`. -/
def sizeofFixMessageSummary : Nat := 24

/-- The bytes of a summary in a record. -/
def FixMessageSummary.bytes (summary : FixMessageSummary) : List UInt8 :=
  leBytes 8 summary.tvSec ++ leBytes 8 summary.tvNsec ++ leBytes 4 summary.msgType ++
    leBytes 4 summary.key.length ++ summary.key ++ [0]

/-- The `switch` of `process_for_latency_measurement`: the remote and the local
id of a message that is measured. -/
def measuredIds (details : FixDetails) : Option (List UInt8 × List UInt8) :=
  if details.messageType = msgTypeNewOrderSingle ∨ details.messageType = msgTypeMassQuote ∨
      details.messageType = msgTypeTraceReq then
    some (details.senderCompId, details.targetCompId)
  else if details.messageType = msgTypeExecutionReport then
    if details.execType = fixExecTypeNew then some (details.targetCompId, details.senderCompId)
    else none
  else if details.messageType = msgTypeMassQuoteAck then
    if details.quoteStatus = fixQuoteStatusAccepted then
      some (details.targetCompId, details.senderCompId)
    else none
  else if details.messageType = msgTypeTraceRsp then
    some (details.targetCompId, details.senderCompId)
  else none

/-- The instrument: the symbol, or else the security id. -/
def instrumentOf (details : FixDetails) : List UInt8 :=
  if details.symbol.length ≠ 0 then details.symbol else details.securityId

/-- The key: four parts copied with `strncpy`, with `'|'` between them. -/
def keyOf (remoteId localId instruction instrument : List UInt8) : Checked (List UInt8) := do
  let remoteId ← strncpy remoteId remoteId.length
  let localId ← strncpy localId localId.length
  let instruction ← strncpy instruction instruction.length
  let instrument ← strncpy instrument instrument.length
  .ok (remoteId ++ 124 :: localId ++ 124 :: instruction ++ 124 :: instrument)

/-- What `process_for_latency_measurement` publishes for a message. -/
def summaryOf (tvSec tvNsec : UInt32) (details : FixDetails) : Checked (Option FixMessageSummary) :=
  match measuredIds details with
  | none => .ok none
  | some (remoteId, localId) => do
      let key ← keyOf remoteId localId details.clOrdId (instrumentOf details)
      .ok (some { tvSec := tvSec.toNat, tvNsec := tvNsec.toNat, msgType := details.messageType, key })

/-! ## No fault -/

/-- The value is read no further than the byte behind it. -/
theorem handleTag_isOk {details : FixDetails} {fixTag : Int} {fixValue : List UInt8} {len : Nat}
    (h : len < fixValue.length) :
    ∃ details', handleTag details fixTag fixValue len = .ok details' := by
  have hread : ∀ i : Nat, i ≤ len → ∃ c, readAt fixValue i = .ok c := fun i hi =>
    ⟨_, readAt_natCast (by omega)⟩
  obtain ⟨x, hx⟩ := hread 0 (Nat.zero_le _)
  have hx' : readAt fixValue 0 = .ok x := hx
  unfold handleTag
  split
  · split
    · exact ⟨_, by rw [hx', ok_bind]⟩
    split
    · next hlen =>
      obtain ⟨y, hy⟩ := hread 1 (by omega)
      have hy' : readAt fixValue 1 = .ok y := hy
      exact ⟨_, by rw [hx', ok_bind, hy', ok_bind]⟩
    · exact ⟨_, rfl⟩
  split
  · exact ⟨_, by rw [hx', ok_bind]⟩
  split
  · obtain ⟨temp, htemp⟩ := strncpy_isOk (Nat.le_of_lt h)
    have hstatus : ∃ status, str2int fixValue len = .ok status := by
      unfold str2int
      split
      · exact ⟨_, rfl⟩
      · exact ⟨_, by rw [htemp, ok_bind]⟩
    obtain ⟨status, hstatus⟩ := hstatus
    exact ⟨_, by rw [hstatus, ok_bind]⟩
  · exact ⟨_, rfl⟩

/-- Collecting the details of a run of the parser never faults. -/
theorem collect_isOk {buf : List UInt8} {calls : List Callback} {details : FixDetails}
    (h : ∀ c ∈ calls, c.EndsBelow buf.length) :
    ∃ details', collect buf calls details = .ok details' := by
  induction calls generalizing details with
  | nil => exact ⟨details, rfl⟩
  | cons call calls ih =>
      have hcall : ∃ details', call.handle buf details = .ok details' := by
        have hends := h call (List.mem_cons_self ..)
        unfold Callback.handle
        split
        · refine handleTag_isOk ?_
          rw [List.length_drop]
          unfold Callback.EndsBelow at hends
          omega
        · obtain rfl : _ = (10 : Int) := hends
          exact ⟨details, rfl⟩
        · exact ⟨details, rfl⟩
      obtain ⟨details', hcall⟩ := hcall
      obtain ⟨result, hrest⟩ := @ih details'
        (fun c hc => h c (List.mem_cons_of_mem _ hc))
      exact ⟨result, by rw [collect, hcall, ok_bind, hrest]⟩

/-! ## The same without memory -/

/-- What a field with a value adds to the details. -/
def FixDetails.addField (details : FixDetails) (fixTag : Int) (value : List UInt8) : FixDetails :=
  if fixTag = fixMsgType then
    match value with
    | [c] => { details with messageType := charToInt c }
    | [x, y] => { details with messageType := intOf (charToInt x) (charToInt y) }
    | _ => details
  else if fixTag = fixExecType then { details with execType := charToInt (value.headD SOH) }
  else if fixTag = fixQuoteStatus then
    { details with quoteStatus := if value.length > 31 then -1 else atoi (ncopy value ++ [0]) }
  else details.storeStr fixTag value

/-- The callback on a value with its SOH reads the value, and the SOH when an
empty ExecType makes it look behind the value. -/
theorem handleTag_eq (details : FixDetails) (fixTag : Int) (value rest : List UInt8) :
    handleTag details fixTag (value ++ SOH :: rest) value.length =
      .ok (details.addField fixTag value) := by
  unfold handleTag FixDetails.addField
  split
  · match value with
    | [] => rfl
    | [c] => rfl
    | [x, y] => rfl
    | x :: y :: z :: value => simp
  split
  · match value with
    | [] => rfl
    | c :: value => rfl
  split
  · have hstatus : str2int (value ++ SOH :: rest) value.length =
        .ok (if value.length > 31 then -1 else atoi (ncopy value ++ [0])) := by
      unfold str2int
      split
      · rfl
      · rw [strncpy_append, ok_bind]
    rw [hstatus, ok_bind]
  · rw [List.take_left]

/-- The key of a conversation. -/
def keyText (remoteId localId instruction instrument : List UInt8) : List UInt8 :=
  ncopy remoteId ++ 124 :: ncopy localId ++ 124 :: ncopy instruction ++ 124 :: ncopy instrument

/-- The event that a message with these details causes. -/
def eventOf (tvSec tvNsec : UInt32) (details : FixDetails) : Option FixMessageSummary :=
  (measuredIds details).map fun ids =>
    { tvSec := tvSec.toNat, tvNsec := tvNsec.toNat, msgType := details.messageType
      key := keyText ids.1 ids.2 details.clOrdId (instrumentOf details) }

/-- The conversion of the details never faults. -/
theorem summaryOf_eq (tvSec tvNsec : UInt32) (details : FixDetails) :
    summaryOf tvSec tvNsec details = .ok (eventOf tvSec tvNsec details) := by
  unfold summaryOf eventOf
  cases measuredIds details with
  | none => rfl
  | some ids => simp only [keyOf, strncpy_self, ok_bind, keyText, Option.map_some]

end Vmars
