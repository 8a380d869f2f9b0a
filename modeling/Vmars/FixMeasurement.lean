import Vmars.FixCapture
import Vmars.FixFields

/-!
# Which messages are measured

`process_for_latency_measurement` chooses by the message type, and for the two
responses by a status.  It looks at details that start out as zero and that the last
field of a tag decides: the ExecType by its first character, the QuoteStatus by the
number that `str2int` reads from it, which is zero for a text that is no number.

* `measuredIds_isSome_iff`: what the code looks at;
* `publishes_iff`: it publishes an event for the messages that it is meant for, unless
  one of the kinds of `Misjudged` comes up;
* `publishes_bareAck`: a quote acknowledgement without a status is measured as an
  accepted one.
-/

namespace Vmars

open CMemory

/-! ## The code -/

/-- What both callers of `try_parse_fix_message` do for an accepted message. -/
def measureMessage {R : Type} [RingBuffer R] (ctx : CaptureContext R) (fixMessage : List UInt8)
    (len : Int) (tvSec tvNsec : UInt32) : Checked (CaptureContext R) := do
  let (ctx, result, details) ← tryParseFixMessage ctx fixMessage len
  if result.result = .ok then processForLatencyMeasurement ctx tvSec tvNsec details
  else .ok ctx

/-- On a ring with room the message publishes this event. -/
def Publishes (ctx : CaptureContext (List FixMessageSummary)) (fixMessage : List UInt8) (len : Int)
    (tvSec tvNsec : UInt32) (event : FixMessageSummary) : Prop :=
  ∃ ctx', measureMessage ctx fixMessage len tvSec tvNsec = .ok ctx' ∧ ctx'.rb = ctx.rb ++ [event]

/-- An accepted message publishes the event of the fields that are reported. -/
theorem publishes_iff_eventOf {ctx : CaptureContext (List FixMessageSummary)} {buf : List UInt8}
    {len : Nat} {run : ParseRun} (hlen : len ≤ buf.length)
    (hrun : vmarsFixParseMsg buf len 0 = .ok run) (hok : run.ret.result = .ok)
    (tvSec tvNsec : UInt32) (event : FixMessageSummary) :
    Publishes ctx buf len tvSec tvNsec event ↔
      eventOf tvSec tvNsec (({} : FixDetails).addFields (reportedFields buf run.calls)) =
        some event := by
  have hcollect := collect_accepted hlen hrun hok
  have htry : tryParseFixMessage ctx buf len =
      .ok ({ ctx with
              counters := countResult ctx.counters run.ret.result
              accepted := ctx.accepted ++ [buf.take run.ret.bytesConsumed.toNat] },
            run.ret, ({} : FixDetails).addFields (reportedFields buf run.calls)) := by
    rw [tryParseFixMessage, hrun, ok_bind, hcollect, ok_bind, if_pos hok]
  unfold Publishes measureMessage
  rw [htry, ok_bind]
  simp only [if_pos hok, processForLatencyMeasurement, summaryOf_eq, ok_bind]
  cases eventOf tvSec tvNsec (({} : FixDetails).addFields (reportedFields buf run.calls)) with
  | none =>
      constructor
      · intro hpublishes
        obtain ⟨ctx', hctx, hrb⟩ := hpublishes
        obtain rfl := Except.ok.inj hctx
        have := congrArg List.length hrb
        simp at this
      · intro hnone
        cases hnone
  | some event' =>
      constructor
      · intro hpublishes
        obtain ⟨ctx', hctx, hrb⟩ := hpublishes
        obtain rfl := Except.ok.inj hctx
        obtain ⟨-, hlast⟩ := List.append_inj' hrb rfl
        rw [(List.cons.inj hlast).1]
      · intro heq
        obtain rfl := Option.some.inj heq
        exact ⟨_, rfl, rfl⟩

/-! ## What the code looks at -/

/-- An ASCII character is told apart from every other byte. -/
theorem charToInt_eq_iff {b c : UInt8} (hc : c.toNat < 128) :
    charToInt b = (c.toNat : Int) ↔ b = c := by
  have hb := b.toNat_lt
  rw [← UInt8.toNat_inj]
  unfold charToInt
  split
  · omega
  · omega

/-- A code of one character is also that of the character behind a NUL. -/
theorem typeAfter_eq_iff {value : List UInt8} {c : UInt8} (hpos : 0 < c.toNat)
    (hc : c.toNat < 128) :
    typeAfter 0 value = (c.toNat : Int) ↔ value = [c] ∨ value = [0, c] := by
  match value with
  | [] =>
      simp only [typeAfter]
      constructor
      · intro h
        omega
      · intro h
        rcases h with h | h
        · cases h
        · cases h
  | [x] => simp [typeAfter, charToInt_eq_iff hc]
  | [x, y] =>
      have hx := charToInt_range x
      have hy := charToInt_range y
      have hparts : intOf (charToInt x) (charToInt y) = (c.toNat : Int) ↔
          charToInt x = ((0 : UInt8).toNat : Int) ∧ charToInt y = (c.toNat : Int) := by
        have hzero : (0 : UInt8).toNat = 0 := rfl
        rw [hzero]
        unfold intOf
        omega
      simp only [typeAfter]
      rw [hparts, charToInt_eq_iff (by decide), charToInt_eq_iff hc]
      simp
  | x :: y :: z :: rest =>
      simp only [typeAfter]
      constructor
      · intro h
        omega
      · intro h
        rcases h with h | h
        · cases h
        · cases h

/-- A code of two characters belongs to them alone. -/
theorem typeAfter_eq_intOf_iff {value : List UInt8} {c d : UInt8} (hc : 0 < c.toNat)
    (hc' : c.toNat < 128) (hd : d.toNat < 128) :
    typeAfter 0 value = intOf c.toNat d.toNat ↔ value = [c, d] := by
  match value with
  | [] =>
      simp only [typeAfter, intOf]
      constructor
      · intro h
        omega
      · intro h
        cases h
  | [x] =>
      have hx := charToInt_range x
      simp only [typeAfter, intOf]
      constructor
      · intro h
        omega
      · intro h
        cases h
  | [x, y] =>
      have hx := charToInt_range x
      have hy := charToInt_range y
      have hparts : intOf (charToInt x) (charToInt y) = intOf c.toNat d.toNat ↔
          charToInt x = (c.toNat : Int) ∧ charToInt y = (d.toNat : Int) := by
        unfold intOf
        omega
      simp only [typeAfter]
      rw [hparts, charToInt_eq_iff hc', charToInt_eq_iff hd]
      simp
  | x :: y :: z :: rest =>
      simp only [typeAfter, intOf]
      constructor
      · intro h
        omega
      · intro h
        cases h

/-- The last ExecType starts with `'0'`; there is one. -/
def ReadsAsNew (fields : List (Int × List UInt8)) : Prop :=
  ∃ value, (valuesAt [fixExecType] fields).getLast? = some value ∧ value.head? = some 48

/-- The last QuoteStatus is read as the number 0, or there is none. -/
def ReadsAsAccepted (fields : List (Int × List UInt8)) : Prop :=
  ∀ value, (valuesAt [fixQuoteStatus] fields).getLast? = some value →
    str2int value value.length = .ok fixQuoteStatusAccepted

/-- The message types that are measured whatever else the message carries. -/
def alwaysMeasured : List (List UInt8) := [ascii "D", ascii "i", ascii "xr", ascii "xs"]

/-- `str2int` of a value: at most 31 bytes are read. -/
theorem str2int_self (value : List UInt8) :
    str2int value value.length =
      .ok (if value.length > 31 then -1 else atoi (ncopy value ++ [0])) := by
  unfold str2int
  split
  · rfl
  · rw [strncpy_self, ok_bind]

/-- The types that are measured, and those that a status decides. -/
theorem measuredIds_isSome (details : FixDetails) :
    (measuredIds details).isSome ↔
      (details.messageType = msgTypeNewOrderSingle ∨ details.messageType = msgTypeMassQuote ∨
        details.messageType = msgTypeTraceReq) ∨ details.messageType = msgTypeTraceRsp ∨
      (details.messageType = msgTypeExecutionReport ∧ details.execType = fixExecTypeNew) ∨
      (details.messageType = msgTypeMassQuoteAck ∧
        details.quoteStatus = fixQuoteStatusAccepted) := by
  have hcodes : msgTypeExecutionReport ≠ msgTypeMassQuoteAck ∧
      msgTypeExecutionReport ≠ msgTypeTraceRsp ∧ msgTypeMassQuoteAck ≠ msgTypeTraceRsp := by decide
  unfold measuredIds
  grind

theorem mem_alwaysMeasured {msgType : List UInt8} : msgType ∈ alwaysMeasured ↔
    msgType = [68] ∨ msgType = [105] ∨ msgType = [120, 114] ∨ msgType = [120, 115] := by
  simp [alwaysMeasured, ascii]

theorem responseTypes : ascii "8" = [56] ∧ ascii "b" = [98] := by decide

section Details

variable {fields : List (Int × List UInt8)} {msgType : List UInt8}

/-- The execution type says new exactly when there is a `150` and the last one does. -/
theorem execType_eq_new_iff :
    (({} : FixDetails).addFields fields).execType = fixExecTypeNew ↔ ReadsAsNew fields := by
  rw [addFields_execType, ReadsAsNew]
  rcases (valuesAt [fixExecType] fields).eq_nil_or_concat with hnil | ⟨values, value, hvalues⟩
  · rw [hnil]
    simp [fixExecTypeNew]
  · have hhead : value.headD SOH = 48 ↔ value.head? = some 48 := by
      cases value with
      | nil => simp [SOH]
      | cons b value => simp
    have hnew : charToInt (value.headD SOH) = fixExecTypeNew ↔ value.headD SOH = 48 :=
      @charToInt_eq_iff _ 48 (by decide)
    rw [hvalues, List.concat_eq_append, List.map_append, List.map_singleton, List.getLastD_concat,
      List.getLast?_concat, hnew, hhead]
    simp

/-- The quote status says accepted when the last `297` does, or there is none. -/
theorem quoteStatus_eq_accepted_iff :
    (({} : FixDetails).addFields fields).quoteStatus = fixQuoteStatusAccepted ↔
      ReadsAsAccepted fields := by
  rw [addFields_quoteStatus, ReadsAsAccepted]
  rcases (valuesAt [fixQuoteStatus] fields).eq_nil_or_concat with hnil | ⟨values, value, hvalues⟩
  · rw [hnil]
    simp [fixQuoteStatusAccepted]
  · rw [hvalues, List.concat_eq_append, List.map_append, List.map_singleton, List.getLastD_concat,
      List.getLast?_concat]
    simp only [Option.some.injEq, forall_eq', str2int_self, Except.ok.injEq]

/-- **What the code looks at.** -/
theorem measuredIds_isSome_iff (htype : valuesAt [fixMsgType] fields = [msgType]) :
    (measuredIds (({} : FixDetails).addFields fields)).isSome ↔
      msgType ∈ alwaysMeasured ∨ (msgType = [0, 68] ∨ msgType = [0, 105]) ∨
        ((msgType = ascii "8" ∨ msgType = [0, 56]) ∧ ReadsAsNew fields) ∨
        ((msgType = ascii "b" ∨ msgType = [0, 98]) ∧ ReadsAsAccepted fields) := by
  have hmessageType : (({} : FixDetails).addFields fields).messageType = typeAfter 0 msgType := by
    rw [addFields_messageType, htype]
    rfl
  have horder : typeAfter 0 msgType = msgTypeNewOrderSingle ↔ _ :=
    @typeAfter_eq_iff msgType 68 (by decide) (by decide)
  have hquote : typeAfter 0 msgType = msgTypeMassQuote ↔ _ :=
    @typeAfter_eq_iff msgType 105 (by decide) (by decide)
  have hreport : typeAfter 0 msgType = msgTypeExecutionReport ↔ _ :=
    @typeAfter_eq_iff msgType 56 (by decide) (by decide)
  have hack : typeAfter 0 msgType = msgTypeMassQuoteAck ↔ _ :=
    @typeAfter_eq_iff msgType 98 (by decide) (by decide)
  have hrequest : typeAfter 0 msgType = msgTypeTraceReq ↔ _ :=
    @typeAfter_eq_intOf_iff msgType 120 114 (by decide) (by decide) (by decide)
  have hresponse : typeAfter 0 msgType = msgTypeTraceRsp ↔ _ :=
    @typeAfter_eq_intOf_iff msgType 120 115 (by decide) (by decide) (by decide)
  rw [measuredIds_isSome, hmessageType, horder, hquote, hreport, hack, hrequest, hresponse,
    execType_eq_new_iff, quoteStatus_eq_accepted_iff]
  rw [mem_alwaysMeasured, responseTypes.1, responseTypes.2]
  constructor
  · intro h
    rcases h with (h | h | h) | h | h | h
    · exact h.elim (fun h => .inl (.inl h)) fun h => .inr (.inl (.inl h))
    · exact h.elim (fun h => .inl (.inr (.inl h))) fun h => .inr (.inl (.inr h))
    · exact .inl (.inr (.inr (.inl h)))
    · exact .inl (.inr (.inr (.inr h)))
    · exact .inr (.inr (.inl h))
    · exact .inr (.inr (.inr h))
  · intro h
    rcases h with (h | h | h | h) | (h | h) | h | h
    · exact .inl (.inl (.inl h))
    · exact .inl (.inr (.inl (.inl h)))
    · exact .inl (.inr (.inr h))
    · exact .inr (.inl h)
    · exact .inl (.inl (.inr h))
    · exact .inl (.inr (.inl (.inr h)))
    · exact .inr (.inr (.inl h))
    · exact .inr (.inr (.inr h))

end Details

/-! ## What is meant to be measured -/

/-- A decimal numeral of the number 0. -/
def IsZeroNumeral (value : List UInt8) : Prop :=
  value ≠ [] ∧ (∀ b ∈ value, isDigit b = true) ∧ decimal value = 0

/-- A request, a report of a new order or the acknowledgement of an accepted quote. -/
def MustPublish (fields : List (Int × List UInt8)) (msgType : List UInt8) : Prop :=
  msgType ∈ alwaysMeasured ∨
    (msgType = ascii "8" ∧ ascii "0" ∈ valuesAt [fixExecType] fields) ∨
    (msgType = ascii "b" ∧ ∃ value ∈ valuesAt [fixQuoteStatus] fields, IsZeroNumeral value)

/-- The kinds of messages that are measured and should not be, or the other way round. -/
inductive Misjudged (fields : List (Int × List UInt8)) (msgType : List UInt8) : Prop where
  /-- NUL and `D` or `i` are taken for the code of the character. -/
  | nulRequest (htype : msgType = [0, 68] ∨ msgType = [0, 105])
  /-- So are NUL and `8`. -/
  | nulReport (htype : msgType = [0, 56]) (hnew : ReadsAsNew fields)
  /-- And NUL and `b`. -/
  | nulAck (htype : msgType = [0, 98]) (haccepted : ReadsAsAccepted fields)
  /-- The last ExecType only starts with `'0'`, and no other is `0`. -/
  | unstatedReport (htype : msgType = ascii "8") (hnew : ReadsAsNew fields)
      (hnone : ascii "0" ∉ valuesAt [fixExecType] fields)
  /-- An ExecType `0` is followed by another. -/
  | overriddenReport (htype : msgType = ascii "8") (hnew : ¬ ReadsAsNew fields)
      (hsome : ascii "0" ∈ valuesAt [fixExecType] fields)
  /-- The last QuoteStatus is no numeral of 0 and read as one, or there is none. -/
  | unstatedAck (htype : msgType = ascii "b") (haccepted : ReadsAsAccepted fields)
      (hnone : ¬ ∃ value ∈ valuesAt [fixQuoteStatus] fields, IsZeroNumeral value)
  /-- A QuoteStatus 0 is followed by another, or it is too long to be read. -/
  | overriddenAck (htype : msgType = ascii "b") (haccepted : ¬ ReadsAsAccepted fields)
      (hsome : ∃ value ∈ valuesAt [fixQuoteStatus] fields, IsZeroNumeral value)

section Filter

variable {buf : List UInt8} {len : Nat} {run : ParseRun} {msgType : List UInt8}

/-- An event is published for the messages that the code measures. -/
theorem exists_publishes_iff (hlen : len ≤ buf.length)
    (hrun : vmarsFixParseMsg buf len 0 = .ok run) (hok : run.ret.result = .ok)
    (ctx : CaptureContext (List FixMessageSummary)) (tvSec tvNsec : UInt32) :
    (∃ event, Publishes ctx buf len tvSec tvNsec event) ↔
      (measuredIds (({} : FixDetails).addFields (reportedFields buf run.calls))).isSome := by
  simp only [publishes_iff_eventOf hlen hrun hok, eventOf, ← Option.isSome_iff_exists,
    Option.isSome_map]

/-- **The filter.**  For every accepted message with one MsgType an event is published
exactly when it should be, unless the message is of one of the misjudged kinds. -/
theorem publishes_iff (hlen : len ≤ buf.length) (hrun : vmarsFixParseMsg buf len 0 = .ok run)
    (hok : run.ret.result = .ok)
    (htype : valuesAt [fixMsgType] (reportedFields buf run.calls) = [msgType])
    (ctx : CaptureContext (List FixMessageSummary)) (tvSec tvNsec : UInt32) :
    ((∃ event, Publishes ctx buf len tvSec tvNsec event) ↔
        MustPublish (reportedFields buf run.calls) msgType) ↔
      ¬ Misjudged (reportedFields buf run.calls) msgType := by
  rw [exists_publishes_iff hlen hrun hok, measuredIds_isSome_iff htype]
  generalize reportedFields buf run.calls = fields
  unfold MustPublish
  rw [mem_alwaysMeasured, responseTypes.1, responseTypes.2]
  constructor
  · intro hiff hmisjudged
    cases hmisjudged with
    | nulRequest htype =>
        rcases htype with htype | htype
        · simp [htype] at hiff
        · simp [htype] at hiff
    | nulReport htype hnew => simp [htype, hnew] at hiff
    | nulAck htype haccepted => simp [htype, haccepted] at hiff
    | unstatedReport htype hnew hnone =>
        rw [responseTypes.1] at htype
        simp [htype, hnew, hnone] at hiff
    | overriddenReport htype hnew hsome =>
        rw [responseTypes.1] at htype
        simp [htype, hnew, hsome] at hiff
    | unstatedAck htype haccepted hnone =>
        rw [responseTypes.2] at htype
        simp only [htype, haccepted, hnone] at hiff
        simp at hiff
    | overriddenAck htype haccepted hsome =>
        rw [responseTypes.2] at htype
        simp only [htype, haccepted, hsome] at hiff
        simp at hiff
  · intro hnot
    constructor
    · intro hmeasured
      rcases hmeasured with hmeasured | htype | ⟨htype, hnew⟩ | ⟨htype, haccepted⟩
      · exact .inl hmeasured
      · exact absurd (.nulRequest htype) hnot
      · rcases htype with htype | htype
        · refine .inr (.inl ⟨htype, ?_⟩)
          by_contra hnone
          exact hnot (.unstatedReport htype hnew hnone)
        · exact absurd (.nulReport htype hnew) hnot
      · rcases htype with htype | htype
        · refine .inr (.inr ⟨htype, ?_⟩)
          by_contra hnone
          exact hnot (.unstatedAck htype haccepted hnone)
        · exact absurd (.nulAck htype haccepted) hnot
    · intro hmust
      rcases hmust with hmust | ⟨htype, hsome⟩ | ⟨htype, hsome⟩
      · exact .inl hmust
      · refine .inr (.inr (.inl ⟨.inl htype, ?_⟩))
        by_contra hnew
        exact hnot (.overriddenReport htype hnew hsome)
      · refine .inr (.inr (.inr ⟨.inl htype, ?_⟩))
        by_contra haccepted
        exact hnot (.overriddenAck htype haccepted hsome)

end Filter

/-- An order with its type alone. -/
theorem publishes_iff_newOrder :
    ((∃ event, Publishes { rb := [] } newOrderBytes 26 0 0 event) ↔
        MustPublish (reportedFields newOrderBytes
          [.startp 5 42, .tagp 35 (.inBuffer 17 1), .tagp 10 (.inBuffer 22 3), .endp])
        (ascii "D")) ↔
      ¬ Misjudged (reportedFields newOrderBytes
        [.startp 5 42, .tagp 35 (.inBuffer 17 1), .tagp 10 (.inBuffer 22 3), .endp]) (ascii "D") :=
  @publishes_iff newOrderBytes 26
    { ret := { result := .ok, bytesConsumed := 26 }
      calls := [.startp 5 42, .tagp 35 (.inBuffer 17 1), .tagp 10 (.inBuffer 22 3), .endp] }
    (ascii "D") (by decide) (by decide +kernel) rfl (by decide) { rb := [] } 0 0

/-- A quote acknowledgement without a QuoteStatus. -/
def bareAck : List UInt8 :=
  ascii "8=FIX.4.4" ++ SOH :: ascii "9=15" ++ SOH :: ascii "35=b" ++ SOH :: ascii "49=M" ++
    SOH :: ascii "56=B" ++ SOH :: ascii "10=233" ++ [SOH]

/-- It does not say that the quote is accepted, and an event is published for it. -/
theorem publishes_bareAck :
    ∃ run, vmarsFixParseMsg bareAck bareAck.length 0 = .ok run ∧ run.ret.result = .ok ∧
      valuesAt [fixMsgType] (reportedFields bareAck run.calls) = [ascii "b"] ∧
      (∃ event, Publishes { rb := [] } bareAck bareAck.length 0 0 event) ∧
      ¬ MustPublish (reportedFields bareAck run.calls) (ascii "b") := by
  have hrun : vmarsFixParseMsg bareAck bareAck.length 0 =
      .ok { ret := { result := .ok, bytesConsumed := 37 }
            calls := [.startp 15 44, .tagp 35 (.inBuffer 18 1), .tagp 49 (.inBuffer 23 1),
              .tagp 56 (.inBuffer 28 1), .tagp 10 (.inBuffer 33 3), .endp] } := by
    decide +kernel
  have hfields : reportedFields bareAck [.startp 15 44, .tagp 35 (.inBuffer 18 1),
      .tagp 49 (.inBuffer 23 1), .tagp 56 (.inBuffer 28 1), .tagp 10 (.inBuffer 33 3), .endp] =
      [(35, ascii "b"), (49, ascii "M"), (56, ascii "B"), (10, ascii "233")] := by
    decide +kernel
  refine ⟨_, hrun, rfl, ?_, ?_, ?_⟩
  · rw [hfields]
    decide
  · rw [exists_publishes_iff (Nat.le_refl _) hrun rfl, hfields]
    decide +kernel
  · rw [hfields]
    intro hmust
    rcases hmust with hmust | ⟨htype, -⟩ | ⟨-, value, hvalue, -⟩
    · revert hmust
      decide
    · revert htype
      decide
    · revert hvalue
      have hnone : valuesAt [fixQuoteStatus]
          [(35, ascii "b"), (49, ascii "M"), (56, ascii "B"), (10, ascii "233")] = [] := by
        decide
      rw [hnone]
      exact List.not_mem_nil

end Vmars
