import Vmars.FixDecode
import Vmars.FixDetails
import Vmars.FixTokens

/-!
# What the fields of a message collect

`handle_tag` is called once for every field, and each of its slots belongs to some
tags: a field with one of them overwrites what an earlier one left.  So a slot holds
the value of the last field that sets it (`addFields_slot`), and of an accepted
message the details are those of the fields that the parser reports
(`collect_accepted`).
-/

namespace Vmars

open CMemory

/-! ## One field -/

/-- The slots of `fix_details_t` that identify a conversation. -/
inductive Slot where
  | clOrdId
  | symbol
  | securityId
  | senderCompId
  | targetCompId
  deriving DecidableEq, Repr

namespace Slot

/-- The tags that set a slot. -/
def tags : Slot → List Int
  | clOrdId => [fixClOrdId, fixQuoteId]
  | symbol => [fixSymbol, fixUnderlyingSymbol]
  | securityId => [fixSecurityId, fixUnderlyingSecurityId]
  | senderCompId => [fixSenderCompId]
  | targetCompId => [fixTargetCompId]

/-- The slot of the details. -/
def get : Slot → FixDetails → List UInt8
  | clOrdId => FixDetails.clOrdId
  | symbol => FixDetails.symbol
  | securityId => FixDetails.securityId
  | senderCompId => FixDetails.senderCompId
  | targetCompId => FixDetails.targetCompId

/-- The slot with the two parties exchanged. -/
def swap : Slot → Slot
  | senderCompId => targetCompId
  | targetCompId => senderCompId
  | slot => slot

end Slot

/-- The message type behind a field 35. -/
def typeAfter (messageType : Int) : List UInt8 → Int
  | [c] => charToInt c
  | [x, y] => intOf (charToInt x) (charToInt y)
  | _ => messageType

section AddField

variable (details : FixDetails) (value : List UInt8)

/-- `35` sets the message type. -/
theorem addField_msgType : details.addField fixMsgType value =
    { details with messageType := typeAfter details.messageType value } := by
  match value with
  | [] => rfl
  | [c] => rfl
  | [x, y] => rfl
  | x :: y :: z :: value => rfl

/-- `150` sets the type of an execution, the first byte of its value. -/
theorem addField_execType : details.addField fixExecType value =
    { details with execType := charToInt (value.headD SOH) } := rfl

/-- `297` sets the status of a quote, unless its value is too long. -/
theorem addField_quoteStatus : details.addField fixQuoteStatus value =
    { details with quoteStatus := if value.length > 31 then -1 else atoi (ncopy value ++ [0]) } :=
  rfl

/-- Every other tag sets a string, or nothing. -/
theorem addField_storeStr {tag : Int} (htype : tag ≠ fixMsgType) (hexec : tag ≠ fixExecType)
    (hstatus : tag ≠ fixQuoteStatus) :
    details.addField tag value = details.storeStr tag value := by
  unfold FixDetails.addField
  rw [if_neg htype, if_neg hexec, if_neg hstatus]

/-- The tags of a slot, and no others, set it. -/
theorem storeStr_slot (slot : Slot) (tag : Int) :
    slot.get (details.storeStr tag value) =
      if tag ∈ slot.tags then value else slot.get details := by
  cases slot <;>
    simp only [Slot.get, Slot.tags, FixDetails.storeStr, List.mem_cons, List.not_mem_nil, or_false,
      fixClOrdId, fixQuoteId, fixSenderCompId, fixTargetCompId, fixSymbol, fixSecurityId,
      fixUnderlyingSecurityId, fixUnderlyingSymbol] <;>
    grind

/-- A string goes into a slot only. -/
theorem storeStr_frame (tag : Int) :
    (details.storeStr tag value).messageType = details.messageType ∧
      (details.storeStr tag value).execType = details.execType ∧
      (details.storeStr tag value).quoteStatus = details.quoteStatus := by
  unfold FixDetails.storeStr
  grind

/-- A slot is set by the fields with its tags. -/
theorem addField_slot (slot : Slot) (tag : Int) :
    slot.get (details.addField tag value) =
      if tag ∈ slot.tags then value else slot.get details := by
  by_cases htype : tag = fixMsgType
  · subst htype
    rw [addField_msgType]
    cases slot <;> rfl
  by_cases hexec : tag = fixExecType
  · subst hexec
    rw [addField_execType]
    cases slot <;> rfl
  by_cases hstatus : tag = fixQuoteStatus
  · subst hstatus
    rw [addField_quoteStatus]
    cases slot <;> rfl
  · rw [addField_storeStr details value htype hexec hstatus, storeStr_slot]

/-- The other three are set by one tag each. -/
theorem addField_frame (tag : Int) :
    (tag ≠ fixMsgType → (details.addField tag value).messageType = details.messageType) ∧
      (tag ≠ fixExecType → (details.addField tag value).execType = details.execType) ∧
      (tag ≠ fixQuoteStatus → (details.addField tag value).quoteStatus = details.quoteStatus) := by
  by_cases htype : tag = fixMsgType
  · subst htype
    rw [addField_msgType]
    exact ⟨fun h => (h rfl).elim, fun _ => rfl, fun _ => rfl⟩
  by_cases hexec : tag = fixExecType
  · subst hexec
    rw [addField_execType]
    exact ⟨fun _ => rfl, fun h => (h rfl).elim, fun _ => rfl⟩
  by_cases hstatus : tag = fixQuoteStatus
  · subst hstatus
    rw [addField_quoteStatus]
    exact ⟨fun _ => rfl, fun _ => rfl, fun h => (h rfl).elim⟩
  · rw [addField_storeStr details value htype hexec hstatus]
    obtain ⟨htype, hexec, hstatus⟩ := storeStr_frame details value tag
    exact ⟨fun _ => htype, fun _ => hexec, fun _ => hstatus⟩

end AddField

/-! ## All fields -/

/-- The details after some fields, each with the tag that is reported for it. -/
def FixDetails.addFields (details : FixDetails) (fields : List (Int × List UInt8)) : FixDetails :=
  fields.foldl (fun details field => details.addField field.1 field.2) details

/-- The fields are handled one after the other. -/
theorem FixDetails.addFields_cons (details : FixDetails) (tag : Int) (value : List UInt8)
    (fields : List (Int × List UInt8)) :
    details.addFields ((tag, value) :: fields) =
      (details.addField tag value).addFields fields := rfl

/-- The values of the fields with one of these tags, in order. -/
def valuesAt (tags : List Int) (fields : List (Int × List UInt8)) : List (List UInt8) :=
  (fields.filter fun field => field.1 ∈ tags).map Prod.snd

/-- The values of some tags, in the order of the fields. -/
theorem valuesAt_cons (tags : List Int) (tag : Int) (value : List UInt8)
    (fields : List (Int × List UInt8)) :
    valuesAt tags ((tag, value) :: fields) =
      if tag ∈ tags then value :: valuesAt tags fields else valuesAt tags fields := by
  unfold valuesAt
  split
  · next htag =>
    rw [List.filter_cons_of_pos (by simpa using htag)]
    rfl
  · next htag => rw [List.filter_cons_of_neg (by simpa using htag)]

/-- What is set by the fields with certain tags only depends on their values. -/
theorem addFields_get {α : Type} {get : FixDetails → α} {set : α → List UInt8 → α}
    {tags : List Int}
    (hset : ∀ details tag value, tag ∈ tags →
      get (details.addField tag value) = set (get details) value)
    (hkeep : ∀ details tag value, tag ∉ tags → get (details.addField tag value) = get details)
    (fields : List (Int × List UInt8)) (details : FixDetails) :
    get (details.addFields fields) = (valuesAt tags fields).foldl set (get details) := by
  induction fields generalizing details with
  | nil => rfl
  | cons field fields ih =>
      obtain ⟨tag, value⟩ := field
      rw [FixDetails.addFields_cons, ih]
      rw [valuesAt_cons]
      by_cases htag : tag ∈ tags
      · rw [if_pos htag, List.foldl_cons, hset details _ _ htag]
      · rw [if_neg htag, hkeep details _ _ htag]

/-- Where every value overwrites, the last one stays. -/
theorem foldl_overwrite {α : Type} (f : List UInt8 → α) (values : List (List UInt8)) (start : α) :
    values.foldl (fun _ value => f value) start = (values.map f).getLastD start := by
  induction values generalizing start with
  | nil => rfl
  | cons value values ih => rw [List.foldl_cons, ih, List.map_cons, List.getLastD_cons]

section AddFields

variable (details : FixDetails) (fields : List (Int × List UInt8))

/-- **The last field wins.**  A slot holds the value of the last field that sets it. -/
theorem addFields_slot (slot : Slot) :
    slot.get (details.addFields fields) =
      (valuesAt slot.tags fields).getLastD (slot.get details) := by
  have hget := @addFields_get _ slot.get (fun _ value => value) slot.tags
    (fun details tag value htag => by rw [addField_slot, if_pos htag])
    (fun details tag value htag => by rw [addField_slot, if_neg htag]) fields details
  have hlast := foldl_overwrite id (valuesAt slot.tags fields) (slot.get details)
  rw [List.map_id] at hlast
  exact hget.trans hlast

/-- Every field `35` works on the type that the ones before it left. -/
theorem addFields_messageType :
    (details.addFields fields).messageType =
      (valuesAt [fixMsgType] fields).foldl typeAfter details.messageType :=
  @addFields_get _ FixDetails.messageType typeAfter [fixMsgType]
    (fun details tag value htag => by
      obtain rfl := List.mem_singleton.mp htag
      rw [addField_msgType])
    (fun details tag value htag => (addField_frame details value tag).1 (by simpa using htag))
    fields details

/-- The last execution type stays. -/
theorem addFields_execType :
    (details.addFields fields).execType =
      ((valuesAt [fixExecType] fields).map fun value =>
        charToInt (value.headD SOH)).getLastD details.execType := by
  rw [← foldl_overwrite]
  exact @addFields_get _ FixDetails.execType (fun _ value => charToInt (value.headD SOH))
    [fixExecType]
    (fun details tag value htag => by
      obtain rfl := List.mem_singleton.mp htag
      rw [addField_execType])
    (fun details tag value htag => (addField_frame details value tag).2.1 (by simpa using htag))
    fields details

/-- The last quote status stays. -/
theorem addFields_quoteStatus :
    (details.addFields fields).quoteStatus =
      ((valuesAt [fixQuoteStatus] fields).map fun value =>
        if value.length > 31 then -1 else atoi (ncopy value ++ [0])).getLastD
          details.quoteStatus := by
  rw [← foldl_overwrite]
  exact @addFields_get _ FixDetails.quoteStatus
    (fun _ value => if value.length > 31 then -1 else atoi (ncopy value ++ [0])) [fixQuoteStatus]
    (fun details tag value htag => by
      obtain rfl := List.mem_singleton.mp htag
      rw [addField_quoteStatus])
    (fun details tag value htag => (addField_frame details value tag).2.2 (by simpa using htag))
    fields details

end AddFields

/-! ## The fields of an accepted message -/

/-- The fields that the parser reports: their tags and their values. -/
def reportedFields (buf : List UInt8) (calls : List Callback) : List (Int × List UInt8) :=
  (tagCalls calls).map fun call => (call.1, call.2.bytes buf)

theorem reportedFields_cons (buf : List UInt8) (tag : Int) (value : TagValue)
    (calls : List Callback) :
    reportedFields buf (.tagp tag value :: calls) =
      (tag, value.bytes buf) :: reportedFields buf calls := rfl

/-- The field that an event shows. -/
def Event.field : Event → Option (Int × List UInt8)
  | .tagp tag value => some (tag, value)
  | _ => none

/-- The fields that the callbacks report are those of the decoded events. -/
theorem reportedFields_eq_events (buf : List UInt8) (calls : List Callback) :
    reportedFields buf calls = (calls.map (Callback.event buf)).filterMap Event.field := by
  rw [reportedFields, tagCalls, List.map_filterMap, List.filterMap_map]
  congr 1
  funext call
  cases call <;> rfl

/-- A field as it is reported without options. -/
def RawField.reported (field : RawField) : Int × List UInt8 := (field.tag, field.chars)

section Reported

variable {buf : List UInt8}

/-- Behind the `'='` of a field lie its value, its SOH and the other fields. -/
theorem drop_value {start : Nat} {field : RawField} {rest : List UInt8}
    (h : buf.drop start = field.encode ++ rest) :
    buf.drop (start + field.digits.length + 1) = field.chars ++ SOH :: rest := by
  have hsplit : field.encode ++ rest =
      (field.digits ++ [equalsSign]) ++ (field.chars ++ SOH :: rest) := by
    simp [RawField.encode]
  rw [Nat.add_assoc, ← List.drop_drop, h, hsplit]
  exact List.drop_left' (by simp)

/-- What lies behind a field. -/
theorem drop_rest {start : Nat} {field : RawField} {rest : List UInt8}
    (h : buf.drop start = field.encode ++ rest) :
    buf.drop (start + field.encode.length) = rest := by
  rw [← List.drop_drop, h, List.drop_left]

/-- The callback collects the fields as they are reported. -/
theorem collect_rawCalls {start : Nat} {fields : List RawField} {rest : List UInt8}
    {calculated : Int} (h : buf.drop start = fields.flatMap RawField.encode ++ rest)
    (details : FixDetails) :
    collect buf (rawCalls 0 calculated start fields ++ [.endp]) details =
      .ok (details.addFields (fields.map RawField.reported)) := by
  induction fields generalizing start details with
  | nil => rfl
  | cons field fields ih =>
      rw [List.flatMap_cons, List.append_assoc] at h
      have hoption : ¬ (optReportCalculatedChecksum 0 = true ∧ field.tag = 10) := by
        intro hboth
        exact absurd hboth.1 (by decide)
      have hhandle : Callback.handle buf details (.tagp field.tag
          (.inBuffer (start + field.digits.length + 1) field.chars.length)) =
          .ok (details.addField field.tag field.chars) := by
        rw [Callback.handle, drop_value h, handleTag_eq]
      rw [rawCalls, if_neg hoption, List.cons_append, collect, hhandle, ok_bind, ih (drop_rest h),
        List.map_cons, RawField.reported, FixDetails.addFields_cons]

/-- For the fields of a body the callbacks report what is written there. -/
theorem reportedFields_rawCalls {start : Nat} {fields : List RawField} {rest : List UInt8}
    {calculated : Int} (h : buf.drop start = fields.flatMap RawField.encode ++ rest) :
    reportedFields buf (rawCalls 0 calculated start fields) = fields.map RawField.reported := by
  induction fields generalizing start with
  | nil => rfl
  | cons field fields ih =>
      rw [List.flatMap_cons, List.append_assoc] at h
      have hoption : ¬ (optReportCalculatedChecksum 0 = true ∧ field.tag = 10) := by
        intro hboth
        exact absurd hboth.1 (by decide)
      have hvalue : (TagValue.inBuffer (start + field.digits.length + 1) field.chars.length).bytes buf =
          field.chars := by
        rw [TagValue.bytes, drop_value h, List.take_left]
      rw [rawCalls, if_neg hoption, reportedFields_cons, hvalue, ih (drop_rest h), List.map_cons,
        RawField.reported]

/-- **The details of an accepted message** are those of the fields that the parser
reports. -/
theorem collect_accepted {len : Nat} {run : ParseRun} (hlen : len ≤ buf.length)
    (hrun : vmarsFixParseMsg buf len 0 = .ok run) (hok : run.ret.result = .ok) :
    collect buf run.calls {} =
      .ok (({} : FixDetails).addFields (reportedFields buf run.calls)) := by
  obtain ⟨p, k, fields, h⟩ := vmarsFixParseMsg_accepted hlen hrun hok
  have hdrop : buf.drop p = fields.flatMap RawField.encode ++ buf.drop (k + checkSumLen) := by
    have hfields := congrArg List.length h.fields_eq
    have hsplit := List.take_append_drop (k + checkSumLen) buf
    have hpos : 0 < (fields.flatMap RawField.encode).length := by
      obtain ⟨field, rest, hcons⟩ := List.exists_cons_of_ne_nil h.ne_nil
      rw [hcons, List.flatMap_cons, List.length_append, RawField.encode_length]
      omega
    rw [List.length_drop] at hfields
    rw [← h.fields_eq, ← List.drop_append_of_le_length (by omega), hsplit]
  obtain ⟨msgLen, fixType, calculated, hcalls⟩ : ∃ msgLen fixType calculated, run.calls =
      .startp msgLen fixType :: rawCalls 0 calculated p fields ++ [.endp] :=
    ⟨_, _, _, by rw [h.run_eq]⟩
  have hreported : reportedFields buf run.calls = fields.map RawField.reported := by
    rw [hcalls, ← @reportedFields_rawCalls buf p fields _ calculated hdrop]
    simp [reportedFields, tagCalls]
  rw [hreported, hcalls, List.cons_append, collect, Callback.handle, ok_bind,
    collect_rawCalls hdrop]
  · intro tag start length heq
    cases heq
  · intro tag chars heq
    cases heq

end Reported

end Vmars
