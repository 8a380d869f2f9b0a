import Vmars.FixMeasurement
import Vmars.LatencyKey

/-!
# The key of an order

The key of an order joins its parties, its ClOrdID and its symbol.  But several tags
write each of these slots, whatever the type of the message: `11` and `117`, `55` and
`311`, and `48` and `309` for what stands in for an empty symbol.  The last field wins,
and `strncpy` clears what follows a NUL.

* `orderKey_iff`: the key is that of the order's own identifiers exactly when what
  stands in the slots, copied, spells them;
* `keyIntact_iff`: without separators and NULs in the values this says that no other
  QuoteID follows the ClOrdID and no other UnderlyingSymbol the symbol;
* `not_hasOrderKey_quotedBehind`: an order that names its quote behind its ClOrdID has the
  QuoteID in its key.
-/

namespace Vmars

open CMemory

/-! ## Orders and reports -/

/-- Every MsgType of the message is this one. -/
def IsOfType (fields : List (Int × List UInt8)) (msgType : List UInt8) : Prop :=
  valuesAt [fixMsgType] fields ≠ [] ∧ ∀ value ∈ valuesAt [fixMsgType] fields, value = msgType

/-- The remote and the local party: of an order its sender and its target, of the report
of a new order that is measured the other way round. -/
inductive Parties (fields : List (Int × List UInt8)) (senderCompId targetCompId : List UInt8) :
    List UInt8 → List UInt8 → Prop where
  | order (htype : IsOfType fields (ascii "D")) :
      Parties fields senderCompId targetCompId senderCompId targetCompId
  | report (htype : IsOfType fields (ascii "8"))
      (hexec : ascii "0" ∈ valuesAt [fixExecType] fields) (hnew : ReadsAsNew fields) :
      Parties fields senderCompId targetCompId targetCompId senderCompId

/-- The key of these identifiers; what stands for an empty symbol is left open. -/
def HasOrderKey (key remoteId localId clOrdId symbol : List UInt8) : Prop :=
  ∃ instrument, key = remoteId ++ 124 :: localId ++ 124 :: clOrdId ++ 124 :: instrument ∧
    (symbol ≠ [] → instrument = symbol)

/-- The id in the key: the last QuoteID behind the ClOrdID takes its place. -/
def keyInstruction (fields : List (Int × List UInt8)) (clOrdId : List UInt8) : List UInt8 :=
  (valuesAt [fixQuoteId] (fields.dropWhile (·.1 ≠ fixClOrdId))).getLastD clOrdId

/-- The symbol in the key: so does the last UnderlyingSymbol behind the symbol. -/
def keySymbol (fields : List (Int × List UInt8)) (symbol : List UInt8) : List UInt8 :=
  (valuesAt [fixUnderlyingSymbol] (fields.dropWhile (·.1 ≠ fixSymbol))).getLastD symbol

/-- The instrument in the key: this symbol, or else the last security id. -/
def keyInstrument (fields : List (Int × List UInt8)) (symbol : List UInt8) : List UInt8 :=
  if (keySymbol fields symbol).length ≠ 0 then keySymbol fields symbol
  else (valuesAt Slot.securityId.tags fields).getLastD []

/-- The parties survive the copy, and the id and the instrument, copied, spell the
ClOrdID and the symbol. -/
structure KeyIntact (fields : List (Int × List UInt8))
    (remoteId localId clOrdId symbol : List UInt8) : Prop where
  remoteId_eq : ncopy remoteId = remoteId
  localId_eq : ncopy localId = localId
  spelled : symbol ≠ [] →
    ncopy (keyInstruction fields clOrdId) ++ 124 :: ncopy (keyInstrument fields symbol) =
      clOrdId ++ 124 :: symbol
  started : symbol = [] → clOrdId ++ [124] <+:
    ncopy (keyInstruction fields clOrdId) ++ 124 :: ncopy (keyInstrument fields symbol)

/-! ## What is in the slots -/

/-- Without fields of the first tag the second decides alone. -/
theorem valuesAt_pair_of_none {a b : Int} {fields : List (Int × List UInt8)}
    (h : valuesAt [a] fields = []) : valuesAt [a, b] fields = valuesAt [b] fields := by
  induction fields with
  | nil => rfl
  | cons field fields ih =>
      obtain ⟨tag, value⟩ := field
      rw [valuesAt_cons] at h
      split at h
      · cases h
      · next htag =>
        rw [List.mem_singleton] at htag
        rw [valuesAt_cons, valuesAt_cons, ih h]
        simp [htag]

/-- Of a tag that occurs once and another that sets the same slot, the last of the other
behind the one stays, or the one. -/
theorem getLastD_valuesAt_pair {a b : Int} {fields : List (Int × List UInt8)} {value : List UInt8}
    (hne : a ≠ b) (h : valuesAt [a] fields = [value]) :
    (valuesAt [a, b] fields).getLastD [] =
      (valuesAt [b] (fields.dropWhile (·.1 ≠ a))).getLastD value := by
  induction fields with
  | nil => cases h
  | cons field fields ih =>
      obtain ⟨tag, first⟩ := field
      by_cases htag : tag = a
      · -- the one: only the other follows
        subst htag
        rw [valuesAt_cons, if_pos (List.mem_singleton_self _)] at h
        obtain ⟨rfl, hnone⟩ := List.cons.inj h
        rw [List.dropWhile_cons_of_neg (by simp), valuesAt_cons, if_pos (List.mem_cons_self ..),
          valuesAt_cons, if_neg (by simpa using hne), valuesAt_pair_of_none hnone,
          List.getLastD_cons]
      · -- what stands before it is overwritten
        rw [valuesAt_cons, if_neg (by simpa using htag)] at h
        rw [List.dropWhile_cons_of_pos (by simpa using htag), ← ih h, valuesAt_cons]
        split
        · have hvalue : valuesAt [a, b] fields ≠ [] := by
            intro hnil
            have hnone : valuesAt [a] fields = [] := by
              rw [valuesAt, List.map_eq_nil_iff, List.filter_eq_nil_iff] at hnil ⊢
              intro field hfield
              have hother := hnil field hfield
              simp only [List.mem_cons, List.not_mem_nil, or_false, decide_eq_true_iff,
                not_or] at hother ⊢
              exact hother.1
            rw [hnone] at h
            cases h
          obtain ⟨x, xs, hxs⟩ := List.exists_cons_of_ne_nil hvalue
          rw [hxs, List.getLastD_cons, List.getLastD_cons, List.getLastD_cons]
        · rfl

section Details

variable {fields : List (Int × List UInt8)} {remoteId localId : List UInt8}
  {senderCompId targetCompId clOrdId symbol : List UInt8}

/-- A slot has the last value of its tags. -/
theorem slot_eq_getLastD (slot : Slot) :
    slot.get (({} : FixDetails).addFields fields) = (valuesAt slot.tags fields).getLastD [] := by
  rw [addFields_slot]
  cases slot <;> rfl

/-- With one ClOrdID the instruction is that, unless a QuoteID follows. -/
theorem clOrdId_eq_keyInstruction (h : valuesAt [fixClOrdId] fields = [clOrdId]) :
    (({} : FixDetails).addFields fields).clOrdId = keyInstruction fields clOrdId :=
  (slot_eq_getLastD .clOrdId).trans (getLastD_valuesAt_pair (by decide) h)

/-- With one Symbol the instrument is that, unless an underlying one follows. -/
theorem instrumentOf_eq_keyInstrument (h : valuesAt [fixSymbol] fields = [symbol]) :
    instrumentOf (({} : FixDetails).addFields fields) = keyInstrument fields symbol := by
  have hsymbol : (({} : FixDetails).addFields fields).symbol = keySymbol fields symbol :=
    (slot_eq_getLastD .symbol).trans (getLastD_valuesAt_pair (by decide) h)
  have hsecurity : (({} : FixDetails).addFields fields).securityId = _ :=
    slot_eq_getLastD .securityId
  rw [instrumentOf, hsymbol, hsecurity, keyInstrument]

/-- The same type again and again is that type. -/
theorem messageType_of_isOfType {c : UInt8} (h : IsOfType fields [c]) :
    (({} : FixDetails).addFields fields).messageType = charToInt c := by
  have hfold : ∀ (values : List (List UInt8)) (start : Int), (∀ value ∈ values, value = [c]) →
      values ≠ [] → values.foldl typeAfter start = charToInt c := by
    intro values
    induction values with
    | nil =>
        intro start _ hne
        exact absurd rfl hne
    | cons value values ih =>
        intro start hall _
        have hvalue := hall value (List.mem_cons_self ..)
        rw [List.foldl_cons, hvalue]
        by_cases hnil : values = []
        · rw [hnil]
          rfl
        · exact ih _ (fun v hv => hall v (List.mem_cons_of_mem _ hv)) hnil
  rw [addFields_messageType]
  exact hfold _ _ h.2 h.1

/-- The parties are those of the details. -/
theorem Parties.measuredIds_eq (h : Parties fields senderCompId targetCompId remoteId localId)
    (hsender : valuesAt [fixSenderCompId] fields = [senderCompId])
    (htarget : valuesAt [fixTargetCompId] fields = [targetCompId]) :
    measuredIds (({} : FixDetails).addFields fields) = some (remoteId, localId) := by
  have hsender' : (({} : FixDetails).addFields fields).senderCompId = senderCompId := by
    have hslot := @slot_eq_getLastD fields .senderCompId
    rwa [Slot.tags, hsender] at hslot
  have htarget' : (({} : FixDetails).addFields fields).targetCompId = targetCompId := by
    have hslot := @slot_eq_getLastD fields .targetCompId
    rwa [Slot.tags, htarget] at hslot
  cases h with
  | order htype =>
      have hmessageType :
          (({} : FixDetails).addFields fields).messageType = msgTypeNewOrderSingle :=
        messageType_of_isOfType htype
      rw [measuredIds, if_pos (.inl hmessageType), hsender', htarget']
  | report htype hexec hnew =>
      have hmessageType : (({} : FixDetails).addFields fields).messageType =
          msgTypeExecutionReport := messageType_of_isOfType htype
      rw [measuredIds, hmessageType, if_neg (by decide), if_pos rfl,
        if_pos (execType_eq_new_iff.mpr hnew), hsender', htarget']

/-- What the key says: it is the one of the identifiers exactly when these are intact. -/
theorem keyText_hasOrderKey_iff :
    HasOrderKey
      (keyText remoteId localId (keyInstruction fields clOrdId) (keyInstrument fields symbol))
        remoteId localId clOrdId symbol ↔ KeyIntact fields remoteId localId clOrdId symbol := by
  have hsplit : ∀ instrument,
      keyText remoteId localId (keyInstruction fields clOrdId) (keyInstrument fields symbol) =
          remoteId ++ 124 :: localId ++ 124 :: clOrdId ++ 124 :: instrument ↔
        ncopy remoteId = remoteId ∧ ncopy localId = localId ∧
          ncopy (keyInstruction fields clOrdId) ++ 124 :: ncopy (keyInstrument fields symbol) =
            clOrdId ++ 124 :: instrument := by
    intro instrument
    simp only [keyText, List.append_assoc, List.cons_append]
    constructor
    · intro h
      obtain ⟨hremote, h⟩ := List.append_inj h (ncopy_length remoteId)
      obtain ⟨hlocal, h⟩ := List.append_inj (List.cons.inj h).2 (ncopy_length localId)
      exact ⟨hremote, hlocal, (List.cons.inj h).2⟩
    · intro h
      rw [h.1, h.2.1, h.2.2]
  constructor
  · intro h
    obtain ⟨instrument, hkey, hsymbol⟩ := h
    obtain ⟨hremote, hlocal, hrest⟩ := (hsplit instrument).mp hkey
    refine ⟨hremote, hlocal, ?_, ?_⟩
    · intro hne
      rw [hrest, hsymbol hne]
    · intro _
      exact ⟨instrument, by rw [hrest, List.append_assoc]; rfl⟩
  · intro h
    by_cases hempty : symbol = []
    · obtain ⟨instrument, hrest⟩ := h.started hempty
      refine ⟨instrument, (hsplit instrument).mpr ⟨h.remoteId_eq, h.localId_eq, ?_⟩, ?_⟩
      · rw [← hrest, List.append_assoc]
        rfl
      · intro hne
        exact absurd hempty hne
    · exact ⟨symbol, (hsplit symbol).mpr ⟨h.remoteId_eq, h.localId_eq, h.spelled hempty⟩,
        fun _ => rfl⟩

end Details

/-- **The key of an order.**  For every accepted order or report of a new order with one
ClOrdID, one symbol and one of each party, the published key is made of these exactly
when `KeyIntact` says so of its fields. -/
theorem orderKey_iff {buf : List UInt8} {len : Nat} {run : ParseRun} (hlen : len ≤ buf.length)
    (hrun : vmarsFixParseMsg buf len 0 = .ok run) (hok : run.ret.result = .ok)
    {remoteId localId senderCompId targetCompId clOrdId symbol : List UInt8}
    (hparties : Parties (reportedFields buf run.calls) senderCompId targetCompId remoteId localId)
    (hclOrdId : valuesAt [fixClOrdId] (reportedFields buf run.calls) = [clOrdId])
    (hsymbol : valuesAt [fixSymbol] (reportedFields buf run.calls) = [symbol])
    (hsender : valuesAt [fixSenderCompId] (reportedFields buf run.calls) = [senderCompId])
    (htarget : valuesAt [fixTargetCompId] (reportedFields buf run.calls) = [targetCompId])
    (ctx : CaptureContext (List FixMessageSummary)) (tvSec tvNsec : UInt32) :
    (∃ event, Publishes ctx buf len tvSec tvNsec event ∧
        HasOrderKey event.key remoteId localId clOrdId symbol) ↔
      KeyIntact (reportedFields buf run.calls) remoteId localId clOrdId symbol := by
  have hids := hparties.measuredIds_eq hsender htarget
  have hinstruction := clOrdId_eq_keyInstruction hclOrdId
  have hinstrument := instrumentOf_eq_keyInstrument hsymbol
  have hevent := @publishes_iff_eventOf ctx buf len run hlen hrun hok tvSec tvNsec
  rw [← keyText_hasOrderKey_iff]
  simp only [hevent, eventOf, hids, Option.map_some, Option.some.injEq, hinstruction, hinstrument]
  constructor
  · intro h
    obtain ⟨event, hpublished, hkey⟩ := h
    rwa [← hpublished] at hkey
  · intro hkey
    exact ⟨_, rfl, hkey⟩

/-- Without separators and NULs the texts themselves decide. -/
theorem keyIntact_iff {fields : List (Int × List UInt8)}
    {remoteId localId clOrdId symbol : List UInt8} (hremote : (0 : UInt8) ∉ remoteId)
    (hlocal : (0 : UInt8) ∉ localId) (hclOrdId : (124 : UInt8) ∉ clOrdId)
    (hinstruction : (0 : UInt8) ∉ keyInstruction fields clOrdId ∧
      (124 : UInt8) ∉ keyInstruction fields clOrdId)
    (hinstrument : (0 : UInt8) ∉ keyInstrument fields symbol) :
    KeyIntact fields remoteId localId clOrdId symbol ↔
      keyInstruction fields clOrdId = clOrdId ∧
        (symbol ≠ [] → keyInstrument fields symbol = symbol) := by
  have hcopy := ncopy_of_nul_free hinstruction.1
  have hcopy' := ncopy_of_nul_free hinstrument
  constructor
  · intro h
    have hspelled := h.spelled
    have hstarted := h.started
    rw [hcopy, hcopy'] at hspelled hstarted
    by_cases hempty : symbol = []
    · obtain ⟨rest, hrest⟩ := hstarted hempty
      rw [List.append_assoc, List.singleton_append] at hrest
      exact ⟨(append_cons_inj hclOrdId hinstruction.2 hrest).1.symm, fun hne => absurd hempty hne⟩
    · obtain ⟨hid, hsymbol⟩ := append_cons_inj hinstruction.2 hclOrdId (hspelled hempty)
      exact ⟨hid, fun _ => hsymbol⟩
  · intro h
    obtain ⟨hid, hsymbol⟩ := h
    refine ⟨ncopy_of_nul_free hremote, ncopy_of_nul_free hlocal, ?_, ?_⟩
    · intro hne
      rw [hcopy, hcopy', hid, hsymbol hne]
    · intro _
      rw [hcopy, hcopy', hid]
      exact ⟨keyInstrument fields symbol, by rw [List.append_assoc, List.singleton_append]⟩

/-- An order whose QuoteID stands in front of its ClOrdID. -/
def quotedBefore : List UInt8 :=
  ascii "8=FIX.4.4" ++ SOH :: ascii "9=31" ++ SOH :: ascii "35=D" ++ SOH :: ascii "49=B" ++
    SOH :: ascii "56=M" ++ SOH :: ascii "117=Q" ++ SOH :: ascii "11=A" ++ SOH :: ascii "55=X" ++
    SOH :: ascii "10=210" ++ [SOH]

/-- What the parser does with it. -/
def quotedBeforeRun : ParseRun where
  ret := { result := .ok, bytesConsumed := 53 }
  calls := [.startp 31 44, .tagp 35 (.inBuffer 18 1), .tagp 49 (.inBuffer 23 1),
    .tagp 56 (.inBuffer 28 1), .tagp 117 (.inBuffer 34 1), .tagp 11 (.inBuffer 39 1),
    .tagp 55 (.inBuffer 44 1), .tagp 10 (.inBuffer 49 3), .endp]

/-- A QuoteID in front of the ClOrdID does no harm. -/
theorem orderKey_iff_quotedBefore :
    (∃ event, Publishes { rb := [] } quotedBefore 53 0 0 event ∧
        HasOrderKey event.key (ascii "B") (ascii "M") (ascii "A") (ascii "X")) ↔
      KeyIntact (reportedFields quotedBefore quotedBeforeRun.calls) (ascii "B") (ascii "M")
        (ascii "A") (ascii "X") :=
  @orderKey_iff quotedBefore 53 quotedBeforeRun (by decide) (by decide +kernel) rfl (ascii "B")
    (ascii "M") (ascii "B") (ascii "M") (ascii "A") (ascii "X")
    (.order ⟨by decide +kernel, by decide +kernel⟩) (by decide +kernel) (by decide +kernel)
    (by decide +kernel) (by decide +kernel) { rb := [] } 0 0

/-- An order whose QuoteID stands behind its ClOrdID. -/
def quotedBehind : List UInt8 :=
  ascii "8=FIX.4.4" ++ SOH :: ascii "9=31" ++ SOH :: ascii "35=D" ++ SOH :: ascii "49=B" ++
    SOH :: ascii "56=M" ++ SOH :: ascii "11=A" ++ SOH :: ascii "55=X" ++ SOH :: ascii "117=Q" ++
    SOH :: ascii "10=210" ++ [SOH]

/-- Its key has the QuoteID in place of the ClOrdID. -/
theorem not_hasOrderKey_quotedBehind :
    ∃ run, vmarsFixParseMsg quotedBehind quotedBehind.length 0 = .ok run ∧ run.ret.result = .ok ∧
      Parties (reportedFields quotedBehind run.calls) (ascii "B") (ascii "M") (ascii "B")
        (ascii "M") ∧
      valuesAt [fixClOrdId] (reportedFields quotedBehind run.calls) = [ascii "A"] ∧
      valuesAt [fixSymbol] (reportedFields quotedBehind run.calls) = [ascii "X"] ∧
      valuesAt [fixSenderCompId] (reportedFields quotedBehind run.calls) = [ascii "B"] ∧
      valuesAt [fixTargetCompId] (reportedFields quotedBehind run.calls) = [ascii "M"] ∧
      ∃ event, Publishes { rb := [] } quotedBehind quotedBehind.length 0 0 event ∧
        event.key = ascii "B|M|Q|X" ∧
        ¬ HasOrderKey event.key (ascii "B") (ascii "M") (ascii "A") (ascii "X") := by
  have hrun : vmarsFixParseMsg quotedBehind quotedBehind.length 0 =
      .ok { ret := { result := .ok, bytesConsumed := 53 }
            calls := [.startp 31 44, .tagp 35 (.inBuffer 18 1), .tagp 49 (.inBuffer 23 1),
              .tagp 56 (.inBuffer 28 1), .tagp 11 (.inBuffer 33 1), .tagp 55 (.inBuffer 38 1),
              .tagp 117 (.inBuffer 44 1), .tagp 10 (.inBuffer 49 3), .endp] } := by
    decide +kernel
  have hfields : reportedFields quotedBehind
      [.startp 31 44, .tagp 35 (.inBuffer 18 1), .tagp 49 (.inBuffer 23 1),
        .tagp 56 (.inBuffer 28 1), .tagp 11 (.inBuffer 33 1), .tagp 55 (.inBuffer 38 1),
        .tagp 117 (.inBuffer 44 1), .tagp 10 (.inBuffer 49 3), .endp] =
      [(35, ascii "D"), (49, ascii "B"), (56, ascii "M"), (11, ascii "A"), (55, ascii "X"),
        (117, ascii "Q"), (10, ascii "210")] := by
    decide +kernel
  refine ⟨_, hrun, rfl, ?_⟩
  simp only [publishes_iff_eventOf (Nat.le_refl _) hrun rfl, hfields]
  refine ⟨.order ⟨by decide, by decide⟩, by decide, by decide, by decide, by decide,
    { tvSec := 0, tvNsec := 0, msgType := 68, key := ascii "B|M|Q|X" }, by decide, rfl, ?_⟩
  intro hkey
  obtain ⟨instrument, hkey, -⟩ := hkey
  simp [ascii] at hkey

end Vmars
