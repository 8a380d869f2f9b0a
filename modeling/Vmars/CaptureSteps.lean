import Mathlib.Logic.Relation
import Vmars.FixReassembly
import Vmars.LatencyMeasurement
import Vmars.TrafficAccounting

/-!
# The steps of a capture

A call of `vmars_extract_fix_messages` is a sequence of a few kinds of steps on its context.
What each of them keeps, every capture keeps, whatever its packets and blocks.

* `extract_steps`, `walkBlocks_steps`: a call, and the walk over blocks of the kernel, are
  such sequences;
* `CaptureStep.fits`: the summaries that a capture publishes fit the fields of their records.
-/

namespace Vmars

open CMemory Occurrence Relation

section Steps

variable {R : Type} [RingBuffer R]

/-- What a capture does to its context; the messages that it parses have at most `n` bytes. -/
inductive CaptureStep (n : Nat) : CaptureContext R → CaptureContext R → Prop where
  | put {ctx ctx' : CaptureContext R} {streamId : Ipv4Stream} {s : List UInt8} {len : Int}
      (h : putFragment ctx streamId s len = .ok ctx') : CaptureStep n ctx ctx'
  | store {ctx ctx' : CaptureContext R} {streamId : Ipv4Stream} {s : List UInt8}
      (h : storeFragment ctx streamId s = .ok ctx') : CaptureStep n ctx ctx'
  | remove (ctx : CaptureContext R) (streamId : Ipv4Stream) :
      CaptureStep n ctx (removeFragment ctx streamId)
  | corrupt (ctx : CaptureContext R) :
      CaptureStep n ctx
        { ctx with counters.corruptMessages := ctx.counters.corruptMessages + 1 }
  | parse {ctx ctx' : CaptureContext R} {message : List UInt8} {len : Int}
      {result : VmarsFixParseResult × FixDetails} (hsize : message.length ≤ n)
      (h : tryParseFixMessage ctx message len = .ok (ctx', result)) : CaptureStep n ctx ctx'
  | process {ctx ctx' : CaptureContext R} {message : List UInt8} {len : Int} {run : ParseRun}
      {tvSec tvNsec : UInt32} {details : FixDetails} (hsize : message.length ≤ n)
      (hrun : vmarsFixParseMsg message len 0 = .ok run)
      (hdetails : collect message run.calls {} = .ok details)
      (h : processForLatencyMeasurement ctx tvSec tvNsec details = .ok ctx') :
      CaptureStep n ctx ctx'

/-- Several steps. -/
def CaptureSteps (n : Nat) : CaptureContext R → CaptureContext R → Prop :=
  ReflTransGen (CaptureStep n)

variable {n : Nat} {packet : Packet} {ctx ctx' : CaptureContext R}

/-- A message is parsed, and published when it is accepted. -/
theorem parse_steps {message : List UInt8} {len : Int} {ctx₁ ctx₂ : CaptureContext R}
    {result : VmarsFixParseResult} {details : FixDetails} {tvSec tvNsec : UInt32}
    (hsize : message.length ≤ n)
    (hparse : tryParseFixMessage ctx message len = .ok (ctx₁, result, details))
    (hprocess : processForLatencyMeasurement ctx₁ tvSec tvNsec details = .ok ctx₂) :
    CaptureSteps n ctx ctx₂ := by
  obtain ⟨run, hrun, hrest⟩ := bind_eq_ok.mp hparse
  obtain ⟨details', hdetails, hrest⟩ := bind_eq_ok.mp hrest
  obtain rfl : details' = details := congrArg (fun r => r.2.2) (Except.ok.inj hrest)
  exact (ReflTransGen.single (.parse hsize hparse)).tail (.process hsize hrun hdetails hprocess)

/-- A round of the loop. -/
theorem extractRound_steps (hsize : packet.data.length ≤ n) {curr : Nat} {bufRemaining : Int}
    {rest : Option Nat × Int}
    (h : extractRound packet ctx curr bufRemaining = .ok (ctx', rest)) :
    CaptureSteps n ctx ctx' := by
  obtain ⟨next, -, h⟩ := bind_eq_ok.mp h
  obtain ⟨message, hmessage, h⟩ := bind_eq_ok.mp h
  have hlength : message.length ≤ n := by
    obtain ⟨-, rfl⟩ := pointerAt_eq_ok hmessage
    rw [List.length_drop]
    omega
  obtain ⟨⟨ctx₁, result, details⟩, hparse, h⟩ := bind_eq_ok.mp h
  simp only at h
  split at h
  · obtain ⟨ctx₂, hprocess, h⟩ := bind_eq_ok.mp h
    obtain ⟨rfl, -⟩ := Prod.mk.inj (Except.ok.inj h)
    exact parse_steps hlength hparse hprocess
  · have hparsed : CaptureSteps n ctx ctx₁ := .single (.parse hlength hparse)
    split at h
    · obtain ⟨ctx₂, hput, h⟩ := bind_eq_ok.mp h
      obtain ⟨rfl, -⟩ := Prod.mk.inj (Except.ok.inj h)
      exact hparsed.tail (.put hput)
    · obtain ⟨rfl, -⟩ := Prod.mk.inj (Except.ok.inj h)
      exact hparsed

/-- The loop, by induction on its fuel. -/
theorem extractLoop_steps (hsize : packet.data.length ≤ n) {fuel : Nat} {curr : Option Nat}
    {bufRemaining bufRemaining' : Int}
    (h : extractLoop packet fuel ctx curr bufRemaining = .ok (ctx', bufRemaining')) :
    CaptureSteps n ctx ctx' := by
  induction fuel generalizing ctx curr bufRemaining with
  | zero =>
      cases curr with
      | none =>
          cases h
          exact .refl
      | some curr => cases h
  | succ fuel ih =>
      cases curr with
      | none =>
          cases h
          exact .refl
      | some curr =>
          obtain ⟨⟨ctx₁, rest⟩, hround, hrest⟩ := bind_eq_ok.mp h
          exact (extractRound_steps hsize hround).trans (ih hrest)

/-- The bytes before the first marker. -/
theorem leadingFragment_steps (hn : fragmentCapacity ≤ n) {len : Nat}
    (h : leadingFragment packet ctx len = .ok ctx') : CaptureSteps n ctx ctx' := by
  unfold leadingFragment at h
  split at h
  · split at h
    · exact .single (.put h)
    · obtain rfl := Except.ok.inj h
      exact .single (.corrupt ctx)
  · next fragment hget =>
    split at h
    · next hfits =>
      obtain ⟨tail, htail, h⟩ := bind_eq_ok.mp h
      have hlength : (fragment.s ++ tail).length ≤ n := by
        rw [List.length_append, strncpy_length htail]
        omega
      obtain ⟨ctx₁, hstore, h⟩ := bind_eq_ok.mp h
      obtain ⟨⟨ctx₂, result, details⟩, hparse, h⟩ := bind_eq_ok.mp h
      have hstored : CaptureSteps n ctx ctx₁ := .single (.store hstore)
      -- the fragment goes or stays
      have hlast : ∀ ctx₃, CaptureSteps n ctx ctx₃ →
          Except.ok (if result.result ≠ .messageTooShort then
            removeFragment ctx₃ packet.streamId else ctx₃) = (.ok ctx' : Checked _) →
          CaptureSteps n ctx ctx' := by
        intro ctx₃ hsteps hok
        obtain rfl := Except.ok.inj hok
        split
        · exact hsteps.tail (.remove ctx₃ packet.streamId)
        · exact hsteps
      simp only at h
      split at h
      · obtain ⟨ctx₃, hprocess, h⟩ := bind_eq_ok.mp h
        exact hlast ctx₃ (hstored.trans (parse_steps hlength hparse hprocess)) h
      · exact hlast ctx₂ (hstored.tail (.parse hlength hparse)) h
    · obtain rfl := Except.ok.inj h
      exact .refl

/-- The loop and what is left behind it. -/
theorem finishPacket_steps (hsize : packet.data.length ≤ n) {curr : Option Nat}
    {bufRemaining : Int} (h : finishPacket packet ctx curr bufRemaining = .ok ctx') :
    CaptureSteps n ctx ctx' := by
  obtain ⟨⟨ctx₁, left⟩, hloop, hleft⟩ := bind_eq_ok.mp h
  have hlooped := extractLoop_steps hsize hloop
  change storeLeftover packet ctx₁ left = .ok ctx' at hleft
  unfold storeLeftover at hleft
  split at hleft
  · obtain ⟨rest, -, hput⟩ := bind_eq_ok.mp hleft
    exact hlooped.tail (.put hput)
  · obtain rfl := Except.ok.inj hleft
    exact hlooped

/-- **A call of `vmars_extract_fix_messages`** is a sequence of steps. -/
theorem extract_steps (hsize : packet.data.length ≤ n) (hn : fragmentCapacity ≤ n)
    (h : vmarsExtractFixMessages ctx packet = .ok ctx') : CaptureSteps n ctx ctx' := by
  by_cases hfirst : firstOccurrence marker packet.data = some 0
  · have hstart : marker <+: packet.data :=
      occursAt_zero.mp ((firstOccurrence_eq_some marker_ne_nil).mp hfirst).1
    rw [extract_of_marker hstart] at h
    exact finishPacket_steps hsize h
  · rw [extract_of_lead rfl hfirst] at h
    obtain ⟨ctx₁, hlead, hrest⟩ := bind_eq_ok.mp h
    exact (leadingFragment_steps hn hlead).trans (finishPacket_steps hsize hrest)

/-- A capture is the steps of its packets. -/
theorem extractAll_steps {packets : List Packet}
    (hsize : ∀ packet ∈ packets, packet.data.length ≤ n) (hn : fragmentCapacity ≤ n)
    (h : extractAll ctx packets = .ok ctx') : CaptureSteps n ctx ctx' := by
  induction packets generalizing ctx with
  | nil =>
      cases h
      exact .refl
  | cons packet packets ih =>
      obtain ⟨ctx₁, hcall, hrest⟩ := bind_eq_ok.mp h
      have hrest' := ih (fun p hp => hsize p (List.mem_cons_of_mem _ hp)) hrest
      exact (extract_steps (hsize packet (List.mem_cons_self ..)) hn hcall).trans hrest'

/-- The most bytes that `display` hands over: a length of 16 bits. -/
def maxPayload : Nat := 65535

/-- `display` hands over at most that many bytes, or a length that is no `int`. -/
theorem displayCall_dataLen {port : Int} {mem : List UInt8} {ppd : Nat} {call : ExtractCall}
    (h : displayCall port mem ppd = .ok (some call))
    (hint : call.dataLen + marker.length ≤ intMax) : call.dataLen ≤ maxPayload := by
  obtain ⟨frame, -, -, htotal, hihl, hdoff, -, -, hlen⟩ := displayCall_frame h
  rw [hlen] at hint ⊢
  unfold toSize intMax at *
  unfold maxPayload
  omega

/-- `display` hands over one payload, or counts a packet that is none. -/
theorem display_steps {port : Int} {mem : List UInt8} {ppd : Nat}
    (h : display port mem ppd ctx = .ok ctx') : CaptureSteps maxPayload ctx ctx' := by
  obtain ⟨call, hcall, h⟩ := bind_eq_ok.mp h
  cases call with
  | none =>
      obtain rfl := Except.ok.inj h
      exact .refl
  | some call =>
      simp only [extractRange] at h
      split at h
      · next hint =>
        split at h
        · have hdata := displayCall_dataLen hcall hint
          apply extract_steps _ (by decide) h
          exact Nat.le_trans (List.length_take_le _ _) hdata
        · cases h
      · split at h
        · obtain rfl := Except.ok.inj h
          exact .single (.corrupt ctx)
        · split at h
          · cases h
          · obtain rfl := Except.ok.inj h
            exact .refl

/-- **The walk over blocks of the kernel** is a sequence of steps. -/
theorem walkBlocks_steps {port : Int} {blocks : List (List UInt8)}
    {th th' : Monitored (CaptureContext R)}
    (h : walkBlocks (display port) th blocks = .ok th') :
    CaptureSteps maxPayload th.ctx th'.ctx := by
  have hpackets : ∀ (pbd : List UInt8) left ppd (ctx ctx' : CaptureContext R) bytes bytes',
      walkPackets (display port pbd) pbd left ppd ctx bytes = .ok (ctx', bytes') →
        CaptureSteps maxPayload ctx ctx' := by
    intro pbd left
    induction left with
    | zero =>
        intro ppd ctx ctx' bytes bytes' h
        obtain ⟨rfl, -⟩ := Prod.mk.inj (Except.ok.inj h)
        exact .refl
    | succ left ih =>
        intro ppd ctx ctx' bytes bytes' h
        obtain ⟨hdr, -, h⟩ := bind_eq_ok.mp h
        obtain ⟨ctx₁, hdisplay, h⟩ := bind_eq_ok.mp h
        exact (display_steps hdisplay).trans (ih _ _ _ _ _ h)
  unfold walkBlocks at h
  induction blocks generalizing th with
  | nil =>
      obtain rfl := Except.ok.inj h
      exact .refl
  | cons pbd blocks ih =>
      rw [List.foldlM_cons] at h
      obtain ⟨th₁, hblock, hrest⟩ := bind_eq_ok.mp h
      obtain ⟨numPkts, -, hblock⟩ := bind_eq_ok.mp hblock
      obtain ⟨offsetToFirstPkt, -, hblock⟩ := bind_eq_ok.mp hblock
      obtain ⟨⟨ctx₁, bytes⟩, hwalk, hblock⟩ := bind_eq_ok.mp hblock
      obtain rfl := Except.ok.inj hblock
      exact (hpackets _ _ _ _ _ _ _ hwalk).trans (ih hrest)

end Steps

/-! ## What is published fits its record -/

/-- Only CheckSum is handed out from outside the message. -/
def Callback.FromMessage : Callback → Prop
  | .tagp tag (.calculatedChecksumStr _) => tag = 10
  | _ => True

/-- One field: its value lies in the message, or is the text of the checksum. -/
theorem fieldRound_fromMessage {buf : List UInt8} {len : Int} {options : Int32} {calculated : Int}
    {position : Nat} {tag : Int} {value : TagValue} {next : Nat}
    (h : fieldRound buf len options calculated position = .ok (.call tag value next)) :
    (Callback.tagp tag value).FromMessage := by
  obtain ⟨found, -, h⟩ := bind_eq_ok.mp h
  cases found with
  | none => cases h
  | some found =>
      obtain ⟨tag', valueStart⟩ := found
      obtain ⟨next', -, h⟩ := bind_eq_ok.mp h
      cases next' with
      | none => cases h
      | some next' =>
          simp only at h
          split at h
          · next hten =>
            cases h
            exact hten.2
          · cases h
            trivial

/-- The loop over the fields, by induction on its fuel. -/
theorem fieldLoop_fromMessage {buf : List UInt8} {len : Int} {options : Int32} {calculated : Int}
    {fuel position : Nat} {run : FixResult × List Callback}
    (h : fieldLoop buf len options calculated fuel position = .ok run) :
    ∀ call ∈ run.2, call.FromMessage := by
  induction fuel generalizing position run with
  | zero => cases h
  | succ fuel ih =>
      obtain ⟨round, hround, h⟩ := bind_eq_ok.mp h
      cases round with
      | stop result =>
          cases h
          intro call hcall
          cases hcall
      | call tag value next =>
          have hfirst := fieldRound_fromMessage hround
          simp only at h
          split at h
          · obtain ⟨rest, hrest, h⟩ := bind_eq_ok.mp h
            cases h
            intro call hcall
            rcases List.mem_cons.mp hcall with rfl | hcall
            · exact hfirst
            · exact ih hrest call hcall
          · cases h
            intro call hcall
            obtain rfl := List.mem_singleton.mp hcall
            exact hfirst

/-- The parser behind BodyLength. -/
theorem parseBody_fromMessage {buf : List UInt8} {len fixType : Int} {options : Int32}
    {msgLen : Int} {position : Nat} {run : ParseRun}
    (h : parseBody buf len fixType options msgLen position = .ok run) :
    ∀ call ∈ run.calls, call.FromMessage := by
  unfold parseBody at h
  split at h
  · cases h
    intro call hcall
    cases hcall
  · obtain ⟨calculated, -, h⟩ := bind_eq_ok.mp h
    obtain ⟨checksum, -, h⟩ := bind_eq_ok.mp h
    split at h
    · cases h
      intro call hcall
      cases hcall
    · obtain ⟨fields, hfields, h⟩ := bind_eq_ok.mp h
      cases h
      intro call hcall
      rcases List.mem_append.mp hcall with hcall | hcall
      · rcases List.mem_cons.mp hcall with rfl | hcall
        · trivial
        · exact fieldLoop_fromMessage hfields call hcall
      · split at hcall
        · obtain rfl := List.mem_singleton.mp hcall
          trivial
        · cases hcall

/-- The calls of any run of the parser. -/
theorem parse_fromMessage {buf : List UInt8} {len : Int} {options : Int32} {run : ParseRun}
    (h : vmarsFixParseMsg buf len options = .ok run) : ∀ call ∈ run.calls, call.FromMessage := by
  have hrejected : ∀ result, (.ok (rejected result len) : Checked ParseRun) = .ok run →
      ∀ call ∈ run.calls, call.FromMessage := by
    intro result heq call hcall
    cases heq
    cases hcall
  unfold vmarsFixParseMsg at h
  split at h
  · exact hrejected _ h
  · obtain ⟨is42, -, h⟩ := bind_eq_ok.mp h
    obtain ⟨is44, -, h⟩ := bind_eq_ok.mp h
    simp only at h
    generalize (if is44 = true then (44 : Int) else if is42 = true then 42 else -1) = fixType at h
    split at h
    · exact hrejected _ h
    · obtain ⟨body, -, h⟩ := bind_eq_ok.mp h
      cases body with
      | none => exact hrejected _ h
      | some body => exact parseBody_fromMessage h

/-- The texts of the details have at most `n` bytes. -/
structure FixDetails.Within (n : Nat) (details : FixDetails) : Prop where
  senderCompId : details.senderCompId.length ≤ n
  clOrdId : details.clOrdId.length ≤ n
  targetCompId : details.targetCompId.length ≤ n
  symbol : details.symbol.length ≤ n
  securityId : details.securityId.length ≤ n

namespace FixDetails.Within

variable {n : Nat} {details details' : FixDetails}

/-- A value that is short enough, in any slot. -/
theorem storeStr (h : details.Within n) (fixTag : Int) {value : List UInt8}
    (hvalue : value.length ≤ n) : (details.storeStr fixTag value).Within n := by
  obtain ⟨hsender, hclOrdId, htarget, hsymbol, hsecurity⟩ := h
  unfold FixDetails.storeStr
  split_ifs
  all_goals exact ⟨by assumption, by assumption, by assumption, by assumption, by assumption⟩

/-- A field whose value lies in the message, or that is not stored. -/
theorem handleTag (h : details.Within n) {fixTag : Int} {fixValue : List UInt8} {len : Nat}
    (hvalue : fixValue.length ≤ n ∨ fixTag = 10)
    (hhandle : Vmars.handleTag details fixTag fixValue len = .ok details') :
    details'.Within n := by
  have hsame : ∀ messageType execType quoteStatus,
      { details with messageType, execType, quoteStatus }.Within n := fun _ _ _ =>
    ⟨h.senderCompId, h.clOrdId, h.targetCompId, h.symbol, h.securityId⟩
  unfold Vmars.handleTag at hhandle
  split at hhandle
  · split at hhandle
    · obtain ⟨c, -, hhandle⟩ := bind_eq_ok.mp hhandle
      obtain rfl := Except.ok.inj hhandle
      exact hsame _ _ _
    · split at hhandle
      · obtain ⟨x, -, hhandle⟩ := bind_eq_ok.mp hhandle
        obtain ⟨y, -, hhandle⟩ := bind_eq_ok.mp hhandle
        obtain rfl := Except.ok.inj hhandle
        exact hsame _ _ _
      · obtain rfl := Except.ok.inj hhandle
        exact h
  · split at hhandle
    · obtain ⟨c, -, hhandle⟩ := bind_eq_ok.mp hhandle
      obtain rfl := Except.ok.inj hhandle
      exact hsame _ _ _
    · split at hhandle
      · obtain ⟨status, -, hhandle⟩ := bind_eq_ok.mp hhandle
        obtain rfl := Except.ok.inj hhandle
        exact hsame _ _ _
      · obtain rfl := Except.ok.inj hhandle
        rcases hvalue with hvalue | rfl
        · apply h.storeStr
          exact Nat.le_trans (List.length_take_le' _ _) hvalue
        · exact h

/-- The values of a message are parts of it. -/
theorem collect {buf : List UInt8} (hbuf : buf.length ≤ n) {calls : List Callback}
    (hcalls : ∀ call ∈ calls, call.FromMessage) (h : details.Within n)
    (hcollect : Vmars.collect buf calls details = .ok details') : details'.Within n := by
  induction calls generalizing details with
  | nil =>
      obtain rfl := Except.ok.inj hcollect
      exact h
  | cons call calls ih =>
      obtain ⟨details₁, hcall, hrest⟩ := bind_eq_ok.mp hcollect
      apply ih (fun c hc => hcalls c (List.mem_cons_of_mem _ hc)) _ hrest
      have hfirst := hcalls call (List.mem_cons_self ..)
      unfold Callback.handle at hcall
      split at hcall
      · apply h.handleTag (.inl _) hcall
        rw [List.length_drop]
        omega
      · exact h.handleTag (.inr hfirst) hcall
      · obtain rfl := Except.ok.inj hcall
        exact h

theorem empty (n : Nat) : ({} : FixDetails).Within n :=
  ⟨Nat.zero_le _, Nat.zero_le _, Nat.zero_le _, Nat.zero_le _, Nat.zero_le _⟩

end FixDetails.Within

/-- Only the six types of the families are measured. -/
theorem measuredIds_msgType {details : FixDetails} {ids : List UInt8 × List UInt8}
    (h : measuredIds details = some ids) :
    -2147483648 ≤ details.messageType ∧ details.messageType < 2147483648 := by
  unfold measuredIds at h
  have hconst : details.messageType = msgTypeNewOrderSingle ∨
      details.messageType = msgTypeMassQuote ∨ details.messageType = msgTypeTraceReq ∨
      details.messageType = msgTypeExecutionReport ∨
      details.messageType = msgTypeMassQuoteAck ∨ details.messageType = msgTypeTraceRsp := by
    split_ifs at h <;> tauto
  unfold msgTypeNewOrderSingle msgTypeMassQuote msgTypeTraceReq msgTypeExecutionReport
    msgTypeMassQuoteAck msgTypeTraceRsp intOf at hconst
  omega

/-- The ids are the two parties. -/
theorem measuredIds_length {n : Nat} {details : FixDetails} {ids : List UInt8 × List UInt8}
    (hdetails : details.Within n) (h : measuredIds details = some ids) :
    ids.1.length ≤ n ∧ ids.2.length ≤ n := by
  have hsender := hdetails.senderCompId
  have htarget := hdetails.targetCompId
  unfold measuredIds at h
  split_ifs at h
  all_goals
    obtain rfl := Option.some.inj h
    exact ⟨by assumption, by assumption⟩

/-- The event of a message whose texts are not too long. -/
theorem eventOf_fits {n : Nat} (hn : 4 * n + 3 ≤ intMax) {tvSec tvNsec : UInt32}
    {details : FixDetails} (hdetails : details.Within n) {summary : FixMessageSummary}
    (h : eventOf tvSec tvNsec details = some summary) : summary.Fits := by
  obtain ⟨ids, hids, rfl⟩ := Option.map_eq_some_iff.mp h
  obtain ⟨hremote, hlocal⟩ := measuredIds_length hdetails hids
  have hclOrdId := hdetails.clOrdId
  have hinstrument : (instrumentOf details).length ≤ n := by
    unfold instrumentOf
    split
    · exact hdetails.symbol
    · exact hdetails.securityId
  have hsec := tvSec.toNat_lt
  have hnsec := tvNsec.toNat_lt
  refine ⟨⟨⟨?_, ?_⟩, ?_, ?_⟩, measuredIds_msgType hids, ?_⟩
  · exact Int.natCast_nonneg _
  · show (tvSec.toNat : Int) < _
    omega
  · exact Int.natCast_nonneg _
  · show (tvNsec.toNat : Int) < _
    omega
  · simp only [keyText, List.length_append, List.length_cons, ncopy_length]
    omega

/-- A step publishes only summaries that fit. -/
theorem CaptureStep.fits {n : Nat} (hn : 4 * n + 3 ≤ intMax)
    {log log' : CaptureContext (List FixMessageSummary)} (h : CaptureStep n log log')
    (hfits : ∀ summary ∈ log.rb, summary.Fits) : ∀ summary ∈ log'.rb, summary.Fits := by
  cases h with
  | put h =>
      obtain ⟨-, -, -, -, hrb, -⟩ := putFragment_ok h
      rw [hrb]
      exact hfits
  | store h =>
      obtain ⟨-, -, hrb, -⟩ := storeFragment_ok h
      rw [hrb]
      exact hfits
  | remove streamId =>
      rw [removeFragment_rb]
      exact hfits
  | corrupt => exact hfits
  | parse hsize h =>
      obtain ⟨run, -, h⟩ := bind_eq_ok.mp h
      obtain ⟨details, -, h⟩ := bind_eq_ok.mp h
      obtain ⟨rfl, -⟩ := Prod.mk.inj (Except.ok.inj h)
      exact hfits
  | @process _ message _ run tvSec tvNsec details hsize hrun hdetails h =>
      have hwithin := (FixDetails.Within.empty n).collect hsize (parse_fromMessage hrun) hdetails
      rw [processForLatencyMeasurement, summaryOf_eq, ok_bind] at h
      cases hevent : eventOf tvSec tvNsec details with
      | none =>
          rw [hevent] at h
          obtain rfl := Except.ok.inj h
          exact hfits
      | some published =>
          rw [hevent] at h
          obtain rfl := Except.ok.inj h
          intro summary hsummary
          rcases List.mem_append.mp hsummary with hsummary | hsummary
          · exact hfits summary hsummary
          · obtain rfl := List.mem_singleton.mp hsummary
            exact eventOf_fits hn hwithin hevent

/-- **What a capture publishes fits**, whatever it captures. -/
theorem CaptureSteps.fits {n : Nat} (hn : 4 * n + 3 ≤ intMax)
    {log log' : CaptureContext (List FixMessageSummary)} (h : CaptureSteps n log log')
    (hfits : ∀ summary ∈ log.rb, summary.Fits) : ∀ summary ∈ log'.rb, summary.Fits := by
  induction h with
  | refl => exact hfits
  | tail _ hstep ih => exact hstep.fits hn ih

end Vmars
