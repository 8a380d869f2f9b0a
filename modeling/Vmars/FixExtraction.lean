import Vmars.FixCapture
import Vmars.FixFields

/-!
# Extraction of well-formed messages

What `vmarsExtractFixMessages` does where the data of a packet consists of
encoded messages that contain the marker only at their start.

* `searchNext_eq` — the search finds the next marker of the packet;
* `tryParse_message` — a complete message is accepted, with the details of its
  fields, and an incomplete one is too short;
* `extractRound_message` / `extractLoop_messages` — the loop delivers a run of
  messages one after the other.
-/

namespace Vmars

open CMemory Occurrence

section Extraction

variable {R : Type}

/-! ## The table of fragments -/

/-- Storing a fragment that fits replaces the one of its stream. -/
theorem storeFragment_eq {ctx : CaptureContext R} {streamId : Ipv4Stream} {s : List UInt8}
    (h : s.length ≤ fragmentCapacity) :
    storeFragment ctx streamId s = .ok { ctx with
      state := some (Function.update (ctx.state.getD fun _ => none) streamId (some ⟨s, h⟩)) } := by
  rw [storeFragment, dif_pos h]

/-- What storing a fragment changes. -/
theorem storeFragment_ok {ctx ctx' : CaptureContext R} {streamId : Ipv4Stream} {s : List UInt8}
    (h : storeFragment ctx streamId s = .ok ctx') :
    (∃ fragment, getFragment ctx' streamId = some fragment ∧ fragment.s = s) ∧
      (∀ other, other ≠ streamId → getFragment ctx' other = getFragment ctx other) ∧
      ctx'.rb = ctx.rb ∧ ctx'.counters = ctx.counters ∧ ctx'.accepted = ctx.accepted := by
  unfold storeFragment at h
  split at h
  · cases h
    refine ⟨⟨_, Function.update_self .., rfl⟩, fun other hother => ?_, rfl, rfl, rfl⟩
    show Function.update _ _ _ _ = _
    rw [Function.update_of_ne hother, getFragment]
    cases ctx.state with
    | none => rfl
    | some map => rfl
  · cases h

/-- What `put_fragment` changes. -/
theorem putFragment_ok {ctx ctx' : CaptureContext R} {streamId : Ipv4Stream}
    {message : List UInt8} {len : Int} (h : putFragment ctx streamId message len = .ok ctx') :
    ∃ s, strncpy message len.toNat = .ok s ∧
      (∃ fragment, getFragment ctx' streamId = some fragment ∧ fragment.s = s) ∧
      (∀ other, other ≠ streamId → getFragment ctx' other = getFragment ctx other) ∧
      ctx'.rb = ctx.rb ∧ ctx'.counters = ctx.counters ∧ ctx'.accepted = ctx.accepted := by
  unfold putFragment at h
  split at h
  · obtain ⟨s, hs, hstore⟩ := bind_eq_ok.mp h
    exact ⟨s, hs, storeFragment_ok hstore⟩
  · cases h

/-- `put_fragment` of readable bytes that fit returns. -/
theorem putFragment_isOk {ctx : CaptureContext R} {streamId : Ipv4Stream} {message : List UInt8}
    {n : Nat} (hn : n ≤ message.length) (hfits : n ≤ fragmentCapacity) :
    ∃ ctx', putFragment ctx streamId message n = .ok ctx' := by
  rw [putFragment, if_pos ⟨Int.natCast_nonneg _, by omega⟩, Int.toNat_natCast, strncpy_take hn,
    ok_bind, storeFragment_eq (by rw [ncopy_length, List.length_take]; omega)]
  exact ⟨_, rfl⟩

/-- Bytes without NUL that fit are stored as they are. -/
theorem putFragment_eq {ctx : CaptureContext R} {streamId : Ipv4Stream} {message : List UInt8}
    {n : Nat} (hn : n ≤ message.length) (hfits : n ≤ fragmentCapacity)
    (hnul : (0 : UInt8) ∉ message.take n) :
    ∃ ctx', putFragment ctx streamId message n = .ok ctx' ∧
      (∃ fragment, getFragment ctx' streamId = some fragment ∧ fragment.s = message.take n) ∧
      ctx'.rb = ctx.rb ∧ ctx'.counters = ctx.counters ∧ ctx'.accepted = ctx.accepted := by
  obtain ⟨ctx', hrun⟩ := @putFragment_isOk _ ctx streamId _ _ hn hfits
  obtain ⟨s, hs, hfragment, -, hrb, hcounters, haccepted⟩ := putFragment_ok hrun
  rw [Int.toNat_natCast, strncpy_of_nul_free hn hnul] at hs
  obtain rfl := Except.ok.inj hs
  exact ⟨ctx', hrun, hfragment, hrb, hcounters, haccepted⟩

/-- `remove_fragment` takes out the fragment of one stream. -/
theorem getFragment_remove (ctx : CaptureContext R) (streamId other : Ipv4Stream) :
    getFragment (removeFragment ctx streamId) other =
      if other = streamId then none else getFragment ctx other := by
  unfold removeFragment
  cases hstate : ctx.state with
  | none => simp [getFragment, hstate]
  | some fragmentMap => simp [getFragment, hstate, Function.update_apply]

/-! ## The search -/

theorem marker_ne_nil : marker ≠ [] := by decide

theorem matcher_len : matcher.len = 8 := by decide

theorem marker_length : marker.length = 8 := by decide

theorem marker_no_soh : SOH ∉ marker := by decide

/-- The search behind a message finds the next marker of the packet. -/
theorem searchNext_eq {packet : Packet} {curr : Nat} (h : curr + 8 ≤ packet.data.length) :
    searchNext packet.data curr ((packet.data.length - curr : Nat) : Int) =
      .ok ((firstOccurrence marker (packet.data.drop (curr + 8))).map (curr + 8 + ·)) := by
  have hmax := packet.length_le
  rw [marker_length] at hmax
  unfold intMax at hmax
  have hsize : toSize ((packet.data.length - curr : Nat) : Int) = packet.data.length - curr := by
    rw [toSize_natCast]
    omega
  unfold searchNext
  rw [hsize, matcher_len]
  split
  · next hlong =>
    have hlength : wrap32 (((packet.data.length - curr : Nat) : Int) - (8 : Nat)) =
        ((packet.data.drop (curr + 8)).length : Nat) := by
      rw [List.length_drop, wrap32_of_range (by omega) (by omega)]
      omega
    have hsearch : boyermooreSearch matcher (packet.data.drop (curr + 8))
        ((packet.data.drop (curr + 8)).length : Nat) =
        .ok (firstOccurrence marker (packet.data.drop (curr + 8))) := by
      rw [matcher, boyermooreSearch_eq marker_ne_nil (Nat.le_refl _) ?_, List.take_length]
      rw [List.length_drop, marker_length]
      unfold intMax
      omega
    rw [pointerAt_natCast h, ok_bind, hlength, hsearch, ok_bind]
  · -- the packet ends with this marker
    have hnil : packet.data.drop (curr + 8) = [] := List.drop_eq_nil_of_le (by omega)
    rw [hnil]
    rfl

/-- The position, when a marker stands there. -/
def markerAt (data : List UInt8) (position : Nat) : Option Nat :=
  if marker <+: data.drop position then some position else none

/-- Behind a text with the marker only at its start, which ends with SOH, the
next marker is right at the end of the text or there is none. -/
theorem firstOccurrence_behind {text tail : List UInt8} (honly : OnlyAtStart marker text)
    (hsoh : text.getLast? = some SOH) (hlen : 8 ≤ text.length)
    (htail : marker <+: tail ∨ tail.length < 8) :
    firstOccurrence marker ((text ++ tail).drop 8) =
      if marker <+: tail then some (text.length - 8) else none := by
  -- no marker starts inside the text
  have hinside : ∀ i, 8 + i < text.length → ¬ OccursAt marker ((text ++ tail).drop 8) i := by
    intro i hi hocc
    have hzero := (honly _).mp ((occursAt_drop.mp hocc).of_append marker_no_soh hsoh hi)
    omega
  split
  · next hmarker =>
    rw [firstOccurrence_eq_some marker_ne_nil]
    refine ⟨?_, fun j hj => hinside j (by omega)⟩
    rw [occursAt_drop, Nat.add_sub_cancel' hlen]
    exact (occursAt_append_right (k := 0)).mpr (occursAt_zero.mpr hmarker)
  · next hmarker =>
    rw [firstOccurrence_eq_none marker_ne_nil]
    intro i hocc
    by_cases hi : 8 + i < text.length
    · exact hinside i hi hocc
    · have hshort := htail.resolve_left hmarker
      have hfits := hocc.length_le marker_ne_nil
      rw [marker_length, List.length_drop, List.length_append] at hfits
      omega

/-! ## Accepted messages -/

/-- The details that the fields of a message collect. -/
def detailsOf (fields : List Field) (details : FixDetails) : FixDetails :=
  fields.foldl (fun details field => details.addField field.tag.value field.value) details

/-- The details of a message, its trailer included. -/
def FixMessage.details (m : FixMessage) : FixDetails := detailsOf (m.fields ++ [m.trailerField]) {}

/-- A field as the parser reports it. -/
def Field.reported (field : Field) : Int × List UInt8 := (field.tag.value, field.value)

/-- The details of written fields are those that the callbacks collect. -/
theorem detailsOf_eq_addFields (fields : List Field) (details : FixDetails) :
    detailsOf fields details = details.addFields (fields.map Field.reported) := by
  rw [detailsOf, FixDetails.addFields, List.foldl_map]
  rfl

/-- The parser reports the fields of a message and its trailer. -/
theorem reportedFields_encode (m : FixMessage) (tail : List UInt8) :
    reportedFields (m.encode ++ tail)
        (.startp m.bodyLength.value m.version.fixType ::
          fieldCalls 0 m.checksum m.bodyStart (m.fields ++ [m.trailerField]) ++ [.endp]) =
      (m.fields ++ [m.trailerField]).map Field.reported := by
  have hevents := @events_trailer 0 m m.trailerField tail rfl (by
    intro field _ hopt
    exact absurd hopt.1 (by decide))
  rw [← m.trailer_eq, ← FixMessage.encode] at hevents
  rw [reportedFields_eq_events, hevents, if_neg (by decide)]
  have hten : m.trailerField.reported = (10, m.trailerField.value) := by
    have htag : (m.trailerField.tag.value : Int) = 10 := by
      change ((decimal (ascii "10") : Nat) : Int) = 10
      decide
    rw [Field.reported, htag]
  have hfields : (m.fields.map fun field =>
      Event.tagp field.tag.value field.value).filterMap Event.field =
        m.fields.map Field.reported := by
    rw [List.filterMap_map, ← List.filterMap_eq_map]
    rfl
  rw [List.map_append, List.map_singleton, hten, List.cons_append, List.filterMap_cons_none rfl,
    List.filterMap_append, hfields]
  rfl

/-- A complete message is accepted, whatever follows it. -/
theorem tryParse_message (m : FixMessage) {ctx : CaptureContext R} {tail : List UInt8} {len : Nat}
    (hlo : m.encode.length ≤ len) (hhi : len ≤ (m.encode ++ tail).length)
    (hfit : m.encode.length ≤ intMax) :
    tryParseFixMessage ctx (m.encode ++ tail) len =
      .ok ({ ctx with
              counters := countResult ctx.counters .ok
              accepted := ctx.accepted ++ [m.encode] },
            { result := .ok, bytesConsumed := m.encode.length }, m.details) := by
  have hrun := @vmarsFixParseMsg_encode 0 m tail len hlo hhi hfit
  have hcollect := collect_accepted hhi hrun rfl
  rw [reportedFields_encode, ← detailsOf_eq_addFields] at hcollect
  rw [tryParseFixMessage, hrun, ok_bind, hcollect, ok_bind]
  simp only [if_true, Int.toNat_natCast, List.take_left]
  rfl

/-- An incomplete message is too short, which counts nothing. -/
theorem tryParse_incomplete (m : FixMessage) {ctx : CaptureContext R} {buf : List UInt8} {len : Nat}
    (hlt : len < m.encode.length) (hbuf : len ≤ buf.length)
    (hpre : buf.take len = m.encode.take len) (hfit : m.encode.length ≤ intMax) :
    tryParseFixMessage ctx buf len =
      .ok (ctx, { result := .messageTooShort, bytesConsumed := len }, {}) := by
  have hvalue : m.bodyLength.value ≤ intMax := by
    have := m.encode_length
    omega
  rw [tryParseFixMessage, vmarsFixParseMsg_incomplete m hlt hbuf hpre hvalue]
  rfl

/-! ## Delivery -/

variable [RingBuffer R]

/-- The context after a message with these bytes and details was accepted. -/
def CaptureContext.deliver (ctx : CaptureContext R) (tvSec tvNsec : UInt32) (bytes : List UInt8)
    (details : FixDetails) : CaptureContext R :=
  match eventOf tvSec tvNsec details with
  | none =>
      { ctx with
        counters := countResult ctx.counters .ok
        accepted := ctx.accepted ++ [bytes] }
  | some summary =>
      { ctx with
        counters := recordMessageTypeCounter (countResult ctx.counters .ok) details.messageType
        accepted := ctx.accepted ++ [bytes]
        rb := RingBuffer.push ctx.rb summary }

/-- The context after the messages were accepted. -/
def CaptureContext.deliverAll (ctx : CaptureContext R) (tvSec tvNsec : UInt32)
    (ms : List FixMessage) : CaptureContext R :=
  ms.foldl (fun ctx m => ctx.deliver tvSec tvNsec m.encode m.details) ctx

/-- The event of a message reaches the ring. -/
theorem process_eq {ctx : CaptureContext R} {tvSec tvNsec : UInt32} {bytes : List UInt8}
    {details : FixDetails} :
    processForLatencyMeasurement
        { ctx with
          counters := countResult ctx.counters .ok
          accepted := ctx.accepted ++ [bytes] } tvSec tvNsec details =
      .ok (ctx.deliver tvSec tvNsec bytes details) := by
  rw [processForLatencyMeasurement, summaryOf_eq, ok_bind, CaptureContext.deliver]
  cases eventOf tvSec tvNsec details with
  | none => rfl
  | some summary => rfl

/-! ## What delivery changes -/

/-- The count of a message type leaves the counters of the parser alone. -/
theorem recordMessageTypeCounter_frame (counters : Counters) (messageType : Int) :
    (recordMessageTypeCounter counters messageType).validMessages = counters.validMessages ∧
      (recordMessageTypeCounter counters messageType).invalidChecksums =
        counters.invalidChecksums ∧
      (recordMessageTypeCounter counters messageType).corruptMessages = counters.corruptMessages ∧
      (recordMessageTypeCounter counters messageType).parsingErrors = counters.parsingErrors := by
  unfold recordMessageTypeCounter
  repeat' split
  all_goals exact ⟨rfl, rfl, rfl, rfl⟩

section Deliver

variable (ctx : CaptureContext R) (tvSec tvNsec : UInt32) (bytes : List UInt8)
  (details : FixDetails)

@[simp] theorem deliver_state : (ctx.deliver tvSec tvNsec bytes details).state = ctx.state := by
  unfold CaptureContext.deliver
  split <;> rfl

@[simp] theorem deliver_accepted :
    (ctx.deliver tvSec tvNsec bytes details).accepted = ctx.accepted ++ [bytes] := by
  unfold CaptureContext.deliver
  split <;> rfl

@[simp] theorem getFragment_deliver (streamId : Ipv4Stream) :
    getFragment (ctx.deliver tvSec tvNsec bytes details) streamId = getFragment ctx streamId := by
  rw [getFragment, deliver_state, getFragment]

/-- Delivery counts a valid message and none of the errors. -/
theorem deliver_counters :
    (ctx.deliver tvSec tvNsec bytes details).counters.validMessages =
        ctx.counters.validMessages + 1 ∧
      (ctx.deliver tvSec tvNsec bytes details).counters.invalidChecksums =
        ctx.counters.invalidChecksums ∧
      (ctx.deliver tvSec tvNsec bytes details).counters.corruptMessages =
        ctx.counters.corruptMessages ∧
      (ctx.deliver tvSec tvNsec bytes details).counters.parsingErrors =
        ctx.counters.parsingErrors := by
  unfold CaptureContext.deliver
  split
  · exact ⟨rfl, rfl, rfl, rfl⟩
  · exact recordMessageTypeCounter_frame (countResult ctx.counters .ok) details.messageType

end Deliver

/-- What delivering a run of messages changes. -/
theorem deliverAll_frame (ctx : CaptureContext R) (tvSec tvNsec : UInt32) (ms : List FixMessage) :
    (∀ streamId, getFragment (ctx.deliverAll tvSec tvNsec ms) streamId =
        getFragment ctx streamId) ∧
      (ctx.deliverAll tvSec tvNsec ms).accepted = ctx.accepted ++ ms.map FixMessage.encode ∧
      (ctx.deliverAll tvSec tvNsec ms).counters.validMessages =
        ctx.counters.validMessages + ms.length := by
  induction ms generalizing ctx with
  | nil => exact ⟨fun _ => rfl, (List.append_nil _).symm, (Int.add_zero _).symm⟩
  | cons m ms ih =>
      obtain ⟨hstate, haccepted, hvalid⟩ := ih (ctx.deliver tvSec tvNsec m.encode m.details)
      have hcount := (deliver_counters ctx tvSec tvNsec m.encode m.details).1
      refine ⟨fun streamId => ?_, ?_, ?_⟩
      · exact (hstate streamId).trans (getFragment_deliver ..)
      · refine haccepted.trans ?_
        rw [deliver_accepted, List.append_assoc]
        rfl
      · refine hvalid.trans ?_
        rw [hcount, List.length_cons]
        omega

/-- The number of bytes of a packet is an `int`. -/
theorem Packet.wrap32_length (packet : Packet) :
    wrap32 packet.data.length = packet.data.length := by
  have hmax := packet.length_le
  unfold intMax at hmax
  exact wrap32_of_range (by omega) (by omega)

/-- The bytes before the first marker lie in the packet. -/
theorem firstOccurrence_getD_le {data : List UInt8} {first : Option Nat}
    (hfirst : firstOccurrence marker data = first) : first.getD data.length ≤ data.length := by
  cases first with
  | none => exact Nat.le_refl _
  | some k =>
      have := ((firstOccurrence_eq_some marker_ne_nil).mp hfirst).1.length_le marker_ne_nil
      simp only [Option.getD_some]
      omega

/-- The bytes from the first marker on are counted without a wrap. -/
theorem Packet.wrap32_behind {packet : Packet} {first : Option Nat}
    (hfirst : firstOccurrence marker packet.data = first) :
    wrap32 ((packet.data.length : Int) - (first.getD packet.data.length : Nat)) =
      (packet.data.length - first.getD packet.data.length : Nat) := by
  have hmax := packet.length_le
  unfold intMax at hmax
  have hle := firstOccurrence_getD_le hfirst
  rw [wrap32_of_range (by omega) (by omega)]
  omega

/-- The first search of a packet. -/
theorem searchFirst_eq (packet : Packet) :
    boyermooreSearch matcher packet.data (wrap32 packet.data.length) =
      .ok (firstOccurrence marker packet.data) := by
  rw [packet.wrap32_length, matcher,
    boyermooreSearch_eq marker_ne_nil (Nat.le_refl _) packet.length_le, List.take_length]

/-- The end of the call: the bytes left over become the fragment. -/
def storeLeftover (packet : Packet) (ctx : CaptureContext R) (bufRemaining : Int) :
    Checked (CaptureContext R) :=
  if bufRemaining > 0 then do
    let rest ← pointerAt packet.data (packet.data.length - bufRemaining)
    putFragment ctx packet.streamId rest bufRemaining
  else .ok ctx

/-- The call from the loop on. -/
def finishPacket (packet : Packet) (ctx : CaptureContext R) (curr : Option Nat)
    (bufRemaining : Int) : Checked (CaptureContext R) := do
  let (ctx, bufRemaining) ← extractLoop packet (packet.data.length + 1) ctx curr bufRemaining
  storeLeftover packet ctx bufRemaining

/-- Without a message and without bytes left there is nothing to do. -/
theorem finishPacket_none (packet : Packet) (ctx : CaptureContext R) :
    finishPacket packet ctx none 0 = .ok ctx := rfl

/-- A packet that starts with the marker goes straight into the loop. -/
theorem extract_of_marker {ctx : CaptureContext R} {packet : Packet}
    (hmarker : marker <+: packet.data) :
    vmarsExtractFixMessages ctx packet =
      finishPacket packet ctx (some 0) packet.data.length := by
  have hfirst : firstOccurrence marker packet.data = some 0 :=
    (firstOccurrence_eq_some marker_ne_nil).mpr
      ⟨occursAt_zero.mpr hmarker, fun j hj => by omega⟩
  rw [vmarsExtractFixMessages, searchFirst_eq, hfirst]
  simp only [ok_bind, ne_eq, not_true_eq_false, if_false, packet.wrap32_length]
  rfl

/-- Other packets start with bytes for the stored fragment. -/
theorem extract_of_lead {ctx : CaptureContext R} {packet : Packet} {first : Option Nat}
    (hfirst : firstOccurrence marker packet.data = first) (hlead : first ≠ some 0) :
    vmarsExtractFixMessages ctx packet = (do
      let ctx ← leadingFragment packet ctx (first.getD packet.data.length)
      finishPacket packet ctx first
        (packet.data.length - first.getD packet.data.length : Nat)) := by
  have hleft := Packet.wrap32_behind hfirst
  rw [vmarsExtractFixMessages, searchFirst_eq, hfirst]
  simp only [ok_bind, ne_eq, hlead, not_false_eq_true, if_true, packet.wrap32_length]
  cases leadingFragment packet ctx (first.getD packet.data.length) with
  | error fault => rfl
  | ok ctx₁ =>
      simp only [ok_bind, hleft]
      rfl

/-! ## The loop over a run of messages -/

/-- Encoded messages, one after the other. -/
def encodeAll (ms : List FixMessage) : List UInt8 := ms.flatMap FixMessage.encode

@[simp] theorem encodeAll_nil : encodeAll [] = [] := rfl

@[simp] theorem encodeAll_cons (m : FixMessage) (ms : List FixMessage) :
    encodeAll (m :: ms) = m.encode ++ encodeAll ms := rfl

theorem encodeAll_append (xs ys : List FixMessage) :
    encodeAll (xs ++ ys) = encodeAll xs ++ encodeAll ys := by
  simp [encodeAll]

theorem FixMessage.encode_getLast? (m : FixMessage) : m.encode.getLast? = some SOH := by
  rw [FixMessage.encode, FixMessage.trailer, ← List.append_assoc, List.getLast?_append]
  rfl

/-- A message is not shorter than the marker. -/
theorem FixMessage.encode_length_ge (m : FixMessage) : 8 ≤ m.encode.length := by
  have := m.encode_length
  unfold checkSumLen at this
  have := m.bodyLength_pos
  omega

theorem markerAt_of_isPrefix {pre tail : List UInt8} (h : marker <+: tail) :
    markerAt (pre ++ tail) pre.length = some pre.length := by
  rw [markerAt, List.drop_left, if_pos h]

/-- The round for a message with the marker only at its start delivers it. -/
theorem extractRound_message (m : FixMessage) {packet : Packet} {ctx : CaptureContext R}
    {pre tail : List UInt8} (hdata : packet.data = pre ++ (m.encode ++ tail))
    (honly : OnlyAtStart marker m.encode) (htail : marker <+: tail ∨ tail.length < 8) :
    extractRound packet ctx pre.length ((m.encode ++ tail).length : Nat) =
      .ok (ctx.deliver packet.tvSec packet.tvNsec m.encode m.details,
        markerAt packet.data (pre ++ m.encode).length, (tail.length : Int)) := by
  have hmax := packet.length_le
  have hlen := m.encode_length_ge
  rw [hdata, marker_length] at hmax
  simp only [List.length_append] at hmax
  have hfit : m.encode.length ≤ intMax := by omega
  -- the next marker is right behind the message, or there is none
  have hsearch := @searchNext_eq packet pre.length (by rw [hdata]; simp; omega)
  have hremaining : packet.data.length - pre.length = (m.encode ++ tail).length := by
    rw [hdata]
    simp
  have hdrop : packet.data.drop (pre.length + 8) = (m.encode ++ tail).drop 8 := by
    rw [hdata, ← List.drop_drop, List.drop_left]
  have hbehind : packet.data.drop (pre ++ m.encode).length = tail := by
    rw [hdata, ← List.append_assoc, List.drop_left]
  rw [hremaining, hdrop, firstOccurrence_behind honly m.encode_getLast? hlen htail] at hsearch
  have hpoint : pointerAt packet.data (pre.length : Nat) = .ok (m.encode ++ tail) := by
    rw [pointerAt_natCast (by rw [hdata]; simp), hdata, List.drop_left]
  have hleft : wrap32 (((m.encode ++ tail).length : Nat) - (m.encode.length : Nat) : Int) =
      (tail.length : Int) := by
    unfold intMax at hmax
    rw [List.length_append, wrap32_of_range (by omega) (by omega)]
    omega
  rw [extractRound, hsearch, markerAt, hbehind]
  by_cases hmarker : marker <+: tail
  · have hnext : pre.length + 8 + (m.encode.length - 8) = (pre ++ m.encode).length := by
      rw [List.length_append]
      omega
    have hmessage : (((pre ++ m.encode).length : Nat) : Int) - (pre.length : Nat) =
        (m.encode.length : Nat) := by
      rw [List.length_append]
      omega
    have hparse := @tryParse_message _ m ctx tail _ (Nat.le_refl _) (by simp) hfit
    simp only [if_pos hmarker, Option.map_some, hnext, ok_bind, hmessage, hpoint, hparse, hleft,
      if_true, process_eq]
  · have hparse := @tryParse_message _ m ctx tail ((m.encode ++ tail).length) (by simp)
      (Nat.le_refl _) hfit
    simp only [if_neg hmarker, Option.map_none, ok_bind, hpoint, hparse, hleft, if_true, process_eq]

/-- **The loop delivers a run of messages** with the marker only at their starts
and goes on behind them. -/
theorem extractLoop_messages {packet : Packet} {ms : List FixMessage}
    (honly : ∀ m ∈ ms, OnlyAtStart marker m.encode) {ctx : CaptureContext R}
    {pre tail : List UInt8} (hdata : packet.data = pre ++ (encodeAll ms ++ tail))
    (htail : marker <+: tail ∨ tail.length < 8) (fuel : Nat) :
    extractLoop packet (fuel + ms.length) ctx (markerAt packet.data pre.length)
        ((encodeAll ms ++ tail).length : Nat) =
      extractLoop packet fuel (ctx.deliverAll packet.tvSec packet.tvNsec ms)
        (markerAt packet.data (pre ++ encodeAll ms).length) (tail.length : Nat) := by
  induction ms generalizing ctx pre with
  | nil =>
      simp only [encodeAll_nil, List.nil_append, List.append_nil, List.length_nil, Nat.add_zero]
      rfl
  | cons m ms ih =>
      have hm := honly m (List.mem_cons_self ..)
      have hms : ∀ m ∈ ms, OnlyAtStart marker m.encode := fun m hm =>
        honly m (List.mem_cons_of_mem _ hm)
      rw [encodeAll_cons, List.append_assoc] at hdata
      have hstart : markerAt packet.data pre.length = some pre.length := by
        rw [hdata]
        exact markerAt_of_isPrefix (hm.isPrefix.trans (List.prefix_append _ _))
      have htail' : marker <+: encodeAll ms ++ tail ∨ (encodeAll ms ++ tail).length < 8 := by
        cases ms with
        | nil => exact htail
        | cons m' ms =>
            refine .inl ((hms m' (List.mem_cons_self ..)).isPrefix.trans ?_)
            rw [encodeAll_cons, List.append_assoc]
            exact List.prefix_append _ _
      have hround := @extractRound_message _ _ m _ ctx _ _ hdata hm htail'
      have hnext := @ih hms (ctx.deliver packet.tvSec packet.tvNsec m.encode m.details)
        (pre ++ m.encode) (by rw [hdata, List.append_assoc])
      rw [List.length_cons, ← Nat.add_assoc, hstart, encodeAll_cons, List.append_assoc, extractLoop,
        hround, ok_bind]
      simp only
      rw [hnext, List.append_assoc]
      rfl

/-! ## Any round -/

/-- `fix_message_len` in a round at `curr`. -/
def fixMessageLen (curr : Nat) (next : Option Nat) (bufRemaining : Int) : Int :=
  match next with
  | none => bufRemaining
  | some next => next - curr

/-- What a parser result makes of the context in a round. -/
inductive RoundEffect (packet : Packet) (ctx : CaptureContext R) (message : List UInt8)
    (len : Int) (ret : VmarsFixParseResult) (details : FixDetails) : CaptureContext R → Prop where
  | accepted (h : ret.result = .ok) :
      RoundEffect packet ctx message len ret details
        (ctx.deliver packet.tvSec packet.tvNsec (message.take ret.bytesConsumed.toNat) details)
  | tooShort {ctx' : CaptureContext R} (h : ret.result = .messageTooShort)
      (hput : putFragment ctx packet.streamId message len = .ok ctx') :
      RoundEffect packet ctx message len ret details ctx'
  | failed (hok : ret.result ≠ .ok) (hshort : ret.result ≠ .messageTooShort) :
      RoundEffect packet ctx message len ret details
        { ctx with counters := countResult ctx.counters ret.result }

/-- Everything that a round without a fault does. -/
theorem extractRound_ok {packet : Packet} {ctx ctx' : CaptureContext R} {curr : Nat}
    {next : Option Nat} {bufRemaining bufRemaining' : Int}
    (h : extractRound packet ctx curr bufRemaining = .ok (ctx', next, bufRemaining')) :
    ∃ message run details, searchNext packet.data curr bufRemaining = .ok next ∧
      pointerAt packet.data curr = .ok message ∧
      vmarsFixParseMsg message (fixMessageLen curr next bufRemaining) 0 = .ok run ∧
      collect message run.calls {} = .ok details ∧
      bufRemaining' = wrap32 (bufRemaining - run.ret.bytesConsumed) ∧
      RoundEffect packet ctx message (fixMessageLen curr next bufRemaining) run.ret details ctx' := by
  obtain ⟨next', hnext, h⟩ := bind_eq_ok.mp h
  obtain ⟨message, hmessage, h⟩ := bind_eq_ok.mp h
  obtain ⟨⟨ctx₁, ret, details⟩, hparse, h⟩ := bind_eq_ok.mp h
  obtain ⟨run, hrun, hparse⟩ := bind_eq_ok.mp hparse
  obtain ⟨details', hdetails, hparse⟩ := bind_eq_ok.mp hparse
  simp only [Except.ok.injEq, Prod.mk.injEq] at hparse
  obtain ⟨rfl, rfl, rfl⟩ := hparse
  simp only at h
  split at h
  · next hok =>
    simp only [hok, process_eq, ok_bind, Except.ok.injEq, Prod.mk.injEq] at h
    obtain ⟨rfl, rfl, rfl⟩ := h
    exact ⟨message, run, details', hnext, hmessage, hrun, hdetails, rfl, .accepted hok⟩
  next hok =>
  split at h
  · next hshort =>
    obtain ⟨ctx₂, hput, h⟩ := bind_eq_ok.mp h
    simp only [Except.ok.injEq, Prod.mk.injEq] at h
    obtain ⟨rfl, rfl, rfl⟩ := h
    simp only [hshort] at hput
    exact ⟨message, run, details', hnext, hmessage, hrun, hdetails, rfl, .tooShort hshort hput⟩
  · next hshort =>
    simp only [Except.ok.injEq, Prod.mk.injEq] at h
    obtain ⟨rfl, rfl, rfl⟩ := h
    exact ⟨message, run, details', hnext, hmessage, hrun, hdetails, rfl, .failed hok hshort⟩

/-! ## Any leading bytes -/

/-- Leading bytes that fit are appended to the fragment, which is parsed again. -/
theorem leadingFragment_append {packet : Packet} {ctx : CaptureContext R} {fragment : Fragment}
    {n : Nat} (hget : getFragment ctx packet.streamId = some fragment)
    (hn : n ≤ packet.data.length) (hfits : fragment.s.length + n < fragmentCapacity) :
    ∃ ctx₁,
      storeFragment ctx packet.streamId (fragment.s ++ ncopy (packet.data.take n)) = .ok ctx₁ ∧
      leadingFragment packet ctx n = (do
        let (ctx, result, details) ←
          tryParseFixMessage ctx₁ (fragment.s ++ ncopy (packet.data.take n))
            (fragment.s ++ ncopy (packet.data.take n)).length
        let ctx ←
          if result.result = .ok then
            processForLatencyMeasurement ctx packet.tvSec packet.tvNsec details
          else .ok ctx
        .ok (if result.result ≠ .messageTooShort then removeFragment ctx packet.streamId
          else ctx)) := by
  have hroom : (fragment.s ++ ncopy (packet.data.take n)).length ≤ fragmentCapacity := by
    rw [List.length_append, ncopy_length, List.length_take]
    omega
  refine ⟨_, storeFragment_eq hroom, ?_⟩
  rw [leadingFragment, hget]
  simp only [if_pos hfits, strncpy_take hn, ok_bind, storeFragment_eq hroom]

/-- What the parser's result for the extended fragment makes of the context. -/
inductive LeadEffect (packet : Packet) (ctx : CaptureContext R) (s : List UInt8)
    (ret : VmarsFixParseResult) (details : FixDetails) : CaptureContext R → Prop where
  | accepted (h : ret.result = .ok) :
      LeadEffect packet ctx s ret details
        (removeFragment (ctx.deliver packet.tvSec packet.tvNsec (s.take ret.bytesConsumed.toNat)
          details) packet.streamId)
  | tooShort (h : ret.result = .messageTooShort) : LeadEffect packet ctx s ret details ctx
  | failed (hok : ret.result ≠ .ok) (hshort : ret.result ≠ .messageTooShort) :
      LeadEffect packet ctx s ret details
        (removeFragment { ctx with counters := countResult ctx.counters ret.result }
          packet.streamId)

/-- Everything that an append without a fault does. -/
theorem leadingFragment_ok {packet : Packet} {ctx ctx' : CaptureContext R} {fragment : Fragment}
    {n : Nat} (hget : getFragment ctx packet.streamId = some fragment)
    (hn : n ≤ packet.data.length) (hfits : fragment.s.length + n < fragmentCapacity)
    (h : leadingFragment packet ctx n = .ok ctx') :
    ∃ ctx₁ run details,
      storeFragment ctx packet.streamId (fragment.s ++ ncopy (packet.data.take n)) = .ok ctx₁ ∧
      vmarsFixParseMsg (fragment.s ++ ncopy (packet.data.take n))
        ((fragment.s ++ ncopy (packet.data.take n)).length : Nat) 0 = .ok run ∧
      LeadEffect packet ctx₁ (fragment.s ++ ncopy (packet.data.take n)) run.ret details ctx' := by
  obtain ⟨ctx₁, hstore, hlead⟩ := leadingFragment_append hget hn hfits
  rw [hlead] at h
  obtain ⟨⟨ctx₂, ret, details⟩, hparse, h⟩ := bind_eq_ok.mp h
  obtain ⟨run, hrun, hparse⟩ := bind_eq_ok.mp hparse
  obtain ⟨details', -, hparse⟩ := bind_eq_ok.mp hparse
  simp only [Except.ok.injEq, Prod.mk.injEq] at hparse
  obtain ⟨rfl, rfl, rfl⟩ := hparse
  refine ⟨ctx₁, run, details', hstore, hrun, ?_⟩
  by_cases hok : run.ret.result = .ok
  · simp only [hok, if_true, process_eq, ok_bind, ne_eq, reduceCtorEq, not_false_eq_true,
      Except.ok.injEq] at h
    subst h
    exact .accepted hok
  by_cases hshort : run.ret.result = .messageTooShort
  · simp only [hshort, reduceCtorEq, if_false, ok_bind, ne_eq, not_true_eq_false,
      Except.ok.injEq] at h
    subst h
    exact .tooShort hshort
  · simp only [hok, hshort, if_false, ok_bind, ne_eq, not_false_eq_true, if_true,
      Except.ok.injEq] at h
    subst h
    exact .failed hok hshort

end Extraction

end Vmars
