import Vmars.FixFields
import Vmars.FixFraming
import Vmars.LatencyHandler
import Vmars.SpscRbInterleaving
import Vmars.SpscRbRecords

/-!
# From two packets to one latency

The whole way of a measurement: the packets of a request and of its response are
parsed, their tags are collected, the summaries go through the ring, and the
latency handler reads them from the ring and matches them.

* `pollRingBuffer_eq`: draining a ring is `calculateLatency` on the summaries that
  were published, whatever the positions of the ring;
* `events_of_pair`: what is published for a message, from its fields, so that a
  request and its response have one key;
* `latency_measured`: the recorded value is the time between the two packets.
-/

namespace Vmars

open CMemory Occurrence

/-! ## Reading a summary from the ring -/

/-- The `vmars_fix_message_summary_t` at an address of the ring. -/
def loadSummary (rb : SpscRb) (address : Nat) : FixMessageSummary where
  tvSec := wrap64 (leValue (rb.loadBytes address 8))
  tvNsec := wrap64 (leValue (rb.loadBytes (address + 8) 8))
  msgType := wrap32 (leValue (rb.loadBytes (address + 16) 4))
  key := rb.loadBytes (address + sizeofFixMessageSummary)
    (wrap32 (leValue (rb.loadBytes (address + 20) 4))).toNat

/-- The loop of `poll_ring_buffers` on one ring, with `poll_limit` polls left. -/
def pollRingBuffer : Nat → SpscRb → LatencyState → SpscRb × LatencyState
  | 0, rb, st => ((vmarsSpscRbPoll rb).1, st)
  | pollLimit + 1, rb, st =>
      match vmarsSpscRbPoll rb with
      | (rb, none) => (rb, st)
      | (rb, some record) =>
          if pollLimit > 0 then
            pollRingBuffer pollLimit (vmarsSpscRbRelease rb record).1
              (calculateLatency st (loadSummary rb (record + sizeofRbRecord)))
          else (rb, st)

/-- `MAX_POLLS`. -/
def maxPolls : Nat := 20

/-- The values of the summary fit their fields. -/
structure FixMessageSummary.Fits (summary : FixMessageSummary) : Prop where
  stamped : summary.Stamped
  msgType : -2147483648 ≤ summary.msgType ∧ summary.msgType < 2147483648
  key : summary.key.length ≤ intMax

/-- A record of a summary has the structure, the key and its NUL. -/
theorem FixMessageSummary.bytes_length (summary : FixMessageSummary) :
    summary.bytes.length = sizeofFixMessageSummary + (summary.key.length + 1) := by
  simp only [bytes, List.length_append, leBytes_length, List.length_singleton,
    sizeofFixMessageSummary]
  omega

/-- Seconds and nanoseconds are read back from their eight bytes. -/
theorem wrap64_leValue {x : Int} (h : 0 ≤ x ∧ x < 4294967296) :
    wrap64 (leValue (leBytes 8 x)) = x := by
  rw [leValue_leBytes]
  unfold wrap64
  omega

/-- A message type is read back from its four bytes. -/
theorem wrap32_leValue {x : Int} (h : -2147483648 ≤ x ∧ x < 2147483648) :
    wrap32 (leValue (leBytes 4 x)) = x := by
  rw [leValue_leBytes]
  unfold wrap32
  omega

/-- A summary is read back as it was published. -/
theorem loadSummary_eq {rb : SpscRb} {head : Nat} {records : List (List UInt8)}
    {pending : List (Option UInt8)} {summary : FixMessageSummary} (hfits : summary.Fits)
    (h : rb.Inv head (summary.bytes :: records) pending) :
    loadSummary rb (headIndex rb.capacity rb.headPosition + sizeofRbRecord) = summary := by
  have hsec := h.loadBytes_payload [] (leBytes 8 summary.tvSec)
    (leBytes 8 summary.tvNsec ++ leBytes 4 summary.msgType ++
      leBytes 4 summary.key.length ++ summary.key ++ [0])
    (by simp [FixMessageSummary.bytes])
  have hnsec := h.loadBytes_payload (leBytes 8 summary.tvSec) (leBytes 8 summary.tvNsec)
    (leBytes 4 summary.msgType ++ leBytes 4 summary.key.length ++ summary.key ++ [0])
    (by simp [FixMessageSummary.bytes])
  have htype := h.loadBytes_payload (leBytes 8 summary.tvSec ++ leBytes 8 summary.tvNsec)
    (leBytes 4 summary.msgType) (leBytes 4 summary.key.length ++ summary.key ++ [0])
    (by simp [FixMessageSummary.bytes])
  have hlength := h.loadBytes_payload
    (leBytes 8 summary.tvSec ++ leBytes 8 summary.tvNsec ++ leBytes 4 summary.msgType)
    (leBytes 4 summary.key.length) (summary.key ++ [0]) (by simp [FixMessageSummary.bytes])
  have hkey := h.loadBytes_payload
    (leBytes 8 summary.tvSec ++ leBytes 8 summary.tvNsec ++ leBytes 4 summary.msgType ++
      leBytes 4 summary.key.length) summary.key [0] rfl
  simp only [List.length_append, leBytes_length, List.length_nil, Nat.add_zero, Nat.reduceAdd]
    at hsec hnsec htype hlength hkey
  have hmax := hfits.key
  unfold intMax at hmax
  have hkeyLen : (wrap32 (leValue (leBytes 4 summary.key.length))).toNat = summary.key.length := by
    rw [wrap32_leValue (by omega), Int.toNat_natCast]
  obtain ⟨hsecRange, hnsecRange⟩ := hfits.stamped
  rw [loadSummary, hsec, hnsec, htype, hlength, hkeyLen, sizeofFixMessageSummary, hkey,
    wrap64_leValue hsecRange, wrap64_leValue hnsecRange, wrap32_leValue hfits.msgType]

/-- **Draining a ring** is `calculateLatency` on what was published. -/
theorem pollRingBuffer_eq {summaries : List FixMessageSummary}
    (hfits : ∀ summary ∈ summaries, summary.Fits) {rb : SpscRb} {head pollLimit : Nat}
    (h : rb.Inv head (summaries.map FixMessageSummary.bytes) []) (st : LatencyState)
    (hlimit : summaries.length < pollLimit) :
    ∃ rb' head', pollRingBuffer pollLimit rb st = (rb', calculateLatencies st summaries) ∧
      rb'.Inv head' [] [] := by
  induction summaries generalizing rb head pollLimit st with
  | nil =>
      have hempty := h.poll_empty
      obtain ⟨limit, rfl⟩ : ∃ limit, pollLimit = limit + 1 := ⟨pollLimit - 1, by omega⟩
      refine ⟨rb, head, ?_, h⟩
      rw [pollRingBuffer, hempty]
      rfl
  | cons summary summaries ih =>
      obtain ⟨limit, rfl⟩ : ∃ limit, pollLimit = limit + 1 := ⟨pollLimit - 1, by omega⟩
      rw [List.length_cons] at hlimit
      obtain ⟨rb₁, hpoll, hinv, hpolled⟩ := SpscRb.Inv.poll h
      have hread := loadSummary_eq (hfits summary (List.mem_cons_self ..)) hinv
      obtain ⟨rb', head', hrest, hinv'⟩ := ih
        (fun s hs => hfits s (List.mem_cons_of_mem _ hs)) (hinv.release_record hpolled)
        (calculateLatency st summary) (show summaries.length < limit by omega)
      refine ⟨rb', head', ?_, hinv'⟩
      rw [pollRingBuffer, hpoll]
      simp only [hread]
      rw [if_pos (by omega), hrest]
      rfl

/-! ## What the fields of a message collect -/

/-- The values of the fields with one of these tags, in order. -/
def valuesOf (tags : List Int) (fields : List Field) : List (List UInt8) :=
  (fields.filter fun field => (field.tag.value : Int) ∈ tags).map Field.value

/-- The values in a message are those that the callbacks report. -/
theorem valuesOf_eq_valuesAt (tags : List Int) (fields : List Field) :
    valuesOf tags fields = valuesAt tags (fields.map Field.reported) := by
  rw [valuesOf, valuesAt, List.filter_map, List.map_map]
  rfl

/-- The values of the fields of a message with one of these tags. -/
def FixMessage.values (m : FixMessage) (tags : List Int) : List (List UInt8) :=
  valuesOf tags (m.fields ++ [m.trailerField])

/-- The value of a slot that is set by at most one field; no field leaves it empty. -/
def FixMessage.slot (m : FixMessage) (slot : Slot) : List UInt8 := (m.values slot.tags).headD []

section Details

variable {m : FixMessage}

/-- A slot that is set once at most has that value. -/
theorem details_slot {slot : Slot} (h : (m.values slot.tags).length ≤ 1) :
    slot.get m.details = m.slot slot := by
  rw [FixMessage.details, detailsOf_eq_addFields, addFields_slot, ← valuesOf_eq_valuesAt,
    FixMessage.slot, FixMessage.values]
  rw [FixMessage.values] at h
  match hvalues : valuesOf slot.tags (m.fields ++ [m.trailerField]) with
  | [] => cases slot <;> rfl
  | [value] => rfl
  | x :: y :: values =>
      rw [hvalues] at h
      simp at h

/-- The message type of a message with one `35`. -/
theorem details_messageType {value : List UInt8} (h : m.values [fixMsgType] = [value]) :
    m.details.messageType = typeAfter 0 value := by
  rw [FixMessage.values, valuesOf_eq_valuesAt] at h
  rw [FixMessage.details, detailsOf_eq_addFields, addFields_messageType, h]
  rfl

/-- The execution type of a message with one `150`. -/
theorem details_execType {value : List UInt8} (h : m.values [fixExecType] = [value]) :
    m.details.execType = charToInt (value.headD SOH) := by
  rw [FixMessage.values, valuesOf_eq_valuesAt] at h
  rw [FixMessage.details, detailsOf_eq_addFields, addFields_execType, h]
  rfl

/-- The quote status of a message with one `297`. -/
theorem details_quoteStatus {value : List UInt8} (h : m.values [fixQuoteStatus] = [value]) :
    m.details.quoteStatus = if value.length > 31 then -1 else atoi (ncopy value ++ [0]) := by
  rw [FixMessage.values, valuesOf_eq_valuesAt] at h
  rw [FixMessage.details, detailsOf_eq_addFields, addFields_quoteStatus, h]
  rfl

end Details

/-! ## A request and its response -/

/-- A request and a response of its family, each with one message type; the response
to an order has ExecType `0` and the one to a quote has QuoteStatus `0`. -/
inductive Complementary (request response : FixMessage) : Prop where
  | order (hrequest : request.values [fixMsgType] = [ascii "D"])
      (hresponse : response.values [fixMsgType] = [ascii "8"])
      (hnew : response.values [fixExecType] = [ascii "0"])
  | quote (hrequest : request.values [fixMsgType] = [ascii "i"])
      (hresponse : response.values [fixMsgType] = [ascii "b"])
      (haccepted : response.values [fixQuoteStatus] = [ascii "0"])
  | trace (hrequest : request.values [fixMsgType] = [ascii "xr"])
      (hresponse : response.values [fixMsgType] = [ascii "xs"])

/-- Each identity is given at most once, and the response gives the same, with the two
parties exchanged. -/
structure SameIdentity (request response : FixMessage) : Prop where
  request_once : ∀ slot : Slot, (request.values slot.tags).length ≤ 1
  response_once : ∀ slot : Slot, (response.values slot.tags).length ≤ 1
  same : ∀ slot : Slot, response.slot slot = request.slot slot.swap

/-- The instrument of a message. -/
def FixMessage.instrument (m : FixMessage) : List UInt8 :=
  if (m.slot .symbol).length ≠ 0 then m.slot .symbol else m.slot .securityId

/-- The key of a request. -/
def FixMessage.requestKey (m : FixMessage) : List UInt8 :=
  keyText (m.slot .senderCompId) (m.slot .targetCompId) (m.slot .clOrdId) m.instrument

/-- The summary of a message that was captured in a packet. -/
def summaryOfPacket (packet : Packet) (msgType : Int) (key : List UInt8) : FixMessageSummary where
  tvSec := packet.tvSec.toNat
  tvNsec := packet.tvNsec.toNat
  msgType := msgType
  key := key

/-- What a record of the ring needs for a key: its header, the summary and the NUL. -/
def eventSize (key : List UInt8) : Nat :=
  sizeofRbRecord + sizeofFixMessageSummary + (key.length + 1)

section Events

variable {request response : FixMessage}

/-- Both are measured, and the response names the two parties the other way round. -/
theorem Complementary.measured (h : Complementary request response) :
    (request.details.messageType, response.details.messageType) ∈ families ∧
      measuredIds request.details =
        some (request.details.senderCompId, request.details.targetCompId) ∧
      measuredIds response.details =
        some (response.details.targetCompId, response.details.senderCompId) := by
  cases h with
  | order hrequest hresponse hnew =>
      have hreq : request.details.messageType = msgTypeNewOrderSingle :=
        details_messageType hrequest
      have hrsp : response.details.messageType = msgTypeExecutionReport :=
        details_messageType hresponse
      have hexec : response.details.execType = fixExecTypeNew := details_execType hnew
      unfold measuredIds
      rw [hreq, hrsp, hexec]
      exact ⟨by decide, rfl, rfl⟩
  | quote hrequest hresponse haccepted =>
      have hreq : request.details.messageType = msgTypeMassQuote := details_messageType hrequest
      have hrsp : response.details.messageType = msgTypeMassQuoteAck :=
        details_messageType hresponse
      have hstatus : response.details.quoteStatus = fixQuoteStatusAccepted :=
        (details_quoteStatus haccepted).trans (by decide)
      unfold measuredIds
      rw [hreq, hrsp, hstatus]
      exact ⟨by decide, rfl, rfl⟩
  | trace hrequest hresponse =>
      have hreq : request.details.messageType = msgTypeTraceReq := details_messageType hrequest
      have hrsp : response.details.messageType = msgTypeTraceRsp := details_messageType hresponse
      unfold measuredIds
      rw [hreq, hrsp]
      exact ⟨by decide, rfl, rfl⟩

/-- With every slot set once at most, the instrument is that of the message. -/
theorem instrumentOf_details {m : FixMessage} (h : ∀ slot : Slot, (m.values slot.tags).length ≤ 1) :
    instrumentOf m.details = m.instrument := by
  have hsymbol : m.details.symbol = m.slot .symbol := details_slot (h .symbol)
  have hsecurity : m.details.securityId = m.slot .securityId := details_slot (h .securityId)
  rw [instrumentOf, hsymbol, hsecurity, FixMessage.instrument]

/-- **One key for both**: what the request and the response publish. -/
theorem events_of_pair (hcomplementary : Complementary request response)
    (hidentity : SameIdentity request response) (p q : Packet) :
    eventOf p.tvSec p.tvNsec request.details =
        some (summaryOfPacket p request.details.messageType request.requestKey) ∧
      eventOf q.tvSec q.tvNsec response.details =
        some (summaryOfPacket q response.details.messageType request.requestKey) := by
  obtain ⟨-, hreq, hrsp⟩ := hcomplementary.measured
  have hslot : ∀ slot : Slot, slot.get request.details = request.slot slot := fun slot =>
    details_slot (hidentity.request_once slot)
  have hslot' : ∀ slot : Slot, slot.get response.details = request.slot slot.swap := fun slot =>
    (details_slot (hidentity.response_once slot)).trans (hidentity.same slot)
  have hinstrument : response.instrument = request.instrument := by
    have hsymbol : response.slot .symbol = request.slot .symbol := hidentity.same .symbol
    have hsecurity : response.slot .securityId = request.slot .securityId :=
      hidentity.same .securityId
    rw [FixMessage.instrument, hsymbol, hsecurity, FixMessage.instrument]
  have hsender : request.details.senderCompId = _ := hslot .senderCompId
  have htarget : request.details.targetCompId = _ := hslot .targetCompId
  have hclOrdId : request.details.clOrdId = _ := hslot .clOrdId
  have hsender' : response.details.senderCompId = _ := hslot' .senderCompId
  have htarget' : response.details.targetCompId = _ := hslot' .targetCompId
  have hclOrdId' : response.details.clOrdId = _ := hslot' .clOrdId
  constructor
  · rw [eventOf, hreq, Option.map_some, instrumentOf_details hidentity.request_once, hsender, htarget,
      hclOrdId]
    rfl
  · rw [eventOf, hrsp, Option.map_some, instrumentOf_details hidentity.response_once, hsender',
      htarget', hclOrdId', hinstrument]
    rfl

end Events

/-! ## Through the ring -/

/-- A summary with room goes behind those in the ring. -/
theorem SpscRb.Inv.push {rb : SpscRb} {head : Nat} {summaries : List FixMessageSummary}
    {summary : FixMessageSummary} (h : rb.Inv head (summaries.map FixMessageSummary.bytes) [])
    (hroom : (encodeRecords (summaries.map FixMessageSummary.bytes)).length +
      eventSize summary.key ≤ rb.capacity) :
    (rb.push summary).Inv head ((summaries ++ [summary]).map FixMessageSummary.bytes) [] ∧
      (rb.push summary).capacity = rb.capacity := by
  have hlength := summary.bytes_length
  obtain ⟨rb', record, hclaim, hinv, hcapacity⟩ := @SpscRb.Inv.claim_write_publish _ _ _
    summary.bytes h (by rw [hlength]; unfold eventSize sizeofRbRecord at hroom; omega)
  rw [hlength] at hclaim
  unfold SpscRb.push
  rw [hclaim, List.map_append]
  exact ⟨hinv, hcapacity⟩

/-- A message alone in its packet is delivered, whatever fragment is stored. -/
theorem extract_message {R : Type} [RingBuffer R] {ctx : CaptureContext R} {packet : Packet}
    {m : FixMessage} (hdata : packet.data = m.encode) (honly : OnlyAtStart marker m.encode) :
    vmarsExtractFixMessages ctx packet =
      .ok (ctx.deliver packet.tvSec packet.tvNsec m.encode m.details) := by
  have hall : packet.data = [] ++ encodeAll [m] := by
    rw [hdata, encodeAll_cons, encodeAll_nil, List.append_nil, List.nil_append]
  have hfinish := @finishPacket_encodeAll _ _ ctx packet [] [m] (by simp) hall (by simpa using honly)
  rw [← List.nil_append (encodeAll [m]), ← hall] at hfinish
  rw [extract_of_marker (hdata ▸ m.marker_isPrefix)]
  exact hfinish

/-- A delivered message that is measured goes to the ring. -/
theorem deliver_rb {ctx : CaptureContext SpscRb} {tvSec tvNsec : UInt32} {bytes : List UInt8}
    {details : FixDetails} {summary : FixMessageSummary}
    (h : eventOf tvSec tvNsec details = some summary) :
    (ctx.deliver tvSec tvNsec bytes details).rb = ctx.rb.push summary := by
  unfold CaptureContext.deliver
  rw [h]
  rfl

/-- Two messages that are measured, captured one after the other on an empty ring. -/
theorem capture_pair {m m' : FixMessage} (honly : OnlyAtStart marker m.encode)
    (honly' : OnlyAtStart marker m'.encode) {p p' : Packet} (hp : p.data = m.encode)
    (hp' : p'.data = m'.encode) {a b : FixMessageSummary}
    (ha : eventOf p.tvSec p.tvNsec m.details = some a)
    (hb : eventOf p'.tvSec p'.tvNsec m'.details = some b) {ctx : CaptureContext SpscRb} {head : Nat}
    (hempty : ctx.rb.Inv head [] []) (hroom : eventSize a.key + eventSize b.key ≤ ctx.rb.capacity) :
    ∃ ctx', extractAll ctx [p, p'] = .ok ctx' ∧
      ctx'.rb.Inv head ([a, b].map FixMessageSummary.bytes) [] := by
  have hone := @SpscRb.Inv.push ctx.rb head [] a hempty
    (by simp only [List.map_nil, encodeRecords_nil, List.length_nil]; omega)
  have hsize : (encodeRecords ([a].map FixMessageSummary.bytes)).length = eventSize a.key := by
    simp only [List.map_cons, List.map_nil, encodeRecords_cons, encodeRecords_nil,
      List.append_nil, recordBytes_length, a.bytes_length, eventSize, sizeofRbRecord]
    omega
  have htwo := @SpscRb.Inv.push _ head [a] b hone.1 (by rw [hsize, hone.2]; exact hroom)
  have hrun : extractAll ctx [p, p'] = .ok ((ctx.deliver p.tvSec p.tvNsec m.encode m.details).deliver
      p'.tvSec p'.tvNsec m'.encode m'.details) := by
    rw [extractAll, extract_message hp honly, ok_bind, extractAll, extract_message hp' honly',
      ok_bind, extractAll]
  refine ⟨_, hrun, ?_⟩
  rw [deliver_rb hb, deliver_rb ha]
  exact htwo.1

/-! ## The measurement -/

/-- Two complementary messages with one key, and no entry for it before. -/
theorem calculateLatencies_pair {st : LatencyState} {a b : FixMessageSummary}
    (hkey : b.key = a.key) (hnone : st.latencyTable (cstr a.key) = none)
    (hcomplement : isComplement b.msgType a.msgType) :
    calculateLatencies st [a, b] =
      { st with histogram := st.histogram ++ [latencyNsec (.ofSummary a) b] } := by
  have hstored : calculateLatency st a = { st with
      latencyTable := Function.update st.latencyTable (cstr a.key) (some (.ofSummary a)) } := by
    unfold calculateLatency
    simp only [hnone, LatencyRecord.ofSummary, cstr_ncopy]
  have hbefore : Function.update st.latencyTable (cstr a.key) none = st.latencyTable := by
    rw [← hnone, Function.update_eq_self]
  rw [calculateLatencies_cons, hstored, calculateLatencies_cons]
  unfold calculateLatency
  rw [hkey]
  simp only [Function.update_self, Function.update_idem, hbefore]
  exact if_pos hcomplement

/-- Of two messages one is the answer. -/
theorem Answers.asymm {a b : FixMessageSummary} (h : Answers a b) : ¬ Answers b a := by
  unfold Answers at *
  rw [mem_families] at *
  omega

/-- The summary of a packet fits its record. -/
theorem summaryOfPacket_fits {packet : Packet} {msgType : Int} {key : List UInt8}
    (htype : -2147483648 ≤ msgType ∧ msgType < 2147483648) (hkey : key.length ≤ intMax) :
    (summaryOfPacket packet msgType key).Fits := by
  refine ⟨⟨?_, ?_⟩, htype, hkey⟩
  · have := packet.tvSec.toNat_lt
    simp only [summaryOfPacket]
    omega
  · have := packet.tvNsec.toNat_lt
    simp only [summaryOfPacket]
    omega

/-- Capture and drain two complementary messages with one key. -/
theorem measure_pair {m m' : FixMessage} (honly : OnlyAtStart marker m.encode)
    (honly' : OnlyAtStart marker m'.encode) {p p' : Packet} (hp : p.data = m.encode)
    (hp' : p'.data = m'.encode) {a b : FixMessageSummary}
    (ha : eventOf p.tvSec p.tvNsec m.details = some a)
    (hb : eventOf p'.tvSec p'.tvNsec m'.details = some b) (hfits : a.Fits) (hfits' : b.Fits)
    {ctx : CaptureContext SpscRb} {head : Nat} (hempty : ctx.rb.Inv head [] [])
    (hroom : eventSize a.key + eventSize b.key ≤ ctx.rb.capacity) {st : LatencyState}
    (hkey : b.key = a.key) (hnone : st.latencyTable (cstr a.key) = none)
    (hcomplement : isComplement b.msgType a.msgType) :
    ∃ ctx' rb' head', extractAll ctx [p, p'] = .ok ctx' ∧
      pollRingBuffer maxPolls ctx'.rb st =
        (rb', { st with histogram := st.histogram ++ [latencyNsec (.ofSummary a) b] }) ∧
      rb'.Inv head' [] [] := by
  obtain ⟨ctx', hrun, hinv⟩ := capture_pair honly honly' hp hp' ha hb hempty hroom
  have hall : ∀ summary ∈ [a, b], summary.Fits := by
    intro summary hsummary
    rcases List.mem_cons.mp hsummary with rfl | hsummary
    · exact hfits
    · obtain rfl := List.mem_singleton.mp hsummary
      exact hfits'
  obtain ⟨rb', head', hdrain, hdrained⟩ := @pollRingBuffer_eq [a, b] hall _ _ maxPolls hinv st
    (by simp [maxPolls])
  rw [calculateLatencies_pair hkey hnone hcomplement] at hdrain
  exact ⟨ctx', rb', head', hrun, hdrain, hdrained⟩

/-- **The measurement.**  A request and its response, captured in either order and on
any streams, leave one latency: the time between their packets. -/
theorem latency_measured {request response : FixMessage}
    (hcomplementary : Complementary request response) (hidentity : SameIdentity request response)
    (hrequest : OnlyAtStart marker request.encode)
    (hresponse : OnlyAtStart marker response.encode) {p q : Packet}
    (hp : p.data = request.encode) (hq : q.data = response.encode) {packets : List Packet}
    (horder : packets = [p, q] ∨ packets = [q, p]) {ctx : CaptureContext SpscRb} {head : Nat}
    (hempty : ctx.rb.Inv head [] []) (hroom : 2 * eventSize request.requestKey ≤ ctx.rb.capacity)
    {st : LatencyState} (hnone : st.latencyTable (cstr request.requestKey) = none) :
    ∃ ctx' rb' head' st', extractAll ctx packets = .ok ctx' ∧
      pollRingBuffer maxPolls ctx'.rb st = (rb', st') ∧ rb'.Inv head' [] [] ∧
      st'.histogram = st.histogram ++ [((q.tvSec.toNat : Int) - p.tvSec.toNat) * 1000000000 +
        ((q.tvNsec.toNat : Int) - p.tvNsec.toNat)] ∧
      st'.latencyTable (cstr request.requestKey) = none ∧
      ∀ key, st'.latencyTable key = st.latencyTable key := by
  obtain ⟨hrequested, hresponded⟩ := events_of_pair hcomplementary hidentity p q
  obtain ⟨hfamily, -, -⟩ := hcomplementary.measured
  have hmax := hempty.capacity.range.2
  have hkey : request.requestKey.length ≤ intMax := by
    unfold eventSize at hroom
    unfold intMax
    omega
  have htypes := mem_families.mp hfamily
  have hfits := @summaryOfPacket_fits p request.details.messageType request.requestKey
    (by omega) hkey
  have hfits' := @summaryOfPacket_fits q response.details.messageType request.requestKey
    (by omega) hkey
  have hanswers : Answers (summaryOfPacket p request.details.messageType request.requestKey)
      (summaryOfPacket q response.details.messageType request.requestKey) := hfamily
  have helapsed := wrap64_elapsed hfits.stamped hfits'.stamped
  rcases horder with rfl | rfl
  · have hcomplement := isComplement_iff.mpr (.inr hanswers)
    obtain ⟨ctx', rb', head', hrun, hdrain, hdrained⟩ := measure_pair hrequest hresponse hp hq
      hrequested hresponded hfits hfits' hempty (by simp only [summaryOfPacket]; omega) rfl hnone
      hcomplement
    rcases latencyNsec_eq hcomplement with ⟨-, hvalue⟩ | ⟨hwrong, -⟩
    · rw [hvalue, helapsed] at hdrain
      exact ⟨ctx', rb', head', _, hrun, hdrain, hdrained, rfl, hnone, fun _ => rfl⟩
    · exact (hanswers.asymm hwrong).elim
  · have hcomplement := isComplement_iff.mpr (.inl hanswers)
    obtain ⟨ctx', rb', head', hrun, hdrain, hdrained⟩ := measure_pair hresponse hrequest hq hp
      hresponded hrequested hfits' hfits hempty (by simp only [summaryOfPacket]; omega) rfl hnone
      hcomplement
    rcases latencyNsec_eq hcomplement with ⟨hwrong, -⟩ | ⟨-, hvalue⟩
    · exact (hanswers.asymm hwrong).elim
    · rw [hvalue, helapsed] at hdrain
      exact ⟨ctx', rb', head', _, hrun, hdrain, hdrained, rfl, hnone, fun _ => rfl⟩

/-! ## An order and its execution report -/

/-- An order for a symbol, sent by the buyer to the market. -/
def orderExample : FixMessage :=
  .ofFields .fix42 [⟨.ofNat 35, ascii "D", msgTypeNumeral_le, newOrder_no_soh⟩,
    ⟨.ofNat 49, ascii "buyer", senderCompIdNumeral_le, by decide⟩,
    ⟨.ofNat 56, ascii "market", targetCompIdNumeral_le, by decide⟩,
    ⟨.ofNat 11, ascii "order-1", by decide, by decide⟩,
    ⟨.ofNat 55, ascii "EURUSD", by decide, by decide⟩] (by simp)

/-- The execution report that the market sends back. -/
def reportExample : FixMessage :=
  .ofFields .fix44 [⟨.ofNat 35, ascii "8", msgTypeNumeral_le, by decide⟩,
    ⟨.ofNat 49, ascii "market", senderCompIdNumeral_le, by decide⟩,
    ⟨.ofNat 56, ascii "buyer", targetCompIdNumeral_le, by decide⟩,
    ⟨.ofNat 150, ascii "0", by decide, by decide⟩,
    ⟨.ofNat 117, ascii "order-1", by decide, by decide⟩,
    ⟨.ofNat 311, ascii "EURUSD", by decide, by decide⟩] (by simp)

/-- The same order of another client. -/
def sellerOrder : FixMessage :=
  .ofFields .fix44 [⟨.ofNat 35, ascii "D", msgTypeNumeral_le, newOrder_no_soh⟩,
    ⟨.ofNat 49, ascii "seller", senderCompIdNumeral_le, by decide⟩,
    ⟨.ofNat 56, ascii "market", targetCompIdNumeral_le, by decide⟩,
    ⟨.ofNat 11, ascii "order-1", by decide, by decide⟩,
    ⟨.ofNat 55, ascii "EURUSD", by decide, by decide⟩] (by simp)

/-- The report that goes back to that client. -/
def sellerReport : FixMessage :=
  .ofFields .fix44 [⟨.ofNat 35, ascii "8", msgTypeNumeral_le, by decide⟩,
    ⟨.ofNat 49, ascii "market", senderCompIdNumeral_le, by decide⟩,
    ⟨.ofNat 56, ascii "seller", targetCompIdNumeral_le, by decide⟩,
    ⟨.ofNat 150, ascii "0", by decide, by decide⟩,
    ⟨.ofNat 117, ascii "order-1", by decide, by decide⟩,
    ⟨.ofNat 311, ascii "EURUSD", by decide, by decide⟩] (by simp)

/-- The report is captured before its order, which has the later part of the second: the latency
is that of the response all the same. -/
theorem latency_measured_order :
    ∃ ctx' rb' head' st',
      extractAll { rb := (System.initial 4096).rb }
        [⟨exampleStream, 8, 100, reportExample.encode, by decide⟩,
          ⟨exampleStream, 7, 300, orderExample.encode, by decide⟩] = .ok ctx' ∧
      pollRingBuffer maxPolls ctx'.rb .init = (rb', st') ∧ rb'.Inv head' [] [] ∧
      st'.histogram = [] ++ [((8 : Int) - 7) * 1000000000 + (100 - 300)] ∧
      st'.latencyTable (cstr orderExample.requestKey) = none ∧
      ∀ key, st'.latencyTable key = LatencyState.init.latencyTable key :=
  @latency_measured orderExample reportExample
    (.order (by decide) (by decide) (by decide))
    ⟨fun slot => by cases slot <;> decide, fun slot => by cases slot <;> decide,
      fun slot => by cases slot <;> decide⟩
    ((onlyAtStart_iff marker_ne_nil).mpr (by decide +kernel))
    ((onlyAtStart_iff marker_ne_nil).mpr (by decide +kernel))
    ⟨exampleStream, 7, 300, orderExample.encode, by decide⟩
    ⟨exampleStream, 8, 100, reportExample.encode, by decide⟩ rfl rfl _ (.inr rfl)
    { rb := (System.initial 4096).rb } 0 (System.Inv.initial ⟨12, by decide, rfl⟩).ring (by decide)
    .init rfl

end Vmars
