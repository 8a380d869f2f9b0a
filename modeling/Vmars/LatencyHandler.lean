import Vmars.FixDetails
import Vmars.PendingSlot

/-!
# The latency handler (`latency_handler.c`)

`calculateLatency` is fed the summaries that the ring buffers deliver.  A summary
whose key is not in the table is stored; one that complements the stored message
of its key takes it out and records the time between the two; any other is
ignored.

The table is a table of slots that pair messages (`PendingSlot`), and
`calculateLatencies_eq` says so.  Two properties of whole runs follow:

* `calculateLatencies_matching`: the recorded values belong one to one to pairs of
  a request and its response, whichever arrived first, and a stored message is in
  no pair;
* `calculateLatencies_interleaving`: how the messages of different keys are
  interleaved changes neither the table nor what is recorded.
-/

namespace Vmars

open CMemory KeyedMachine PendingSlot

/-! ## The code -/

/-- `is_begin`: the types of requests. -/
def isBegin (type : Int) : Bool :=
  if type = msgTypeMassQuote then true
  else if type = msgTypeNewOrderSingle then true
  else if type = msgTypeTraceReq then true
  else false

/-- `diff`, in `int64_t` arithmetic. -/
def diff (t0Sec t0Nsec t1Sec t1Nsec : Int) : Int :=
  let diffSec := wrap64 (t1Sec - t0Sec)
  let diffNsec := wrap64 (t1Nsec - t0Nsec)
  wrap64 (wrap64 (diffSec * 1000000000) + diffNsec)

/-- `is_complement`. -/
def isComplement (typeA typeB : Int) : Bool :=
  if typeA = msgTypeMassQuote then typeB = msgTypeMassQuoteAck
  else if typeA = msgTypeMassQuoteAck then typeB = msgTypeMassQuote
  else if typeA = msgTypeNewOrderSingle then typeB = msgTypeExecutionReport
  else if typeA = msgTypeExecutionReport then typeB = msgTypeNewOrderSingle
  else if typeA = msgTypeTraceReq then typeB = msgTypeTraceRsp
  else if typeA = msgTypeTraceRsp then typeB = msgTypeTraceReq
  else false

/-- `latency_record_t`; `key` is without its NUL. -/
structure LatencyRecord where
  msgType : Int
  tvSec : Int
  tvNsec : Int
  key : List UInt8
  deriving DecidableEq, Repr

/-- The record that is allocated for a message. -/
def LatencyRecord.ofSummary (msg : FixMessageSummary) : LatencyRecord where
  key := ncopy msg.key
  msgType := msg.msgType
  tvSec := msg.tvSec
  tvNsec := msg.tvNsec

/-- What `calculate_latency` works on.  The table is a finite map on C strings, its
values are never NULL; the histogram is the log of the values recorded in it. -/
structure LatencyState where
  latencyTable : List UInt8 → Option LatencyRecord
  histogram : List Int

/-- The table of `kh_init` and a histogram without values. -/
def LatencyState.init : LatencyState where
  latencyTable := fun _ => none
  histogram := []

/-- The value recorded for a message and the record that it complements. -/
def latencyNsec (latencyRecord : LatencyRecord) (msg : FixMessageSummary) : Int :=
  if isBegin msg.msgType then
    diff msg.tvSec msg.tvNsec latencyRecord.tvSec latencyRecord.tvNsec
  else diff latencyRecord.tvSec latencyRecord.tvNsec msg.tvSec msg.tvNsec

/-- `calculate_latency`. -/
def calculateLatency (st : LatencyState) (msg : FixMessageSummary) : LatencyState :=
  match st.latencyTable (cstr msg.key) with
  | some latencyRecord =>
      if isComplement msg.msgType latencyRecord.msgType then
        { latencyTable := Function.update st.latencyTable (cstr msg.key) none
          histogram := st.histogram ++ [latencyNsec latencyRecord msg] }
      else st
  | none =>
      let latencyRecord := LatencyRecord.ofSummary msg
      { st with latencyTable :=
          Function.update st.latencyTable (cstr latencyRecord.key) (some latencyRecord) }

/-- The calls for a sequence of summaries. -/
def calculateLatencies (st : LatencyState) (msgs : List FixMessageSummary) : LatencyState :=
  msgs.foldl calculateLatency st

/-! ## Requests and responses -/

/-- The three families: the type of a request and the type of its response. -/
def families : List (Int × Int) :=
  [(msgTypeNewOrderSingle, msgTypeExecutionReport), (msgTypeMassQuote, msgTypeMassQuoteAck),
    (msgTypeTraceReq, msgTypeTraceRsp)]

/-- The second message responds to the first. -/
def Answers (request response : FixMessageSummary) : Prop :=
  (request.msgType, response.msgType) ∈ families

instance (request response : FixMessageSummary) : Decidable (Answers request response) :=
  inferInstanceAs (Decidable (_ ∈ _))

/-- Response time - request time, in nanoseconds. -/
def elapsed (request response : FixMessageSummary) : Int :=
  (response.tvSec - request.tvSec) * 1000000000 + (response.tvNsec - request.tvNsec)

/-- The times of a message are those of a packet, which are `unsigned int`s. -/
def FixMessageSummary.Stamped (msg : FixMessageSummary) : Prop :=
  (0 ≤ msg.tvSec ∧ msg.tvSec < 4294967296) ∧ 0 ≤ msg.tvNsec ∧ msg.tvNsec < 4294967296

/-- The difference of two times in nanoseconds. -/
theorem diff_eq (t0Sec t0Nsec t1Sec t1Nsec : Int) :
    diff t0Sec t0Nsec t1Sec t1Nsec =
      wrap64 ((t1Sec - t0Sec) * 1000000000 + (t1Nsec - t0Nsec)) := by
  simp only [diff, wrap64]
  omega

/-- Between two packets nothing overflows. -/
theorem wrap64_elapsed {request response : FixMessageSummary} (hreq : request.Stamped)
    (hrsp : response.Stamped) : wrap64 (elapsed request response) = elapsed request response := by
  unfold FixMessageSummary.Stamped at hreq hrsp
  unfold elapsed
  apply wrap64_of_range <;> omega

/-- The three families of requests and responses. -/
theorem mem_families {typeA typeB : Int} : (typeA, typeB) ∈ families ↔
    (typeA = 68 ∧ typeB = 56) ∨ (typeA = 105 ∧ typeB = 98) ∨
      (typeA = 30834 ∧ typeB = 30835) := by
  simp [families, msgTypeNewOrderSingle, msgTypeExecutionReport, msgTypeMassQuote,
    msgTypeMassQuoteAck, msgTypeTraceReq, msgTypeTraceRsp, intOf]

/-- Two types complement each other when they are those of a family. -/
theorem isComplement_iff {typeA typeB : Int} :
    isComplement typeA typeB ↔ (typeA, typeB) ∈ families ∨ (typeB, typeA) ∈ families := by
  rw [mem_families, mem_families]
  simp only [isComplement, msgTypeNewOrderSingle, msgTypeExecutionReport, msgTypeMassQuote,
    msgTypeMassQuoteAck, msgTypeTraceReq, msgTypeTraceRsp, intOf]
  grind

/-- Request and response are complements of each other. -/
theorem isComplement_comm {typeA typeB : Int} :
    isComplement typeA typeB ↔ isComplement typeB typeA := by
  rw [isComplement_iff, isComplement_iff, or_comm]

/-- A message does not complement a message of its own type. -/
theorem not_isComplement_self (type : Int) : ¬ isComplement type type := by
  rw [isComplement_iff, or_self, mem_families]
  omega

/-- Of two types of a family the first is the one `is_begin` accepts. -/
theorem isBegin_of_mem {typeA typeB : Int} (h : (typeA, typeB) ∈ families) :
    isBegin typeA = true ∧ isBegin typeB = false := by
  rw [mem_families] at h
  rcases h with ⟨rfl, rfl⟩ | ⟨rfl, rfl⟩ | ⟨rfl, rfl⟩ <;> decide

/-- Whichever of the two arrives first, the value is that of the response after
the request. -/
theorem latencyNsec_eq {a b : FixMessageSummary} (h : isComplement b.msgType a.msgType) :
    (Answers a b ∧ latencyNsec (.ofSummary a) b = wrap64 (elapsed a b)) ∨
      (Answers b a ∧ latencyNsec (.ofSummary a) b = wrap64 (elapsed b a)) := by
  rcases isComplement_iff.mp h with h | h
  · refine .inr ⟨h, ?_⟩
    rw [latencyNsec, if_pos (isBegin_of_mem h).1, diff_eq]
    rfl
  · refine .inl ⟨h, ?_⟩
    rw [latencyNsec, if_neg (by rw [(isBegin_of_mem h).2]; decide), diff_eq]
    rfl

/-! ## The table as a table of slots -/

/-- The matcher whose slots are the entries of the latency table. -/
def latencyMatcher : Matcher (List UInt8) FixMessageSummary LatencyRecord Int where
  key msg := cstr msg.key
  record := .ofSummary
  answers msg latencyRecord := isComplement msg.msgType latencyRecord.msgType
  value := latencyNsec

@[simp] theorem latencyMatcher_key (msg : FixMessageSummary) :
    latencyMatcher.key msg = cstr msg.key := rfl

@[simp] theorem latencyMatcher_answers (msg : FixMessageSummary) (latencyRecord : LatencyRecord) :
    latencyMatcher.answers msg latencyRecord =
      isComplement msg.msgType latencyRecord.msgType := rfl

/-- A call is a step of the table of slots. -/
theorem calculateLatency_eq (st : LatencyState) (msg : FixMessageSummary) :
    calculateLatency st msg =
      { latencyTable := latencyMatcher.machine.next st.latencyTable msg
        histogram := st.histogram ++
          (latencyMatcher.machine.emitted st.latencyTable msg).map Prod.snd } := by
  have hnext : latencyMatcher.machine.next st.latencyTable msg =
      Function.update st.latencyTable (cstr msg.key)
        (latencyMatcher.step (st.latencyTable (cstr msg.key)) msg).1 := rfl
  have hemitted : (latencyMatcher.machine.emitted st.latencyTable msg).map Prod.snd =
      (latencyMatcher.step (st.latencyTable (cstr msg.key)) msg).2 := by
    rw [Machine.emitted, List.map_map]
    exact List.map_id _
  rw [hnext, hemitted]
  unfold calculateLatency
  cases hslot : st.latencyTable (cstr msg.key) with
  | none =>
      simp only [Matcher.step_none, List.append_nil, LatencyRecord.ofSummary, cstr_ncopy]
      rfl
  | some latencyRecord =>
      by_cases hm : isComplement msg.msgType latencyRecord.msgType
      · rw [latencyMatcher.step_answered hm]
        exact if_pos hm
      · have hkept : Function.update st.latencyTable (cstr msg.key) (some latencyRecord) =
            st.latencyTable := by
          rw [← hslot, Function.update_eq_self]
        rw [latencyMatcher.step_ignored hm, List.append_nil, hkept]
        exact if_neg hm

/-- The entry of the message's key after a call. -/
theorem calculateLatency_self (st : LatencyState) (msg : FixMessageSummary) :
    (calculateLatency st msg).latencyTable (cstr msg.key) =
      (latencyMatcher.step (st.latencyTable (cstr msg.key)) msg).1 := by
  rw [calculateLatency_eq]
  exact latencyMatcher.machine.next_self st.latencyTable msg

/-- The entries of the other keys stay as they are. -/
theorem calculateLatency_other (st : LatencyState) {msg : FixMessageSummary} {key : List UInt8}
    (h : cstr msg.key ≠ key) :
    (calculateLatency st msg).latencyTable key = st.latencyTable key := by
  rw [calculateLatency_eq]
  exact latencyMatcher.machine.next_of_ne st.latencyTable h

/-- A message that meets an entry that it does not complement is ignored. -/
theorem calculateLatency_ignored {st : LatencyState} {msg : FixMessageSummary}
    {latencyRecord : LatencyRecord} (hslot : st.latencyTable (cstr msg.key) = some latencyRecord)
    (h : ¬ isComplement msg.msgType latencyRecord.msgType) : calculateLatency st msg = st := by
  unfold calculateLatency
  simp only [hslot]
  exact if_neg h

/-- A sequence of calls is a run of the table of slots. -/
theorem calculateLatencies_eq (st : LatencyState) (msgs : List FixMessageSummary) :
    calculateLatencies st msgs =
      { latencyTable := (latencyMatcher.machine.run st.latencyTable msgs).1
        histogram := st.histogram ++
          (latencyMatcher.machine.run st.latencyTable msgs).2.map Prod.snd } := by
  induction msgs generalizing st with
  | nil => simp [calculateLatencies]
  | cons msg msgs ih =>
      have hcons : calculateLatencies st (msg :: msgs) =
          calculateLatencies (calculateLatency st msg) msgs := rfl
      rw [hcons, ih, calculateLatency_eq, Machine.run, List.map_append, List.append_assoc]

theorem calculateLatencies_append (st : LatencyState) (msgs msgs' : List FixMessageSummary) :
    calculateLatencies st (msgs ++ msgs') =
      calculateLatencies (calculateLatencies st msgs) msgs' := List.foldl_append ..

theorem calculateLatencies_cons (st : LatencyState) (msg : FixMessageSummary)
    (msgs : List FixMessageSummary) :
    calculateLatencies st (msg :: msgs) = calculateLatencies (calculateLatency st msg) msgs := rfl

/-- From an empty table the handler is the matcher. -/
theorem calculateLatencies_init (msgs : List FixMessageSummary) :
    calculateLatencies .init msgs =
      { latencyTable := (latencyMatcher.run msgs).1, histogram := latencyMatcher.values msgs } :=
  calculateLatencies_eq ..

/-! ## The recorded values -/

/-- The value is the time from a request to its response: as an `int64_t`, and
exactly when the times are those of packets. -/
def LatencyOf (request response : FixMessageSummary) (value : Int) : Prop :=
  Answers request response ∧ value = wrap64 (elapsed request response) ∧
    (request.Stamped → response.Stamped → value = elapsed request response)

/-- The value belongs to a pair of positions: the first of the two messages was
stored when the second arrived, and either of them is the request. -/
def RecordedFor (msgs : List FixMessageSummary) (pair : Nat × Nat) (value : Int) : Prop :=
  ∃ a b, msgs[pair.1]? = some a ∧ msgs[pair.2]? = some b ∧ cstr a.key = cstr b.key ∧
    (LatencyOf a b value ∨ LatencyOf b a value)

/-- The pairs of positions that belong to the recorded values, and the messages in
the table. -/
structure Matching (msgs : List FixMessageSummary) (pairs : List (Nat × Nat))
    (st : LatencyState) : Prop where
  /-- There is one pair for each recorded value, in order. -/
  recorded : List.Forall₂ (RecordedFor msgs) pairs st.histogram
  /-- A message is in at most one pair. -/
  once : (positions pairs).Nodup
  /-- An entry of the table is a message with its key that is in no pair. -/
  pending : ∀ key latencyRecord, st.latencyTable key = some latencyRecord →
    ∃ i msg, msgs[i]? = some msg ∧ cstr msg.key = key ∧ latencyRecord = .ofSummary msg ∧
      i ∉ positions pairs

/-- What explains the run of the matcher is a matching of the messages. -/
theorem Matching.of_explains {msgs : List FixMessageSummary} {pairs : List (Nat × Nat)}
    (h : latencyMatcher.Explains msgs pairs (latencyMatcher.run msgs).1
      (latencyMatcher.values msgs)) : Matching msgs pairs (calculateLatencies .init msgs) := by
  rw [calculateLatencies_init]
  refine ⟨h.paired.imp ?_, h.once, h.pending⟩
  rintro pair value ⟨a, b, ha, hb, hkey, hans, rfl⟩
  refine ⟨a, b, ha, hb, hkey, ?_⟩
  rcases latencyNsec_eq hans with ⟨h, hvalue⟩ | ⟨h, hvalue⟩
  · exact .inl ⟨h, hvalue, fun hreq hrsp => hvalue.trans (wrap64_elapsed hreq hrsp)⟩
  · exact .inr ⟨h, hvalue, fun hreq hrsp => hvalue.trans (wrap64_elapsed hreq hrsp)⟩

/-- **Matching.**  From an empty table, one list of pairs accounts for what is
recorded and for what is stored after every message of the sequence. -/
theorem calculateLatencies_matching (msgs : List FixMessageSummary) :
    ∃ pairs : List (Nat × Nat), ∀ n, Matching (msgs.take n)
      (pairs.take (calculateLatencies .init (msgs.take n)).histogram.length)
      (calculateLatencies .init (msgs.take n)) := by
  obtain ⟨pairs, hpairs⟩ := latencyMatcher.run_explained msgs
  refine ⟨pairs, fun n => ?_⟩
  have := Matching.of_explains (hpairs n)
  rwa [calculateLatencies_init] at this ⊢

/-! ## Interleavings -/

/-- **Interleavings.**  Two sequences with the same messages for each key end in
the same table and record the same values up to their order. -/
theorem calculateLatencies_interleaving (st : LatencyState) {msgs msgs' : List FixMessageSummary}
    (h : ∀ key, msgs.filter (fun msg => cstr msg.key = key) =
      msgs'.filter (fun msg => cstr msg.key = key)) :
    (calculateLatencies st msgs).latencyTable = (calculateLatencies st msgs').latencyTable ∧
      (calculateLatencies st msgs).histogram.Perm (calculateLatencies st msgs').histogram := by
  obtain ⟨htable, hperm⟩ :=
    @Machine.run_congr _ _ _ _ _ latencyMatcher.machine st.latencyTable msgs msgs' h
  rw [calculateLatencies_eq, calculateLatencies_eq]
  exact ⟨htable, (hperm.map _).append_left _⟩

/-- A message captured at a whole second. -/
def captured (key : String) (msgType tvSec : Int) : FixMessageSummary where
  tvSec := tvSec
  tvNsec := 0
  msgType := msgType
  key := ascii key

/-- Two orders drained in either order. -/
theorem calculateLatencies_interleaving_twoOrders :
    let one := [captured "a" 68 1, captured "b" 68 2, captured "a" 56 3, captured "b" 56 7]
    let two := [captured "b" 68 2, captured "b" 56 7, captured "a" 68 1, captured "a" 56 3]
    (calculateLatencies .init one).latencyTable = (calculateLatencies .init two).latencyTable ∧
      (calculateLatencies .init one).histogram.Perm (calculateLatencies .init two).histogram :=
  calculateLatencies_interleaving .init fun key => by
    have ha : ∀ type sec, cstr (captured "a" type sec).key = [97] := fun _ _ => rfl
    have hb : ∀ type sec, cstr (captured "b" type sec).key = [98] := fun _ _ => rfl
    have hne : ¬ (([97] : List UInt8) = key ∧ ([98] : List UInt8) = key) := by
      rintro ⟨rfl, h⟩
      exact absurd h (by decide)
    simp only [List.filter_cons, ha, hb, List.filter_nil]
    by_cases h97 : ([97] : List UInt8) = key <;> by_cases h98 : ([98] : List UInt8) = key <;>
      simp_all

end Vmars
