import Mathlib.Data.List.Nodup
import Vmars.LatencyHandler

/-!
# When every pair is measured

Orders, mass quotes and traces share the latency table, and one key can occur in
several families.  A message that finds the entry of its key taken by a message
of another family is dropped, and its counterpart is left behind.

`complete_iff`: where each message and its counterpart occur once, everything is
measured exactly when the two messages of a pair arrive with no other message of
their key between them.
-/

namespace Vmars

open CMemory KeyedMachine PendingSlot

/-- The key and the type of a message. -/
def FixMessageSummary.tag (msg : FixMessageSummary) : List UInt8 × Int :=
  (cstr msg.key, msg.msgType)

/-- For each key and family that occurs there is one request and one response. -/
structure OneOfEach (msgs : List FixMessageSummary) : Prop where
  once : (msgs.map FixMessageSummary.tag).Nodup
  answered : ∀ msg ∈ msgs, ∃ msg' ∈ msgs, cstr msg'.key = cstr msg.key ∧
    isComplement msg.msgType msg'.msgType

/-- The response to a request in a sequence. -/
def responseTo (msgs : List FixMessageSummary) (request : FixMessageSummary) :
    Option FixMessageSummary :=
  msgs.find? fun response => cstr response.key = cstr request.key ∧ Answers request response

/-- The latencies of the pairs of a sequence, in the order of the requests. -/
def pairLatencies (msgs : List FixMessageSummary) : List Int :=
  msgs.filterMap fun request =>
    (responseTo msgs request).map fun response => wrap64 (elapsed request response)

/-- Every pair is measured, nothing else is, and the table ends empty. -/
def Complete (msgs : List FixMessageSummary) : Prop :=
  (calculateLatencies .init msgs).histogram.Perm (pairLatencies msgs) ∧
    ∀ key, (calculateLatencies .init msgs).latencyTable key = none

/-- The messages of every key arrive in pairs, each message right before the one
that complements it. -/
def BackToBack (msgs : List FixMessageSummary) : Prop :=
  ∀ key, latencyMatcher.BackToBack (msgs.filter fun msg => cstr msg.key = key)

/-! ## The response to a request -/

/-- Of two messages with the same key and type there is only one. -/
theorem OneOfEach.unique {msgs : List FixMessageSummary} (h : OneOfEach msgs)
    {a b : FixMessageSummary} (ha : a ∈ msgs) (hb : b ∈ msgs) (htag : a.tag = b.tag) : a = b :=
  List.inj_on_of_nodup_map h.once ha hb htag

/-- A request has no more than one response type. -/
theorem answers_unique {a b c : FixMessageSummary} (hb : Answers a b) (hc : Answers a c) :
    b.msgType = c.msgType := by
  unfold Answers at hb hc
  rw [mem_families] at hb hc
  omega

/-- A request has the one response that answers it. -/
theorem OneOfEach.responseTo_eq {msgs : List FixMessageSummary} (h : OneOfEach msgs)
    {a b : FixMessageSummary} (hb : b ∈ msgs) (hkey : cstr b.key = cstr a.key)
    (hans : Answers a b) : responseTo msgs a = some b := by
  have hsome : (responseTo msgs a).isSome := by
    rw [responseTo, List.find?_isSome]
    exact ⟨b, hb, by simpa using ⟨hkey, hans⟩⟩
  obtain ⟨c, hc⟩ := Option.isSome_iff_exists.mp hsome
  have hprop := List.find?_some hc
  simp only [decide_eq_true_eq] at hprop
  have htag : c.tag = b.tag :=
    Prod.ext (hprop.1.trans hkey.symm) (answers_unique hprop.2 hans)
  rw [hc, h.unique (List.mem_of_find?_eq_some hc) hb htag]

/-- A response has no response. -/
theorem responseTo_response {msgs : List FixMessageSummary} {a b : FixMessageSummary}
    (hans : Answers a b) : responseTo msgs b = none := by
  refine List.find?_eq_none.mpr fun c _ hc => ?_
  have hbc := (isBegin_of_mem (of_decide_eq_true hc).2).1
  rw [(isBegin_of_mem hans).2] at hbc
  cases hbc

/-! ## Half of the messages are requests -/

/-- The type of the messages that complement a type. -/
def counterpart (type : Int) : Int :=
  if type = msgTypeMassQuote then msgTypeMassQuoteAck
  else if type = msgTypeMassQuoteAck then msgTypeMassQuote
  else if type = msgTypeNewOrderSingle then msgTypeExecutionReport
  else if type = msgTypeExecutionReport then msgTypeNewOrderSingle
  else if type = msgTypeTraceReq then msgTypeTraceRsp
  else msgTypeTraceReq

/-- The complement of a type is its counterpart. -/
theorem counterpart_eq {typeA typeB : Int} (h : isComplement typeA typeB) :
    counterpart typeA = typeB := by
  rw [isComplement_iff, mem_families, mem_families] at h
  rcases h with (⟨rfl, rfl⟩ | ⟨rfl, rfl⟩ | ⟨rfl, rfl⟩) | (⟨rfl, rfl⟩ | ⟨rfl, rfl⟩ | ⟨rfl, rfl⟩) <;>
    rfl

/-- Of a type and its complement one begins. -/
theorem isBegin_complement {typeA typeB : Int} (h : isComplement typeA typeB) :
    isBegin typeB = !isBegin typeA := by
  rcases isComplement_iff.mp h with h | h
  · rw [(isBegin_of_mem h).1, (isBegin_of_mem h).2, Bool.not_true]
  · rw [(isBegin_of_mem h).1, (isBegin_of_mem h).2, Bool.not_false]

/-- Requests and responses are equally many: exchanging the types of each pair
permutes the tags. -/
theorem OneOfEach.two_mul_requests {msgs : List FixMessageSummary} (h : OneOfEach msgs) :
    2 * msgs.countP (fun msg => isBegin msg.msgType) = msgs.length := by
  classical
  let swap : List UInt8 × Int → List UInt8 × Int := fun tag => (tag.1, counterpart tag.2)
  let tags := msgs.map FixMessageSummary.tag
  have hswap : ∀ tag ∈ tags, swap tag ∈ tags ∧ swap (swap tag) = tag ∧
      isBegin (swap tag).2 = !isBegin tag.2 := by
    intro tag htag
    obtain ⟨msg, hmsg, rfl⟩ := List.mem_map.mp htag
    obtain ⟨msg', hmsg', hkey, hcomp⟩ := h.answered msg hmsg
    have heq : swap msg.tag = msg'.tag := Prod.ext hkey.symm (counterpart_eq hcomp)
    refine ⟨heq ▸ List.mem_map_of_mem hmsg', ?_, ?_⟩
    · exact Prod.ext rfl ((congrArg counterpart (counterpart_eq hcomp)).trans
        (counterpart_eq (isComplement_comm.mp hcomp)))
    · rw [heq]
      exact isBegin_complement hcomp
  have hnodup : (tags.map swap).Nodup := by
    refine List.Nodup.map_on (fun tag htag tag' htag' heq => ?_) h.once
    rw [← (hswap tag htag).2.1, heq, (hswap tag' htag').2.1]
  have hsub : tags.map swap ⊆ tags := fun tag htag => by
    obtain ⟨tag', htag', rfl⟩ := List.mem_map.mp htag
    exact (hswap tag' htag').1
  have hperm : (tags.map swap).Perm tags :=
    (List.subperm_of_subset hnodup hsub).perm_of_length_le (List.length_map ..).ge
  have hhalf : tags.countP (fun tag => isBegin tag.2) =
      tags.countP (fun tag => !isBegin tag.2) := by
    rw [← hperm.countP_eq, List.countP_map]
    exact List.countP_congr fun tag htag => by
      rw [Function.comp_apply, (hswap tag htag).2.2]
  have hlen := List.length_eq_countP_add_countP (fun tag : List UInt8 × Int => isBegin tag.2)
    (l := tags)
  simp only [Bool.not_eq_true, Bool.decide_eq_false] at hlen
  rw [← hhalf, List.countP_map, List.length_map] at hlen
  have hcount : msgs.countP (fun msg => isBegin msg.msgType) =
      msgs.countP ((fun tag : List UInt8 × Int => isBegin tag.2) ∘ FixMessageSummary.tag) := rfl
  omega

/-- There is one latency for each request. -/
theorem OneOfEach.length_pairLatencies {msgs : List FixMessageSummary} (h : OneOfEach msgs) :
    (pairLatencies msgs).length = msgs.countP fun msg => isBegin msg.msgType := by
  rw [pairLatencies, List.length_filterMap_eq_countP]
  refine List.countP_congr fun msg hmsg => ?_
  obtain ⟨msg', hmsg', hkey, hcomp⟩ := h.answered msg hmsg
  rcases isComplement_iff.mp hcomp with hans | hans
  · rw [h.responseTo_eq hmsg' hkey hans, (isBegin_of_mem hans).1]
    rfl
  · rw [responseTo_response hans, (isBegin_of_mem hans).2]
    rfl

/-! ## Back to back -/

/-- Under one key, the values recorded for messages back to back are the latencies
of their pairs. -/
theorem OneOfEach.cellRun_eq {msgs : List FixMessageSummary} (h : OneOfEach msgs) {key : List UInt8}
    {l : List FixMessageSummary} (hl : ∀ msg ∈ l, msg ∈ msgs ∧ cstr msg.key = key)
    (hpairs : latencyMatcher.BackToBack l) :
    (latencyMatcher.cellRun none l).2 = l.filterMap fun request =>
      (responseTo msgs request).map fun response => wrap64 (elapsed request response) := by
  induction hpairs with
  | nil => rfl
  | @pair a b l answered _ ih =>
      obtain ⟨ha, hakey⟩ := hl a (List.mem_cons_self ..)
      obtain ⟨hb, hbkey⟩ := hl b (List.mem_cons_of_mem _ (List.mem_cons_self ..))
      have hrest := ih fun msg hmsg =>
        hl msg (List.mem_cons_of_mem _ (List.mem_cons_of_mem _ hmsg))
      rw [latencyMatcher.cellRun_pair answered, hrest]
      rcases latencyNsec_eq answered with ⟨hans, hvalue⟩ | ⟨hans, hvalue⟩
      · rw [List.filterMap_cons_some (by rw [h.responseTo_eq hb (hbkey.trans hakey.symm) hans]; rfl),
          List.filterMap_cons_none (by rw [responseTo_response hans]; rfl)]
        exact congrArg (· :: _) hvalue
      · rw [List.filterMap_cons_none (by rw [responseTo_response hans]; rfl),
          List.filterMap_cons_some (by rw [h.responseTo_eq ha (hakey.trans hbkey.symm) hans]; rfl)]
        exact congrArg (· :: _) hvalue

/-- The latencies of the pairs under their keys. -/
def keyedLatencies (msgs : List FixMessageSummary) : List (List UInt8 × Int) :=
  msgs.filterMap fun request => (responseTo msgs request).map fun response =>
    (cstr request.key, wrap64 (elapsed request response))

/-- Without their keys these are the latencies of the pairs. -/
theorem keyedLatencies_values (msgs : List FixMessageSummary) :
    (keyedLatencies msgs).map Prod.snd = pairLatencies msgs := by
  rw [keyedLatencies, pairLatencies, List.map_filterMap]
  simp only [Option.map_map]
  rfl

/-- Those under a key are the latencies of its requests. -/
theorem outputsOf_keyedLatencies (msgs : List FixMessageSummary) (key : List UInt8) :
    outputsOf key (keyedLatencies msgs) =
      ((latencyMatcher.machine.of key msgs).filterMap fun request =>
        (responseTo msgs request).map fun response => wrap64 (elapsed request response)).map
          fun value => (key, value) := by
  unfold keyedLatencies
  generalize hresp : responseTo msgs = response
  clear hresp
  induction msgs with
  | nil => rfl
  | cons msg msgs ih =>
      by_cases hkey : cstr msg.key = key
      · rw [latencyMatcher.machine.of_cons_self msgs hkey]
        cases hrsp : response msg with
        | none => simp [hrsp, ih]
        | some rsp => simp [hrsp, ← ih, outputsOf, hkey]
      · rw [latencyMatcher.machine.of_cons_ne msgs hkey]
        cases hrsp : response msg with
        | none => simp [hrsp, ih]
        | some rsp => simp [hrsp, ← ih, outputsOf, hkey]

/-- **Messages that are answered in turn** leave all their latencies. -/
theorem OneOfEach.complete {msgs : List FixMessageSummary} (h : OneOfEach msgs)
    (hpairs : BackToBack msgs) : Complete msgs := by
  unfold Complete
  rw [calculateLatencies_init]
  constructor
  · rw [← keyedLatencies_values]
    refine List.Perm.map _ (perm_of_outputsOf fun key => ?_)
    have hl : ∀ msg ∈ latencyMatcher.machine.of key msgs, msg ∈ msgs ∧ cstr msg.key = key :=
      fun msg hmsg => latencyMatcher.machine.mem_of.mp hmsg
    rw [outputsOf_keyedLatencies, ← h.cellRun_eq hl (hpairs key), Matcher.run,
      Machine.run_outputs]
    rfl
  · intro key
    have hcell := latencyMatcher.machine.run_cell (fun _ => none) msgs key
    exact hcell.trans (latencyMatcher.cellRun_of_backToBack (hpairs key))

/-- **Completeness.**  Where each message and its counterpart occur once, every
pair is measured and the table ends empty exactly when, under every key, each
message is directly followed by its counterpart. -/
theorem complete_iff {msgs : List FixMessageSummary} (h : OneOfEach msgs) :
    Complete msgs ↔ BackToBack msgs := by
  refine ⟨fun hcomplete key => ?_, h.complete⟩
  have hlen := hcomplete.1.length_eq
  rw [calculateLatencies_init, h.length_pairLatencies] at hlen
  exact latencyMatcher.backToBack_of_values (by rw [hlen, h.two_mul_requests]) key

/-- Orders and quotes of one key, each answered before the next. -/
def answeredInTurn : List FixMessageSummary :=
  [captured "a" 68 1, captured "b" 105 2, captured "a" 56 3, captured "a" 98 4,
    captured "a" 105 5, captured "b" 98 6]

/-- An order and a quote of one key, both sent before either is answered. -/
def answeredTogether : List FixMessageSummary :=
  [captured "a" 68 1, captured "a" 105 2, captured "a" 56 3, captured "a" 98 4]

/-- Two keys, each of whose requests is answered before the next one. -/
theorem complete_iff_answeredInTurn : BackToBack answeredInTurn ∧ Complete answeredInTurn := by
  have hpairs : BackToBack answeredInTurn := fun key => by
    have ha : ∀ type sec, cstr (captured "a" type sec).key = [97] := fun _ _ => rfl
    have hb : ∀ type sec, cstr (captured "b" type sec).key = [98] := fun _ _ => rfl
    simp only [answeredInTurn, List.filter_cons, ha, hb, List.filter_nil]
    by_cases h97 : ([97] : List UInt8) = key
    · subst h97
      exact .pair rfl (.pair rfl .nil)
    by_cases h98 : ([98] : List UInt8) = key
    · subst h98
      exact .pair rfl .nil
    · simpa [h97, h98] using .nil
  exact ⟨hpairs, (complete_iff ⟨by decide +kernel, by decide +kernel⟩).mpr hpairs⟩

/-- The quote is dropped because the order is in the table, and its response stays
there. -/
theorem not_complete_answeredTogether :
    OneOfEach answeredTogether ∧ ¬ Complete answeredTogether := by
  refine ⟨⟨by decide +kernel, by decide +kernel⟩, fun h => ?_⟩
  exact absurd h.1.length_eq (by decide +kernel)

end Vmars
