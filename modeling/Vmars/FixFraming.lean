import Vmars.FixExtraction

/-!
# Framing and field contents

A packet that holds exactly a list of messages is taken apart into those
messages if and only if no message contains the marker `8=FIX.4.` behind its
start (`framesExactly_iff`).  The marker search splits a message at such a text,
the part before it is too short and becomes a fragment, and nothing in the rest
of the call removes a fragment again.
-/

namespace Vmars

open CMemory Occurrence

section Framing

variable {R : Type} [RingBuffer R]

/-- The call accepts exactly these messages in order, counts them and leaves no
fragment. -/
def FramesExactly (ctx : CaptureContext R) (packet : Packet) (ms : List FixMessage) : Prop :=
  ∃ ctx', vmarsExtractFixMessages ctx packet = .ok ctx' ∧
    ctx'.accepted = ctx.accepted ++ ms.map FixMessage.encode ∧
    ctx'.counters.validMessages = ctx.counters.validMessages + ms.length ∧
    getFragment ctx' packet.streamId = none

/-! ## Messages with the marker at their start only -/

/-- A message has at least one byte. -/
theorem encodeAll_length_ge (ms : List FixMessage) : ms.length ≤ (encodeAll ms).length := by
  induction ms with
  | nil => exact Nat.le_refl _
  | cons m ms ih =>
      have := m.encode_length_ge
      rw [encodeAll_cons, List.length_append, List.length_cons]
      omega

/-- The first message starts with a marker. -/
theorem marker_isPrefix_encodeAll {ms : List FixMessage} (hne : ms ≠ [])
    (honly : ∀ m ∈ ms, OnlyAtStart marker m.encode) : marker <+: encodeAll ms := by
  obtain ⟨m, ms, rfl⟩ := List.exists_cons_of_ne_nil hne
  rw [encodeAll_cons]
  exact (honly m (List.mem_cons_self ..)).isPrefix.trans (List.prefix_append _ _)

/-- From the first of such messages on, all are delivered and nothing is left. -/
theorem finishPacket_encodeAll {ctx : CaptureContext R} {packet : Packet} {pre : List UInt8}
    {ms : List FixMessage} (hne : ms ≠ []) (hdata : packet.data = pre ++ encodeAll ms)
    (honly : ∀ m ∈ ms, OnlyAtStart marker m.encode) :
    finishPacket packet ctx (some pre.length) (encodeAll ms).length =
      .ok (ctx.deliverAll packet.tvSec packet.tvNsec ms) := by
  have hcount := encodeAll_length_ge ms
  obtain ⟨fuel, hfuel⟩ : ∃ fuel, packet.data.length + 1 = fuel + ms.length := by
    refine ⟨packet.data.length + 1 - ms.length, ?_⟩
    rw [hdata, List.length_append]
    omega
  have hloop := @extractLoop_messages _ _ _ _ honly ctx pre [] (by rw [hdata, List.append_nil])
    (.inr (by decide)) fuel
  have hend : markerAt packet.data (pre ++ encodeAll ms).length = none := by
    rw [markerAt, if_neg]
    rw [hdata, List.drop_length]
    decide
  have hstart : markerAt packet.data pre.length = some pre.length := by
    rw [hdata]
    exact markerAt_of_isPrefix (marker_isPrefix_encodeAll hne honly)
  rw [hend, hstart, List.append_nil, ← hfuel] at hloop
  rw [finishPacket, hloop]
  cases fuel <;> rfl

/-- Such messages are all delivered. -/
theorem framesExactly_of_onlyAtStart {ctx : CaptureContext R} {packet : Packet}
    {ms : List FixMessage} (hne : ms ≠ []) (hdata : packet.data = encodeAll ms)
    (hfragment : getFragment ctx packet.streamId = none)
    (honly : ∀ m ∈ ms, OnlyAtStart marker m.encode) : FramesExactly ctx packet ms := by
  have hmarker : marker <+: packet.data := hdata ▸ marker_isPrefix_encodeAll hne honly
  have hfinish := @finishPacket_encodeAll _ _ ctx _ [] _ hne hdata honly
  rw [← hdata] at hfinish
  obtain ⟨hstate, haccepted, hvalid⟩ := deliverAll_frame ctx packet.tvSec packet.tvNsec ms
  refine ⟨ctx.deliverAll packet.tvSec packet.tvNsec ms, ?_, haccepted, hvalid, ?_⟩
  · rw [extract_of_marker hmarker]
    exact hfinish
  · rw [hstate, hfragment]

/-! ## A message that contains the marker once more -/

/-- Every message starts with the marker. -/
theorem FixMessage.marker_isPrefix (m : FixMessage) : marker <+: m.encode := by
  have hheader : marker <+: m.version.header := by
    cases m.version <;> decide
  rw [m.encode_eq, List.append_assoc, List.append_assoc]
  exact hheader.trans (List.prefix_append _ _)

/-- The first letter of the marker stands in it only once. -/
theorem marker_first_unique : ∀ j < marker.length, 0 < j → marker[j]? ≠ marker[0]? := by decide

/-- No marker starts inside the first one. -/
theorem FixMessage.le_of_occursAt (m : FixMessage) {i : Nat} (hi : 0 < i)
    (hocc : OccursAt marker m.encode i) : 8 ≤ i := by
  refine Nat.le_of_not_lt fun hlt => ?_
  have hletter := hocc.getElem? (j := 0) (by decide)
  rw [Nat.add_zero] at hletter
  obtain ⟨rest, hrest⟩ := m.marker_isPrefix
  rw [← hrest, List.getElem?_append_left (by rw [marker_length]; exact hlt)] at hletter
  exact marker_first_unique i hlt hi hletter

/-- A fragment stays stored through every round. -/
theorem extractRound_fragment {packet : Packet} {ctx ctx' : CaptureContext R} {curr : Nat}
    {next : Option Nat} {bufRemaining bufRemaining' : Int}
    (h : extractRound packet ctx curr bufRemaining = .ok (ctx', next, bufRemaining'))
    (hfragment : getFragment ctx packet.streamId ≠ none) :
    getFragment ctx' packet.streamId ≠ none := by
  obtain ⟨message, run, details, -, -, -, -, -, heffect⟩ := extractRound_ok h
  cases heffect with
  | accepted _ => rwa [getFragment_deliver]
  | tooShort _ hput =>
      obtain ⟨s, -, ⟨fragment, hget, -⟩, -⟩ := putFragment_ok hput
      rw [hget]
      exact Option.some_ne_none fragment
  | failed _ _ => exact hfragment

/-- A fragment stays stored through the rest of the loop. -/
theorem extractLoop_fragment {packet : Packet} {fuel : Nat} {ctx ctx' : CaptureContext R}
    {curr : Option Nat} {bufRemaining bufRemaining' : Int}
    (h : extractLoop packet fuel ctx curr bufRemaining = .ok (ctx', bufRemaining'))
    (hfragment : getFragment ctx packet.streamId ≠ none) :
    getFragment ctx' packet.streamId ≠ none := by
  induction fuel generalizing ctx curr bufRemaining with
  | zero =>
      cases curr with
      | none => cases h; exact hfragment
      | some curr => cases h
  | succ fuel ih =>
      cases curr with
      | none => cases h; exact hfragment
      | some curr =>
          obtain ⟨⟨ctx₁, next, bufRemaining₁⟩, hround, hrest⟩ := bind_eq_ok.mp h
          exact ih hrest (extractRound_fragment hround hfragment)

/-- A message with a second marker does not survive its round: what is before
that marker is too short and is stored. -/
theorem extractRound_splits (m : FixMessage) {packet : Packet} {ctx ctx' : CaptureContext R}
    {pre tail : List UInt8} {next : Option Nat} {bufRemaining' : Int}
    (hdata : packet.data = pre ++ (m.encode ++ tail)) (hsplit : ¬ OnlyAtStart marker m.encode)
    (h : extractRound packet ctx pre.length ((m.encode ++ tail).length : Nat) =
      .ok (ctx', next, bufRemaining')) : getFragment ctx' packet.streamId ≠ none := by
  have hmax := packet.length_le
  have hlen := m.encode_length_ge
  rw [hdata] at hmax
  simp only [List.length_append] at hmax
  have hfit : m.encode.length ≤ intMax := by omega
  -- the second marker of the message is the next one of the packet
  obtain ⟨i, hi, hocc⟩ : ∃ i, 0 < i ∧ OccursAt marker m.encode i := by
    refine Classical.byContradiction fun hno => hsplit fun i => ⟨fun hocc => ?_, ?_⟩
    · refine Classical.byContradiction fun hi => hno ⟨i, Nat.pos_of_ne_zero hi, hocc⟩
    · rintro rfl
      exact occursAt_zero.mpr m.marker_isPrefix
  have hi8 := m.le_of_occursAt hi hocc
  have hend := hocc.length_le marker_ne_nil
  rw [marker_length] at hend
  have hdrop : packet.data.drop (pre.length + 8) = (m.encode ++ tail).drop 8 := by
    rw [hdata, ← List.drop_drop, List.drop_left]
  have hocc' : OccursAt marker ((m.encode ++ tail).drop 8) (i - 8) := by
    rw [occursAt_drop, Nat.add_sub_cancel' hi8]
    exact hocc.append_right
  obtain ⟨j, hj⟩ : ∃ j, firstOccurrence marker ((m.encode ++ tail).drop 8) = some j := by
    cases hfirst : firstOccurrence marker ((m.encode ++ tail).drop 8) with
    | none => exact ((firstOccurrence_eq_none marker_ne_nil).mp hfirst _ hocc').elim
    | some j => exact ⟨j, rfl⟩
  have hjlt : j ≤ i - 8 := by
    refine Nat.le_of_not_lt fun hlt => ?_
    exact ((firstOccurrence_eq_some marker_ne_nil).mp hj).2 _ hlt hocc'
  have hsearch := @searchNext_eq packet pre.length (by rw [hdata]; simp; omega)
  have hremaining : packet.data.length - pre.length = (m.encode ++ tail).length := by
    rw [hdata]
    simp
  rw [hremaining, hdrop, hj] at hsearch
  -- so only a proper prefix of the message is parsed
  obtain ⟨message, run, details, hnext, hmessage, hrun, -, -, heffect⟩ := extractRound_ok h
  rw [hsearch] at hnext
  obtain rfl : next = some (pre.length + 8 + j) := (Except.ok.inj hnext).symm
  obtain rfl : message = m.encode ++ tail := by
    rw [pointerAt_natCast (by rw [hdata]; simp), hdata, List.drop_left] at hmessage
    exact (Except.ok.inj hmessage).symm
  have hshort : vmarsFixParseMsg (m.encode ++ tail) (8 + j : Nat) 0 =
      .ok (rejected .messageTooShort (8 + j : Nat)) := by
    refine vmarsFixParseMsg_incomplete m (by omega) (by simp; omega) ?_ ?_
    · rw [List.take_append_of_le_length (by omega)]
    · have := m.encode_length
      omega
  rw [show fixMessageLen pre.length (some (pre.length + 8 + j)) ((m.encode ++ tail).length : Nat) =
    ((8 + j : Nat) : Int) by unfold fixMessageLen; simp only; omega, hshort] at hrun
  obtain rfl := Except.ok.inj hrun
  cases heffect with
  | accepted hok => cases hok
  | tooShort _ hput =>
      obtain ⟨s, -, ⟨fragment, hget, -⟩, -⟩ := putFragment_ok hput
      rw [hget]
      exact Option.some_ne_none fragment
  | failed _ hne => exact (hne rfl).elim

/-- A call that meets a message with a second marker leaves a fragment. -/
theorem extract_splits {ctx ctx' : CaptureContext R} {packet : Packet}
    {before after : List FixMessage}
    {m : FixMessage} (hdata : packet.data = encodeAll (before ++ m :: after))
    (honly : ∀ m ∈ before, OnlyAtStart marker m.encode) (hsplit : ¬ OnlyAtStart marker m.encode)
    (h : vmarsExtractFixMessages ctx packet = .ok ctx') :
    getFragment ctx' packet.streamId ≠ none := by
  have htail : marker <+: m.encode ++ encodeAll after :=
    m.marker_isPrefix.trans (List.prefix_append _ _)
  have hparts : packet.data = [] ++ (encodeAll before ++ (m.encode ++ encodeAll after)) := by
    rw [hdata, encodeAll_append, encodeAll_cons, List.nil_append]
  have hmarker : marker <+: packet.data := by
    rw [hparts, List.nil_append]
    cases before with
    | nil => exact htail
    | cons m' before =>
        rw [encodeAll_cons, List.append_assoc]
        exact m'.marker_isPrefix.trans (List.prefix_append _ _)
  have hfuel : packet.data.length + 1 =
      (packet.data.length - before.length + 1) + before.length := by
    have := encodeAll_length_ge before
    have := congrArg List.length hparts
    simp only [List.nil_append, List.length_append] at this
    omega
  -- the loop reaches the message and its round stores a fragment
  have hloop := @extractLoop_messages _ _ _ _ honly ctx _ _ hparts (.inl htail)
    (packet.data.length - before.length + 1)
  have hstart : markerAt packet.data ([] : List UInt8).length = some 0 := if_pos hmarker
  have hreached : markerAt packet.data ([] ++ encodeAll before).length =
      some (encodeAll before).length := by
    rw [hparts, ← List.append_assoc]
    exact markerAt_of_isPrefix htail
  have hlength : (encodeAll before ++ (m.encode ++ encodeAll after)).length =
      packet.data.length := by
    rw [hparts, List.nil_append]
  rw [hstart, hreached, hlength, ← hfuel] at hloop
  rw [extract_of_marker hmarker, finishPacket, hloop] at h
  obtain ⟨⟨ctx₁, bufRemaining⟩, hrounds, hlast⟩ := bind_eq_ok.mp h
  obtain ⟨⟨ctx₂, next, bufRemaining₂⟩, hround, hrest⟩ := bind_eq_ok.mp hrounds
  have hstored := @extractRound_splits _ _ m _ _ _ (encodeAll before) _ _ _
    (by rw [hparts, List.nil_append]) hsplit hround
  have hkept := extractLoop_fragment hrest hstored
  -- what is left over can only replace it
  simp only [storeLeftover] at hlast
  split at hlast
  · obtain ⟨rest, -, hput⟩ := bind_eq_ok.mp hlast
    obtain ⟨s, -, ⟨fragment, hget, -⟩, -⟩ := putFragment_ok hput
    rw [hget]
    exact Option.some_ne_none fragment
  · cases hlast
    exact hkept

/-! ## The condition -/

/-- The first message of a list that fails a condition. -/
theorem exists_first_not {α : Type} {p : α → Prop} {xs : List α} (h : ¬ ∀ x ∈ xs, p x) :
    ∃ before x after, xs = before ++ x :: after ∧ (∀ y ∈ before, p y) ∧ ¬ p x := by
  induction xs with
  | nil => exact (h fun x hx => absurd hx List.not_mem_nil).elim
  | cons a xs ih =>
      by_cases ha : p a
      · have hxs : ¬ ∀ x ∈ xs, p x := fun hall => h fun x hx => by
          rcases List.mem_cons.mp hx with rfl | hx
          · exact ha
          · exact hall x hx
        obtain ⟨before, x, after, rfl, hbefore, hx⟩ := ih hxs
        refine ⟨a :: before, x, after, rfl, fun y hy => ?_, hx⟩
        rcases List.mem_cons.mp hy with rfl | hy
        · exact ha
        · exact hbefore y hy
      · exact ⟨[], a, xs, rfl, fun y hy => absurd hy List.not_mem_nil, ha⟩

/-- **Framing depends on field contents in one way only**: a packet of messages is
taken apart into exactly these messages if and only if none of them contains the
marker behind its start. -/
theorem framesExactly_iff {ctx : CaptureContext R} {packet : Packet} {ms : List FixMessage}
    (hne : ms ≠ []) (hdata : packet.data = encodeAll ms)
    (hfragment : getFragment ctx packet.streamId = none) :
    FramesExactly ctx packet ms ↔ ∀ m ∈ ms, OnlyAtStart marker m.encode := by
  refine ⟨?_, framesExactly_of_onlyAtStart hne hdata hfragment⟩
  rintro ⟨ctx', hrun, -, -, hnone⟩
  refine Classical.byContradiction fun hno => ?_
  obtain ⟨before, m, after, rfl, hbefore, hsplit⟩ := exists_first_not hno
  exact extract_splits hdata hbefore hsplit hrun hnone

end Framing

/-- The stream of the examples. -/
def exampleStream : Ipv4Stream := ⟨0x0a000001, 0x0a000002, 5001, 443⟩

theorem newOrderExample_fits : newOrderExample.encode.length + marker.length ≤ intMax := by decide

theorem newOrderExample_take_fits :
    (newOrderExample.encode.take 10).length + marker.length ≤ intMax := by decide

/-- Two orders in one packet. -/
theorem framesExactly_iff_twoOrders :
    FramesExactly { rb := ([] : List FixMessageSummary) }
      ⟨exampleStream, 1, 2, encodeAll [newOrderExample, newOrderExample], by decide⟩
      [newOrderExample, newOrderExample] :=
  (framesExactly_iff (by simp) rfl rfl).mpr (by
    have honly : OnlyAtStart marker newOrderExample.encode :=
      (onlyAtStart_iff marker_ne_nil).mpr (by decide)
    simpa using honly)

/-- A new order whose text, `58=FIX.4.2`, continues the tag to a marker. -/
def splitOrderExample : FixMessage :=
  .ofFields .fix42 [⟨.ofNat 35, ascii "D", msgTypeNumeral_le, newOrder_no_soh⟩,
    ⟨.ofNat 58, ascii "FIX.4.2", by decide, by decide⟩] (by simp)

/-- The order is not accepted: the part before `8=FIX.4.2` becomes a fragment. -/
theorem not_framesExactly_splitOrder :
    ¬ FramesExactly { rb := ([] : List FixMessageSummary) }
      ⟨exampleStream, 1, 2, encodeAll [splitOrderExample], by decide⟩ [splitOrderExample] := by
  rintro ⟨ctx', hrun, -, -, hnone⟩
  have hsplit : ¬ OnlyAtStart marker splitOrderExample.encode :=
    fun honly => absurd ((onlyAtStart_iff marker_ne_nil).mp honly) (by decide)
  exact @extract_splits _ _ _ _ _ [] _ _ rfl (by simp) hsplit hrun hnone

end Vmars
