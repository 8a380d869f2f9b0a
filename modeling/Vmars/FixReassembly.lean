import Vmars.FixFraming

/-!
# Messages cut into packets

The concatenation of messages arrives in packets that are cut anywhere.  Between
two packets the stream carries the start of the message that is not complete yet,
and that start is the stored fragment (`Progress`).

One kind of cut breaks this: a packet that completes a fragment and ends with one
to seven bytes of the next message.  No marker is found in it, the whole packet is
appended to the fragment, and what the completed message does not use is dropped.
Without such a cut the events are those of the messages fed one by one
(`sameEvents_of_cutsSafe`).
-/

namespace Vmars

open CMemory Occurrence

/-! ## Events -/

/-- Message type and key of a summary. -/
def FixMessageSummary.event (summary : FixMessageSummary) : Int × List UInt8 :=
  (summary.msgType, summary.key)

/-- The events in a log of summaries. -/
def events (log : List FixMessageSummary) : List (Int × List UInt8) :=
  log.map FixMessageSummary.event

/-- The events that a message causes, at most one. -/
def FixMessage.events (m : FixMessage) : List (Int × List UInt8) :=
  ((eventOf 0 0 m.details).map FixMessageSummary.event).toList

/-- Type and key of an event do not depend on the time. -/
theorem eventOf_event (tvSec tvNsec : UInt32) (details : FixDetails) :
    (eventOf tvSec tvNsec details).map FixMessageSummary.event =
      (eventOf 0 0 details).map FixMessageSummary.event := by
  unfold eventOf
  cases measuredIds details with
  | none => rfl
  | some ids => rfl

/-- A delivered message has its own events. -/
theorem deliver_events (ctx : CaptureContext (List FixMessageSummary)) (tvSec tvNsec : UInt32)
    (m : FixMessage) :
    events (ctx.deliver tvSec tvNsec m.encode m.details).rb = events ctx.rb ++ m.events := by
  have hevent := eventOf_event tvSec tvNsec m.details
  unfold FixMessage.events CaptureContext.deliver
  cases heq : eventOf tvSec tvNsec m.details with
  | none =>
      rw [heq] at hevent
      rw [← hevent]
      exact (List.append_nil _).symm
  | some summary =>
      rw [heq] at hevent
      rw [← hevent]
      exact List.map_append

/-- So have delivered messages, in their order. -/
theorem deliverAll_events (ctx : CaptureContext (List FixMessageSummary)) (tvSec tvNsec : UInt32)
    (ms : List FixMessage) :
    events (ctx.deliverAll tvSec tvNsec ms).rb = events ctx.rb ++ ms.flatMap FixMessage.events := by
  induction ms generalizing ctx with
  | nil => exact (List.append_nil _).symm
  | cons m ms ih =>
      refine (ih (ctx.deliver tvSec tvNsec m.encode m.details)).trans ?_
      rw [deliver_events, List.flatMap_cons, List.append_assoc]

/-! ## The start of a message -/

/-- A message that the extraction can put together again. -/
structure Extractable (m : FixMessage) : Prop where
  length_lt : m.encode.length < fragmentCapacity
  nul_free : (0 : UInt8) ∉ m.encode
  onlyAtStart : OnlyAtStart marker m.encode

/-- The bytes are an incomplete start of the first of the messages, or empty. -/
def IsStartOf (bytes : List UInt8) (ms : List FixMessage) : Prop :=
  bytes = [] ∨ ∃ m rest, ms = m :: rest ∧ bytes <+: m.encode ∧ bytes.length < m.encode.length

/-- A prefix of encoded messages: some messages and the start of the next one. -/
theorem encodeAll_cut {bytes : List UInt8} {ms : List FixMessage}
    (h : bytes <+: encodeAll ms) :
    ∃ done rest carried, ms = done ++ rest ∧ bytes = encodeAll done ++ carried ∧
      IsStartOf carried rest := by
  induction ms generalizing bytes with
  | nil => exact ⟨[], [], [], rfl, by simpa using h, .inl rfl⟩
  | cons m ms ih =>
      rw [encodeAll_cons] at h
      by_cases hlt : bytes.length < m.encode.length
      · have hm : bytes <+: m.encode :=
          List.prefix_of_prefix_length_le h (List.prefix_append _ _) (Nat.le_of_lt hlt)
        exact ⟨[], m :: ms, bytes, rfl, rfl, .inr ⟨m, ms, rfl, hm, hlt⟩⟩
      · have hm : m.encode <+: bytes :=
          List.prefix_of_prefix_length_le (List.prefix_append _ _) h (Nat.le_of_not_lt hlt)
        obtain ⟨behind, rfl⟩ := hm
        obtain ⟨done, rest, carried, rfl, rfl, hstart⟩ := ih ((List.prefix_append_right_inj _).mp h)
        exact ⟨m :: done, rest, carried, rfl, by simp [encodeAll_cons], hstart⟩

section Start

variable {bytes : List UInt8} {ms : List FixMessage} (hms : ∀ m ∈ ms, Extractable m)

include hms in
/-- A start of eight bytes shows the marker. -/
theorem IsStartOf.marker_or_short (h : IsStartOf bytes ms) :
    marker <+: bytes ∨ bytes.length < 8 := by
  rcases h with rfl | ⟨m, rest, rfl, hpre, -⟩
  · exact .inr (by decide)
  · by_cases hshort : bytes.length < 8
    · exact .inr hshort
    · have hm := (hms m (List.mem_cons_self ..)).onlyAtStart.isPrefix
      exact .inl (List.prefix_of_prefix_length_le hm hpre (by rw [marker_length]; omega))

include hms in
/-- A start is a fragment: small enough, without NUL. -/
theorem IsStartOf.storable (h : IsStartOf bytes ms) :
    bytes.length < fragmentCapacity ∧ (0 : UInt8) ∉ bytes := by
  rcases h with rfl | ⟨m, rest, rfl, hpre, hlt⟩
  · exact ⟨by decide, List.not_mem_nil⟩
  · have hm := hms m (List.mem_cons_self ..)
    exact ⟨Nat.lt_trans hlt hm.length_lt, fun hmem => hm.nul_free (hpre.subset hmem)⟩

end Start

/-! ## Progress of a stream -/

/-- The stream has exactly these bytes stored; no bytes are no fragment. -/
def Carries {R : Type} (ctx : CaptureContext R) (streamId : Ipv4Stream) (carried : List UInt8) :
    Prop :=
  (getFragment ctx streamId).map Fragment.s = if carried = [] then none else some carried

/-- Nothing is carried exactly when there is no fragment. -/
theorem carries_nil {R : Type} {ctx : CaptureContext R} {streamId : Ipv4Stream} :
    Carries ctx streamId [] ↔ getFragment ctx streamId = none := by
  simp [Carries]

/-- A stored fragment is what is carried. -/
theorem carries_of_fragment {R : Type} {ctx : CaptureContext R} {streamId : Ipv4Stream}
    {carried : List UInt8} (hne : carried ≠ [])
    (h : ∃ fragment, getFragment ctx streamId = some fragment ∧ fragment.s = carried) :
    Carries ctx streamId carried := by
  obtain ⟨fragment, hget, hs⟩ := h
  rw [Carries, hget, if_neg hne, Option.map_some, hs]

/-- The fragment that carries some bytes. -/
theorem Carries.fragment {R : Type} {ctx : CaptureContext R} {streamId : Ipv4Stream}
    {carried : List UInt8} (h : Carries ctx streamId carried) (hne : carried ≠ []) :
    ∃ fragment, getFragment ctx streamId = some fragment ∧ fragment.s = carried := by
  rw [Carries, if_neg hne, Option.map_eq_some_iff] at h
  exact h

/-- What a stream has reached: the events of the messages that are complete, and
the start of the next one. -/
structure Progress (ctx : CaptureContext (List FixMessageSummary)) (streamId : Ipv4Stream)
    (caused : List (Int × List UInt8)) (carried : List UInt8) : Prop where
  events_eq : events ctx.rb = caused
  carries : Carries ctx streamId carried

/-! ## From a message boundary on -/

section Boundary

variable {ctx : CaptureContext (List FixMessageSummary)} {packet : Packet}
  {caused : List (Int × List UInt8)} {ms rest : List FixMessage} {pre carried : List UInt8}

/-- Bytes without a message that are left over become the fragment. -/
theorem finishPacket_short (hdata : packet.data = pre ++ carried) (hlt : carried.length < 8)
    (hstore : carried.length < fragmentCapacity ∧ (0 : UInt8) ∉ carried)
    (hprogress : Progress ctx packet.streamId caused []) :
    ∃ ctx', finishPacket packet ctx none carried.length = .ok ctx' ∧
      Progress ctx' packet.streamId caused carried := by
  by_cases hne : carried = []
  · subst hne
    exact ⟨ctx, rfl, hprogress⟩
  · have hpos := List.length_pos_iff.mpr hne
    have hwhere : (packet.data.length : Int) - (carried.length : Nat) = (pre.length : Nat) := by
      rw [hdata, List.length_append]
      omega
    obtain ⟨ctx', hput, hfragment, hrb, -⟩ := @putFragment_eq _ ctx packet.streamId _ _
      (Nat.le_refl carried.length) (Nat.le_of_lt hstore.1)
      (by rw [List.take_length]; exact hstore.2)
    rw [List.take_length] at hfragment
    refine ⟨ctx', ?_, ⟨hrb ▸ hprogress.events_eq, carries_of_fragment hne hfragment⟩⟩
    have hleft : (carried.length : Int) > 0 := by omega
    rw [finishPacket, extractLoop, ok_bind]
    simp only [storeLeftover, if_pos hleft, hwhere]
    rw [pointerAt_natCast (by rw [hdata]; simp), hdata, List.drop_left, ok_bind, hput]

/-- The round for an incomplete message stores it. -/
theorem extractRound_start {m : FixMessage} (hm : Extractable m)
    (hdata : packet.data = pre ++ carried) (hpre : carried <+: m.encode)
    (hlt : carried.length < m.encode.length) (hmarker : marker <+: carried)
    (hprogress : Progress ctx packet.streamId caused []) :
    ∃ ctx', extractRound packet ctx pre.length (carried.length : Nat) = .ok (ctx', none, 0) ∧
      Progress ctx' packet.streamId caused carried := by
  have hlen : 8 ≤ carried.length := hmarker.length_le
  have hsmall := hm.length_lt
  have hfit : m.encode.length ≤ intMax := by
    unfold intMax
    unfold fragmentCapacity maxFragmentTotalSize at hsmall
    omega
  have hremaining : packet.data.length - pre.length = carried.length := by
    rw [hdata, List.length_append]
    omega
  have hdrop : packet.data.drop (pre.length + 8) = carried.drop 8 := by
    rw [hdata, ← List.drop_drop, List.drop_left]
  -- no other marker starts in it
  have hnext : firstOccurrence marker (carried.drop 8) = none := by
    rw [firstOccurrence_eq_none marker_ne_nil]
    intro i hocc
    obtain ⟨behind, hbehind⟩ := hpre
    have hwhole : OccursAt marker m.encode (8 + i) := by
      rw [← hbehind]
      exact (occursAt_drop.mp hocc).append_right
    have := (hm.onlyAtStart _).mp hwhole
    omega
  have hsearch := @searchNext_eq packet pre.length (by rw [hdata, List.length_append]; omega)
  rw [hremaining, hdrop, hnext] at hsearch
  have htake : carried.take carried.length = m.encode.take carried.length := by
    rw [List.take_length]
    exact List.prefix_iff_eq_take.mp hpre
  obtain ⟨ctx', hput, hfragment, hrb, -⟩ := @putFragment_eq _ ctx packet.streamId _ _
    (Nat.le_refl carried.length) (Nat.le_trans (Nat.le_of_lt hlt) (Nat.le_of_lt hm.length_lt))
    (by rw [List.take_length]; exact fun hmem => hm.nul_free (hpre.subset hmem))
  rw [List.take_length] at hfragment
  have hne : carried ≠ [] := List.ne_nil_of_length_pos (by omega)
  refine ⟨ctx', ?_, ⟨hrb ▸ hprogress.events_eq, carries_of_fragment hne hfragment⟩⟩
  have hzero : wrap32 ((carried.length : Int) - (carried.length : Nat)) = 0 := by
    rw [Int.sub_self]
    decide
  rw [extractRound, hsearch, pointerAt_natCast (by rw [hdata]; simp), hdata, List.drop_left]
  simp only [Option.map_none, ok_bind, tryParse_incomplete m hlt (Nat.le_refl _) htake hfit, hput,
    hzero, reduceCtorEq, if_false, if_true]

/-- From a message boundary on, a packet delivers its messages and carries the
start of the next one. -/
theorem finishPacket_messages (hms : ∀ m ∈ ms, Extractable m) (hrest : ∀ m ∈ rest, Extractable m)
    (hdata : packet.data = pre ++ (encodeAll ms ++ carried)) (hstart : IsStartOf carried rest)
    (hprogress : Progress ctx packet.streamId caused []) :
    ∃ ctx', finishPacket packet ctx (markerAt packet.data pre.length)
        ((encodeAll ms ++ carried).length : Nat) = .ok ctx' ∧
      Progress ctx' packet.streamId (caused ++ ms.flatMap FixMessage.events) carried := by
  have hbehind : packet.data = (pre ++ encodeAll ms) ++ carried := by
    rw [hdata, List.append_assoc]
  have htail := hstart.marker_or_short hrest
  have hdelivered : Progress (ctx.deliverAll packet.tvSec packet.tvNsec ms) packet.streamId
      (caused ++ ms.flatMap FixMessage.events) [] := by
    refine ⟨by rw [deliverAll_events, hprogress.events_eq], carries_nil.mpr ?_⟩
    rw [(deliverAll_frame ctx packet.tvSec packet.tvNsec ms).1]
    exact carries_nil.mp hprogress.carries
  -- one round for each message, and at least one is left
  have hcount := encodeAll_length_ge ms
  obtain ⟨fuel, hfuel⟩ : ∃ fuel, packet.data.length + 1 = fuel + 1 + ms.length := by
    have := congrArg List.length hdata
    simp only [List.length_append] at this
    exact ⟨packet.data.length - ms.length, by omega⟩
  have hloop := @extractLoop_messages _ _ _ _ (fun m hm => (hms m hm).onlyAtStart) ctx _ _
    hdata htail (fuel + 1)
  rw [← hfuel] at hloop
  by_cases hmarker : marker <+: carried
  · obtain ⟨m, rest, rfl, hpre, hlt⟩ := hstart.resolve_left fun hnil => by
      rw [hnil] at hmarker
      exact absurd hmarker (by decide)
    obtain ⟨ctx', hround, hprogress'⟩ := extractRound_start (hrest m (List.mem_cons_self ..))
      hbehind hpre hlt hmarker hdelivered
    refine ⟨ctx', ?_, hprogress'⟩
    rw [finishPacket, hloop, hbehind, markerAt_of_isPrefix hmarker, extractLoop, hround]
    cases fuel <;> rfl
  · obtain ⟨ctx', hfinish, hprogress'⟩ := finishPacket_short hbehind
      (htail.resolve_left hmarker) (hstart.storable hrest) hdelivered
    refine ⟨ctx', ?_, hprogress'⟩
    have hnone : markerAt packet.data (pre ++ encodeAll ms).length = none := by
      rw [markerAt, hbehind, List.drop_left, if_neg hmarker]
    rw [hnone] at hloop
    rw [← hfinish, finishPacket, hloop, finishPacket]
    rfl

/-- A packet that starts at a message boundary. -/
theorem extract_boundary (hms : ∀ m ∈ ms, Extractable m) (hrest : ∀ m ∈ rest, Extractable m)
    (hne : packet.data ≠ []) (hdata : packet.data = encodeAll ms ++ carried)
    (hstart : IsStartOf carried rest) (hprogress : Progress ctx packet.streamId caused []) :
    ∃ ctx', vmarsExtractFixMessages ctx packet = .ok ctx' ∧
      Progress ctx' packet.streamId (caused ++ ms.flatMap FixMessage.events) carried := by
  by_cases hmarker : marker <+: packet.data
  · have hfinish := @finishPacket_messages _ _ _ _ _ [] _ hms hrest hdata hstart hprogress
    have hfirst : markerAt packet.data ([] : List UInt8).length = some 0 := if_pos hmarker
    rw [hfirst, ← hdata] at hfinish
    rw [extract_of_marker hmarker]
    exact hfinish
  · -- too short for a marker: all of it is stored
    obtain rfl : ms = [] := by
      cases ms with
      | nil => rfl
      | cons m ms =>
          refine (hmarker ?_).elim
          rw [hdata, encodeAll_cons, List.append_assoc]
          exact m.marker_isPrefix.trans (List.prefix_append _ _)
    rw [encodeAll_nil, List.nil_append] at hdata
    subst hdata
    have hlt := (hstart.marker_or_short hrest).resolve_left hmarker
    have hnone : firstOccurrence marker packet.data = none := by
      rw [firstOccurrence_eq_none marker_ne_nil]
      intro i hocc
      have := hocc.length_le marker_ne_nil
      rw [marker_length] at this
      omega
    obtain ⟨hsmall, hnul⟩ := hstart.storable hrest
    obtain ⟨ctx', hput, hfragment, hrb, -⟩ := @putFragment_eq _ ctx packet.streamId _ _
      (Nat.le_refl packet.data.length) (Nat.le_of_lt hsmall)
      (by rw [List.take_length]; exact hnul)
    rw [List.take_length] at hfragment
    refine ⟨ctx', ?_, ⟨?_, carries_of_fragment hne hfragment⟩⟩
    · have hlead : leadingFragment packet ctx packet.data.length = .ok ctx' := by
        rw [leadingFragment, carries_nil.mp hprogress.carries]
        simp only [matcher_len, if_pos hlt, hput]
      rw [extract_of_lead hnone (by simp), Option.getD_none, hlead, ok_bind, Nat.sub_self]
      rfl
    · rw [hrb, hprogress.events_eq]
      exact (List.append_nil _).symm

end Boundary

/-! ## From the middle of a message on -/

@[simp] theorem removeFragment_rb {R : Type} (ctx : CaptureContext R) (streamId : Ipv4Stream) :
    (removeFragment ctx streamId).rb = ctx.rb := by
  unfold removeFragment
  split <;> rfl

section Inside

variable {ctx : CaptureContext (List FixMessageSummary)} {packet : Packet}
  {caused : List (Int × List UInt8)} {m : FixMessage} {carried missing behind : List UInt8}

/-- The missing bytes complete the message: it is delivered and nothing is left. -/
theorem leadingFragment_complete (hm : Extractable m) (hne : carried ≠ [])
    (hdata : packet.data = missing ++ behind) (hwhole : carried ++ missing = m.encode)
    (hprogress : Progress ctx packet.streamId caused carried) :
    ∃ ctx', leadingFragment packet ctx missing.length = .ok ctx' ∧
      Progress ctx' packet.streamId (caused ++ m.events) [] := by
  obtain ⟨fragment, hget, rfl⟩ := hprogress.carries.fragment hne
  have hsmall := hm.length_lt
  have hnul : (0 : UInt8) ∉ missing := fun hmem =>
    hm.nul_free (hwhole ▸ List.mem_append_right _ hmem)
  have htake : packet.data.take missing.length = missing := by rw [hdata, List.take_left]
  have hroom : fragment.s.length + missing.length < fragmentCapacity := by
    rwa [← List.length_append, hwhole]
  obtain ⟨ctx₁, hstore, hlead⟩ := leadingFragment_append hget (by rw [hdata]; simp) hroom
  rw [htake, ncopy_of_nul_free hnul] at hstore hlead
  obtain ⟨-, -, hrb, -, -⟩ := storeFragment_ok hstore
  have hfit : m.encode.length ≤ intMax := by
    unfold intMax
    unfold fragmentCapacity maxFragmentTotalSize at hsmall
    omega
  have hparse := @tryParse_message _ m ctx₁ [] _ (Nat.le_refl _) (by simp) hfit
  rw [List.append_nil] at hparse
  rw [hwhole, hparse] at hlead
  simp only [ok_bind, if_true, process_eq, ne_eq, reduceCtorEq, not_false_eq_true] at hlead
  refine ⟨_, hlead, ⟨?_, carries_nil.mpr ?_⟩⟩
  · rw [removeFragment_rb, deliver_events, hrb, hprogress.events_eq]
  · rw [getFragment_remove, if_pos rfl]

/-- The whole packet still does not complete the message. -/
theorem leadingFragment_start (hm : Extractable m) (hne : carried ≠ [])
    (hpre : carried ++ packet.data <+: m.encode)
    (hlt : (carried ++ packet.data).length < m.encode.length)
    (hprogress : Progress ctx packet.streamId caused carried) :
    ∃ ctx', leadingFragment packet ctx packet.data.length = .ok ctx' ∧
      Progress ctx' packet.streamId caused (carried ++ packet.data) := by
  obtain ⟨fragment, hget, rfl⟩ := hprogress.carries.fragment hne
  have hsmall := hm.length_lt
  have hnul : (0 : UInt8) ∉ packet.data := fun hmem =>
    hm.nul_free (hpre.subset (List.mem_append_right _ hmem))
  have hroom : fragment.s.length + packet.data.length < fragmentCapacity := by
    rw [← List.length_append]
    exact Nat.lt_trans hlt hsmall
  obtain ⟨ctx₁, hstore, hlead⟩ := leadingFragment_append hget (Nat.le_refl _) hroom
  rw [List.take_length, ncopy_of_nul_free hnul] at hstore hlead
  obtain ⟨hfragment, -, hrb, -, -⟩ := storeFragment_ok hstore
  have hfit : m.encode.length ≤ intMax := by
    unfold intMax
    unfold fragmentCapacity maxFragmentTotalSize at hsmall
    omega
  have htake : (fragment.s ++ packet.data).take (fragment.s ++ packet.data).length =
      m.encode.take (fragment.s ++ packet.data).length := by
    rw [List.take_length]
    exact List.prefix_iff_eq_take.mp hpre
  rw [tryParse_incomplete m hlt (Nat.le_refl _) htake hfit] at hlead
  simp only [ok_bind, if_false, reduceCtorEq, ne_eq, not_true_eq_false] at hlead
  refine ⟨_, hlead, ⟨hrb ▸ hprogress.events_eq, carries_of_fragment ?_ hfragment⟩⟩
  exact List.append_ne_nil_of_left_ne_nil hne _

/-- No marker starts in the middle of a message. -/
theorem Extractable.not_occursAt_inside {part : List UInt8} (hm : Extractable m)
    (hne : carried ≠ [])
    (hpre : carried ++ part <+: m.encode) (i : Nat) : ¬ OccursAt marker part i := by
  intro hocc
  obtain ⟨behind, hbehind⟩ := hpre
  have hwhole : OccursAt marker m.encode (carried.length + i) := by
    rw [← hbehind, List.append_assoc, occursAt_append_right]
    exact hocc.append_right
  have hzero := (hm.onlyAtStart _).mp hwhole
  have hpos := List.length_pos_iff.mpr hne
  omega

/-- A packet that ends inside the message of the fragment, or right behind it. -/
theorem extract_inside (hm : Extractable m) (hne : carried ≠ [])
    (hpre : carried ++ packet.data <+: m.encode)
    (hprogress : Progress ctx packet.streamId caused carried) :
    ∃ ctx', vmarsExtractFixMessages ctx packet = .ok ctx' ∧
      if (carried ++ packet.data).length < m.encode.length then
        Progress ctx' packet.streamId caused (carried ++ packet.data)
      else Progress ctx' packet.streamId (caused ++ m.events) [] := by
  have hnone : firstOccurrence marker packet.data = none :=
    (firstOccurrence_eq_none marker_ne_nil).mpr (hm.not_occursAt_inside hne hpre)
  have hextract : ∀ ctx', leadingFragment packet ctx packet.data.length = .ok ctx' →
      vmarsExtractFixMessages ctx packet = .ok ctx' := by
    intro ctx' hlead
    rw [extract_of_lead hnone (by simp), Option.getD_none, hlead, ok_bind, Nat.sub_self]
    rfl
  split
  · next hlt =>
    obtain ⟨ctx', hlead, hprogress'⟩ := leadingFragment_start hm hne hpre hlt hprogress
    exact ⟨ctx', hextract ctx' hlead, hprogress'⟩
  · next hge =>
    have hwhole : carried ++ packet.data = m.encode :=
      hpre.eq_of_length (Nat.le_antisymm hpre.length_le (Nat.le_of_not_lt hge))
    obtain ⟨ctx', hlead, hprogress'⟩ := leadingFragment_complete hm hne
      (List.append_nil _).symm hwhole hprogress
    exact ⟨ctx', hextract ctx' hlead, hprogress'⟩

/-- A packet that completes the message of the fragment and shows the marker of
the next one. -/
theorem extract_across {ms rest : List FixMessage} {carried' : List UInt8} (hm : Extractable m)
    (hms : ∀ m ∈ ms, Extractable m) (hrest : ∀ m ∈ rest, Extractable m) (hne : carried ≠ [])
    (hdata : packet.data = missing ++ behind) (hwhole : carried ++ missing = m.encode)
    (hmissing : missing ≠ []) (hmarker : marker <+: behind)
    (hbehind : behind = encodeAll ms ++ carried') (hstart : IsStartOf carried' rest)
    (hprogress : Progress ctx packet.streamId caused carried) :
    ∃ ctx', vmarsExtractFixMessages ctx packet = .ok ctx' ∧
      Progress ctx' packet.streamId (caused ++ m.events ++ ms.flatMap FixMessage.events)
        carried' := by
  have hsoh : missing.getLast? = some SOH := by
    have := m.encode_getLast?
    rwa [← hwhole, List.getLast?_append, List.getLast?_eq_some_getLast hmissing,
      Option.some_or, ← List.getLast?_eq_some_getLast hmissing] at this
  have hfirst : firstOccurrence marker packet.data = some missing.length := by
    rw [firstOccurrence_eq_some marker_ne_nil, hdata]
    refine ⟨(occursAt_append_right (k := 0)).mpr (occursAt_zero.mpr hmarker), fun i hi hocc => ?_⟩
    have hinside := hocc.of_append marker_no_soh hsoh hi
    exact hm.not_occursAt_inside hne (hwhole ▸ List.prefix_refl _) i hinside
  obtain ⟨ctx₁, hlead, hprogress₁⟩ := leadingFragment_complete hm hne hdata hwhole hprogress
  obtain ⟨ctx', hfinish, hprogress'⟩ := @finishPacket_messages _ _ _ _ _ missing _ hms hrest
    (by rw [hdata, hbehind]) hstart hprogress₁
  refine ⟨ctx', ?_, hprogress'⟩
  have hpos := List.length_pos_iff.mpr hmissing
  have hlength : packet.data.length - missing.length = behind.length := by
    rw [hdata, List.length_append]
    omega
  have hthere : markerAt packet.data missing.length = some missing.length := by
    rw [hdata]
    exact markerAt_of_isPrefix hmarker
  rw [hthere, ← hbehind] at hfinish
  rw [extract_of_lead hfirst (by simp; omega), Option.getD_some, hlead, ok_bind, hlength, hfinish]

end Inside

/-! ## One packet -/

section Run

variable {ctx : CaptureContext (List FixMessageSummary)} {ms : List FixMessage}
  {caused : List (Int × List UInt8)} {carried : List UInt8}

/-- **Every packet makes progress**, unless it completes a message and ends with
one to seven bytes of the next one. -/
theorem extract_progress {packet : Packet} (hms : ∀ m ∈ ms, Extractable m)
    (hstart : IsStartOf carried ms) (hpacket : packet.data ≠ [])
    (hdata : carried ++ packet.data <+: encodeAll ms)
    (hcut : ∀ m rest, ms = m :: rest → carried ≠ [] →
      m.encode.length < (carried ++ packet.data).length →
      m.encode.length + 8 ≤ (carried ++ packet.data).length)
    (hprogress : Progress ctx packet.streamId caused carried) :
    ∃ ctx' done rest carried', vmarsExtractFixMessages ctx packet = .ok ctx' ∧
      ms = done ++ rest ∧ carried ++ packet.data = encodeAll done ++ carried' ∧
      IsStartOf carried' rest ∧
      Progress ctx' packet.streamId (caused ++ done.flatMap FixMessage.events) carried' := by
  rcases Classical.em (carried = []) with rfl | hne
  · obtain ⟨done, rest, carried', rfl, hsplit, hstart'⟩ := encodeAll_cut hdata
    obtain ⟨ctx', hrun, hprogress'⟩ := extract_boundary
      (fun m hm => hms m (List.mem_append_left _ hm))
      (fun m hm => hms m (List.mem_append_right _ hm)) hpacket hsplit hstart' hprogress
    exact ⟨ctx', done, rest, carried', hrun, rfl, hsplit, hstart', hprogress'⟩
  obtain ⟨m, ms, rfl, hpre, hlt⟩ := hstart.resolve_left hne
  have hm := hms m (List.mem_cons_self ..)
  rw [encodeAll_cons] at hdata
  by_cases hinside : (carried ++ packet.data).length ≤ m.encode.length
  · have hpart : carried ++ packet.data <+: m.encode :=
      List.prefix_of_prefix_length_le hdata (List.prefix_append _ _) hinside
    obtain ⟨ctx', hrun, hprogress'⟩ := extract_inside hm hne hpart hprogress
    split at hprogress'
    · next hshort =>
      refine ⟨ctx', [], m :: ms, carried ++ packet.data, hrun, rfl, rfl,
        .inr ⟨m, ms, rfl, hpart, hshort⟩, ?_⟩
      rwa [List.flatMap_nil, List.append_nil]
    · next hge =>
      have hwhole : carried ++ packet.data = m.encode :=
        hpart.eq_of_length (Nat.le_antisymm hinside (Nat.le_of_not_lt hge))
      refine ⟨ctx', [m], ms, [], hrun, rfl, by simp [hwhole, encodeAll], .inl rfl, ?_⟩
      rwa [List.flatMap_singleton]
  · -- the packet goes on behind the message
    have hlong := hcut m ms rfl hne (Nat.lt_of_not_le hinside)
    obtain ⟨missing, hwhole⟩ := hpre
    have hover : missing <+: packet.data := by
      have hm' : carried ++ missing <+: carried ++ packet.data := by
        rw [hwhole]
        exact List.prefix_of_prefix_length_le (List.prefix_append _ _) hdata
          (Nat.le_of_not_le hinside)
      exact (List.prefix_append_right_inj _).mp hm'
    obtain ⟨behind, hparts⟩ := hover
    rw [← hparts, ← List.append_assoc, hwhole, List.prefix_append_right_inj] at hdata
    rw [← hparts, ← List.append_assoc, hwhole, List.length_append] at hlong
    have hms' : ∀ m ∈ ms, Extractable m := fun m hm => hms m (List.mem_cons_of_mem _ hm)
    obtain ⟨done, rest, carried', rfl, hbehind, hstart'⟩ := encodeAll_cut hdata
    have hmarker : marker <+: behind := by
      cases done with
      | nil =>
          rw [hbehind, encodeAll_nil, List.nil_append] at hlong ⊢
          refine (hstart'.marker_or_short hms').resolve_right ?_
          omega
      | cons m' done =>
          rw [hbehind, encodeAll_cons, List.append_assoc]
          exact m'.marker_isPrefix.trans (List.prefix_append _ _)
    have hmissing : missing ≠ [] := by
      rintro rfl
      rw [List.append_nil] at hwhole
      rw [hwhole] at hlt
      exact Nat.lt_irrefl _ hlt
    obtain ⟨ctx', hrun, hprogress'⟩ := extract_across hm
      (fun m hm => hms' m (List.mem_append_left _ hm))
      (fun m hm => hms' m (List.mem_append_right _ hm)) hne hparts.symm hwhole hmissing hmarker
      hbehind hstart' hprogress
    refine ⟨ctx', m :: done, rest, carried', hrun, rfl, ?_, hstart', ?_⟩
    · rw [← hparts, ← List.append_assoc, hwhole, hbehind, encodeAll_cons, List.append_assoc]
    · rwa [List.flatMap_cons, ← List.append_assoc]

/-! ## All packets -/

/-- The number of bytes in the first `i` packets. -/
def sentLength (packets : List Packet) (i : Nat) : Nat :=
  ((packets.take i).flatMap Packet.data).length

/-- The number of bytes of the first `j` messages. -/
def messageEnd (ms : List FixMessage) (j : Nat) : Nat := (encodeAll (ms.take j)).length

/-- No packet that starts inside a message ends one to seven bytes behind it. -/
def CutsSafe (ms : List FixMessage) (packets : List Packet) : Prop :=
  ∀ i < packets.length, ∀ j < ms.length,
    messageEnd ms j < sentLength packets i → sentLength packets i < messageEnd ms (j + 1) →
    messageEnd ms (j + 1) < sentLength packets (i + 1) →
    messageEnd ms (j + 1) + 8 ≤ sentLength packets (i + 1)

instance (ms : List FixMessage) (packets : List Packet) : Decidable (CutsSafe ms packets) :=
  inferInstanceAs (Decidable (∀ i < packets.length, ∀ j < ms.length, _))

/-- The rest of a run, from any point between two packets. -/
theorem extractAll_progress {streamId : Ipv4Stream} {before packets : List Packet}
    {done rest : List FixMessage} (hms : ∀ m ∈ done ++ rest, Extractable m)
    (hstream : ∀ packet ∈ packets, packet.streamId = streamId)
    (hpackets : ∀ packet ∈ packets, packet.data ≠ [])
    (hcuts : CutsSafe (done ++ rest) (before ++ packets))
    (hsent : before.flatMap Packet.data = encodeAll done ++ carried)
    (hleft : carried ++ packets.flatMap Packet.data = encodeAll rest)
    (hstart : IsStartOf carried rest)
    (hprogress : Progress ctx streamId (caused ++ done.flatMap FixMessage.events) carried) :
    ∃ ctx', extractAll ctx packets = .ok ctx' ∧
      Progress ctx' streamId (caused ++ (done ++ rest).flatMap FixMessage.events) [] := by
  induction packets generalizing ctx before done rest carried with
  | nil =>
      -- nothing is carried at the end, so every message is complete
      rw [List.flatMap_nil, List.append_nil] at hleft
      obtain rfl : rest = [] := by
        rcases hstart with rfl | ⟨m, rest, rfl, -, hlt⟩
        · cases rest with
          | nil => rfl
          | cons m rest =>
              have hlen := m.encode_length_ge
              have := congrArg List.length hleft
              rw [encodeAll_cons, List.length_append, List.length_nil] at this
              omega
        · have := congrArg List.length hleft
          rw [encodeAll_cons, List.length_append] at this
          omega
      obtain rfl : carried = [] := hleft
      exact ⟨ctx, rfl, by rwa [List.append_nil]⟩
  | cons packet packets ih =>
      obtain rfl := hstream packet (List.mem_cons_self ..)
      rw [List.flatMap_cons, ← List.append_assoc] at hleft
      obtain ⟨ctx₁, now, rest', carried', hrun, rfl, hsplit, hstart', hprogress'⟩ :=
        extract_progress (fun m hm => hms m (List.mem_append_right _ hm)) hstart
          (hpackets packet (List.mem_cons_self ..)) ⟨_, hleft⟩
          (fun m rest' hrest hne hover => by
            have hat := hcuts before.length (by simp) done.length (by rw [hrest]; simp)
            have hlt : carried.length < m.encode.length := by
              obtain ⟨m', _, heq, -, hlt⟩ := hstart.resolve_left hne
              rw [hrest] at heq
              cases heq
              exact hlt
            have hpos := List.length_pos_iff.mpr hne
            rw [hrest] at hat
            simp only [messageEnd, sentLength, List.take_left, List.take_length_add_append,
              List.take_succ_cons, List.take_zero, List.flatMap_append, List.flatMap_singleton,
              hsent, encodeAll_append, encodeAll_cons, encodeAll_nil, List.append_nil,
              List.length_append] at hat hover ⊢
            omega) hprogress
      have hleft' : carried' ++ packets.flatMap Packet.data = encodeAll rest' := by
        rw [hsplit, encodeAll_append, List.append_assoc] at hleft
        exact List.append_cancel_left hleft
      have hrest := @ih _ _ (before ++ [packet]) (done ++ now) rest'
        (by rwa [List.append_assoc]) (fun p hp => hstream p (List.mem_cons_of_mem _ hp))
        (fun p hp => hpackets p (List.mem_cons_of_mem _ hp))
        (by rwa [List.append_assoc, List.append_assoc])
        (by rw [List.flatMap_append, List.flatMap_singleton, hsent, List.append_assoc, hsplit,
          encodeAll_append, List.append_assoc])
        hleft' hstart' (by rwa [List.flatMap_append, ← List.append_assoc])
      obtain ⟨ctx', hall, hprogress''⟩ := hrest
      refine ⟨ctx', ?_, by rwa [List.append_assoc] at hprogress''⟩
      rw [extractAll, hrun, ok_bind, hall]

/-- Messages fed one by one are delivered one by one. -/
theorem extractAll_alone {streamId : Ipv4Stream} {alone : List Packet}
    (hms : ∀ m ∈ ms, Extractable m)
    (hstream : ∀ packet ∈ alone, packet.streamId = streamId)
    (hdata : alone.map Packet.data = ms.map FixMessage.encode)
    (hprogress : Progress ctx streamId caused []) :
    ∃ ctx', extractAll ctx alone = .ok ctx' ∧
      Progress ctx' streamId (caused ++ ms.flatMap FixMessage.events) [] := by
  induction ms generalizing ctx caused alone with
  | nil =>
      obtain rfl := List.map_eq_nil_iff.mp hdata
      exact ⟨ctx, rfl, by rwa [List.flatMap_nil, List.append_nil]⟩
  | cons m ms ih =>
      obtain ⟨packet, alone, rfl, hpacket, halone⟩ := List.map_eq_cons_iff.mp hdata
      obtain rfl := hstream packet (List.mem_cons_self ..)
      have hlen := m.encode_length_ge
      obtain ⟨ctx₁, hrun, hprogress₁⟩ := @extract_boundary _ packet _ [m] [] []
        (fun m' hm' => hms m' (by simpa using Or.inl (by simpa using hm')))
        (fun m hm => absurd hm List.not_mem_nil)
        (List.ne_nil_of_length_pos (by rw [hpacket]; omega)) (by rw [hpacket]; simp [encodeAll])
        (.inl rfl) hprogress
      obtain ⟨ctx', hall, hprogress'⟩ := ih (fun m hm => hms m (List.mem_cons_of_mem _ hm))
        (fun p hp => hstream p (List.mem_cons_of_mem _ hp)) halone hprogress₁
      refine ⟨ctx', by rw [extractAll, hrun, ok_bind, hall], ?_⟩
      rwa [List.flatMap_singleton, List.append_assoc, ← List.flatMap_cons] at hprogress'

end Run

/-- The two runs complete and publish the same events. -/
def SameEvents (ctx : CaptureContext (List FixMessageSummary)) (packets alone : List Packet) :
    Prop :=
  ∃ ctx₁ ctx₂, extractAll ctx packets = .ok ctx₁ ∧ extractAll ctx alone = .ok ctx₂ ∧
    events ctx₁.rb = events ctx₂.rb

/-- **Packets do not matter when the cuts are safe**: the concatenation of messages,
cut into packets, publishes the same events as the messages fed one by one. -/
theorem sameEvents_of_cutsSafe {ctx : CaptureContext (List FixMessageSummary)}
    {streamId : Ipv4Stream} {ms : List FixMessage} {packets alone : List Packet}
    (hms : ∀ m ∈ ms, Extractable m)
    (hstream : ∀ packet ∈ packets ++ alone, packet.streamId = streamId)
    (hpackets : ∀ packet ∈ packets, packet.data ≠ [])
    (hdata : packets.flatMap Packet.data = encodeAll ms)
    (halone : alone.map Packet.data = ms.map FixMessage.encode)
    (hfragment : getFragment ctx streamId = none) (hcuts : CutsSafe ms packets) :
    SameEvents ctx packets alone := by
  have hprogress : Progress ctx streamId (events ctx.rb) [] := ⟨rfl, carries_nil.mpr hfragment⟩
  obtain ⟨ctx₁, hrun₁, hprogress₁⟩ := @extractAll_progress _ _ _ _ [] _ [] ms hms
    (fun p hp => hstream p (List.mem_append_left _ hp)) hpackets hcuts rfl hdata (.inl rfl)
    (by rwa [List.flatMap_nil, List.append_nil])
  obtain ⟨ctx₂, hrun₂, hprogress₂⟩ := extractAll_alone hms
    (fun p hp => hstream p (List.mem_append_right _ hp)) halone hprogress
  exact ⟨ctx₁, ctx₂, hrun₁, hrun₂, hprogress₁.events_eq.trans hprogress₂.events_eq.symm⟩

/-- Two new orders in three packets, both cuts at least eight bytes into an order. -/
def safeCuts : List Packet :=
  [⟨exampleStream, 1, 2, newOrderExample.encode.take 10, newOrderExample_take_fits⟩,
    ⟨exampleStream, 1, 3, newOrderExample.encode.drop 10 ++ newOrderExample.encode.take 9,
      by decide⟩,
    ⟨exampleStream, 1, 4, newOrderExample.encode.drop 9, by decide⟩]

/-- The two orders, each in its own packet. -/
def aloneOrders : List Packet :=
  [⟨exampleStream, 1, 2, newOrderExample.encode, newOrderExample_fits⟩,
    ⟨exampleStream, 1, 3, newOrderExample.encode, newOrderExample_fits⟩]

/-- A new order can be framed wherever it is cut. -/
theorem newOrderExample_extractable : Extractable newOrderExample :=
  ⟨by decide, by decide, (onlyAtStart_iff marker_ne_nil).mpr (by decide)⟩

/-- Two orders, cut where both parts wait for more. -/
theorem sameEvents_of_cutsSafe_safeCuts :
    SameEvents { rb := [] } safeCuts aloneOrders :=
  @sameEvents_of_cutsSafe _ exampleStream [newOrderExample, newOrderExample] _ _
    (by simpa using newOrderExample_extractable) (by simp [safeCuts, aloneOrders]) (by decide)
    (by decide) (by decide) rfl (by decide)

/-- The second packet completes the first order and ends with three bytes of the
second. -/
def unsafeCuts : List Packet :=
  [⟨exampleStream, 1, 2, newOrderExample.encode.take 10, newOrderExample_take_fits⟩,
    ⟨exampleStream, 1, 3, newOrderExample.encode.drop 10 ++ newOrderExample.encode.take 3,
      by decide⟩,
    ⟨exampleStream, 1, 4, newOrderExample.encode.drop 3, by decide⟩]

/-- The second order is lost. -/
theorem not_sameEvents_unsafeCuts :
    unsafeCuts.flatMap Packet.data = encodeAll [newOrderExample, newOrderExample] ∧
      ¬ SameEvents { rb := [] } unsafeCuts aloneOrders := by
  refine ⟨by decide, ?_⟩
  rintro ⟨ctx₁, ctx₂, hrun₁, hrun₂, hsame⟩
  have hone : (extractAll { rb := [] } unsafeCuts).map (fun ctx => events ctx.rb) =
      .ok newOrderExample.events := by decide +kernel
  have htwo : (extractAll { rb := [] } aloneOrders).map (fun ctx => events ctx.rb) =
      .ok (newOrderExample.events ++ newOrderExample.events) := by decide +kernel
  rw [hrun₁] at hone
  rw [hrun₂] at htwo
  have hlength := congrArg List.length
    ((Except.ok.inj hone).symm.trans (hsame.trans (Except.ok.inj htwo)))
  revert hlength
  decide

end Vmars
