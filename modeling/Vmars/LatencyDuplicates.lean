import Vmars.LatencyHandler

/-!
# A message that is captured twice

The second copy of a message is ignored while the first one, or any message that
it does not complement, is in the table.  After the first copy has been matched
the table has no entry for the key, and the second copy is stored as if it were
new: it waits for the next message that complements it.

`duplicateHarmless_iff`: a duplicate changes nothing that is recorded, whatever
the times of the messages, exactly when its first copy was not matched or the
later messages of its key cannot be matched either with the stale copy or
without it.
-/

namespace Vmars

open CMemory KeyedMachine PendingSlot

/-- What a message is apart from its times. -/
def FixMessageSummary.shape (msg : FixMessageSummary) : List UInt8 × Int := (msg.key, msg.msgType)

/-- The same messages, at other times. -/
def SameShape (msgs msgs' : List FixMessageSummary) : Prop :=
  msgs.map FixMessageSummary.shape = msgs'.map FixMessageSummary.shape

/-- A second copy of the message leaves the recorded values as they are, whatever
the times of the messages. -/
def DuplicateHarmless (before : List FixMessageSummary) (msg : FixMessageSummary)
    (after : List FixMessageSummary) : Prop :=
  ∀ before' msg' after', SameShape before before' → msg.shape = msg'.shape →
    SameShape after after' →
    (calculateLatencies .init (before' ++ msg' :: msg' :: after')).histogram.Perm
      (calculateLatencies .init (before' ++ msg' :: after')).histogram

/-- The message is matched when it arrives. -/
def MatchedBy (st : LatencyState) (msg : FixMessageSummary) : Prop :=
  ∃ latencyRecord, st.latencyTable (cstr msg.key) = some latencyRecord ∧
    isComplement msg.msgType latencyRecord.msgType

/-- The types of the messages with a key, in order. -/
def typesOf (key : List UInt8) (msgs : List FixMessageSummary) : List Int :=
  (msgs.filter fun msg => cstr msg.key = key).map FixMessageSummary.msgType

/-- None of the types complements `type`, and none behind the first complements
the first. -/
def NeverMatched (type : Int) (types : List Int) : Prop :=
  (∀ later ∈ types, ¬ isComplement later type) ∧
    ∀ next rest, types = next :: rest → ∀ later ∈ rest, ¬ isComplement later next

/-! ## What does not depend on the times -/

/-- Messages of one shape have the same types under a key. -/
theorem typesOf_congr {msgs msgs' : List FixMessageSummary} (h : SameShape msgs msgs')
    (key : List UInt8) : typesOf key msgs = typesOf key msgs' := by
  have hshape : ∀ l : List FixMessageSummary, typesOf key l =
      ((l.map FixMessageSummary.shape).filter fun shape => cstr shape.1 = key).map Prod.snd :=
    fun l => by
      rw [List.filter_map, List.map_map]
      rfl
  rw [hshape, hshape, h]

/-- The types in the table, whatever their times. -/
def SameTypes (st st' : LatencyState) : Prop :=
  ∀ key, (st.latencyTable key).map LatencyRecord.msgType =
    (st'.latencyTable key).map LatencyRecord.msgType

/-- **The times do not matter** for what is stored and what is matched. -/
theorem SameTypes.step {st st' : LatencyState} (h : SameTypes st st') {msg msg' : FixMessageSummary}
    (hshape : msg.shape = msg'.shape) :
    SameTypes (calculateLatency st msg) (calculateLatency st' msg') := by
  obtain ⟨hkey, htype⟩ := Prod.mk.inj hshape
  intro key
  by_cases hk : cstr msg.key = key
  · subst hk
    have hslot := h (cstr msg.key)
    have hself' := calculateLatency_self st' msg'
    rw [← hkey] at hself'
    rw [calculateLatency_self, hself']
    cases hst : st.latencyTable (cstr msg.key) <;> cases hst' : st'.latencyTable (cstr msg.key) <;>
      rw [hst, hst'] at hslot
    case none.none => exact congrArg some htype
    case none.some => cases hslot
    case some.none => cases hslot
    case some.some r r' =>
      have hr : r.msgType = r'.msgType := Option.some.inj hslot
      by_cases hm : isComplement msg.msgType r.msgType
      · have hm' : isComplement msg'.msgType r'.msgType := by rwa [← htype, ← hr]
        rw [latencyMatcher.step_answered hm, latencyMatcher.step_answered hm']
      · have hm' : ¬ isComplement msg'.msgType r'.msgType := by rwa [← htype, ← hr]
        rw [latencyMatcher.step_ignored hm, latencyMatcher.step_ignored hm']
        exact hslot
  · have hk' : cstr msg'.key ≠ key := by rwa [← hkey]
    rw [calculateLatency_other st hk, calculateLatency_other st' hk']
    exact h key

/-- Nor do they in a run. -/
theorem SameTypes.run {st st' : LatencyState} (h : SameTypes st st')
    {msgs msgs' : List FixMessageSummary} (hshape : SameShape msgs msgs') :
    SameTypes (calculateLatencies st msgs) (calculateLatencies st' msgs') := by
  induction msgs generalizing st st' msgs' with
  | nil =>
      obtain rfl : msgs' = [] := List.map_eq_nil_iff.mp hshape.symm
      exact h
  | cons msg msgs ih =>
      cases msgs' with
      | nil => cases hshape
      | cons msg' msgs' =>
          obtain ⟨hmsg, hrest⟩ := List.cons.inj hshape
          exact ih (h.step hmsg) hrest

/-- Nor for whether a message is matched. -/
theorem SameTypes.matchedBy {st st' : LatencyState} (h : SameTypes st st')
    {msg msg' : FixMessageSummary} (hshape : msg.shape = msg'.shape) (hm : MatchedBy st msg) :
    MatchedBy st' msg' := by
  obtain ⟨hkey, htype⟩ := Prod.mk.inj hshape
  obtain ⟨r, hr, hcomp⟩ := hm
  have hslot := h (cstr msg.key)
  rw [hr, hkey] at hslot
  obtain ⟨r', hr', hrtype⟩ := Option.map_eq_some_iff.mp hslot.symm
  exact ⟨r', hr', by rwa [← htype, hrtype]⟩

/-! ## Harmless duplicates -/

/-- After a message that was not matched its entry is taken, and not by a message
that a second copy complements. -/
theorem calculateLatency_twice {st : LatencyState} {msg : FixMessageSummary}
    (h : ¬ MatchedBy st msg) :
    calculateLatency (calculateLatency st msg) msg = calculateLatency st msg := by
  cases hslot : st.latencyTable (cstr msg.key) with
  | none =>
      have hself := calculateLatency_self st msg
      rw [hslot] at hself
      exact calculateLatency_ignored hself (not_isComplement_self _)
  | some r =>
      have hr : ¬ isComplement msg.msgType r.msgType := fun hc => h ⟨r, hslot, hc⟩
      rw [calculateLatency_ignored hslot hr, calculateLatency_ignored hslot hr]

/-- A message that is matched leaves its key without an entry. -/
theorem MatchedBy.emptied {st : LatencyState} {msg : FixMessageSummary} (h : MatchedBy st msg) :
    (calculateLatency st msg).latencyTable (cstr msg.key) = none := by
  obtain ⟨r, hr, hcomp⟩ := h
  rw [calculateLatency_self, hr, latencyMatcher.step_answered hcomp]

/-- A message whose key has no entry is stored. -/
theorem calculateLatency_stored {st : LatencyState} {msg : FixMessageSummary}
    (h : st.latencyTable (cstr msg.key) = none) :
    (calculateLatency st msg).latencyTable (cstr msg.key) = some (.ofSummary msg) ∧
      (calculateLatency st msg).histogram = st.histogram := by
  constructor
  · rw [calculateLatency_self, h]
    rfl
  · unfold calculateLatency
    simp only [h]

/-- The messages with a key never match, neither from an empty entry nor with a
stale message there. -/
theorem cellRun_of_neverMatched {key : List UInt8} {msgs : List FixMessageSummary}
    {msg : FixMessageSummary} (h : NeverMatched msg.msgType (typesOf key msgs)) :
    (latencyMatcher.cellRun none (latencyMatcher.machine.of key msgs)).2 = [] ∧
      (latencyMatcher.cellRun (some (.ofSummary msg)) (latencyMatcher.machine.of key msgs)).2 =
        [] := by
  have htypes : typesOf key msgs =
      (latencyMatcher.machine.of key msgs).map FixMessageSummary.msgType := rfl
  rw [htypes] at h
  generalize latencyMatcher.machine.of key msgs = l at h
  have hblocked : ∀ (first : FixMessageSummary) (l : List FixMessageSummary),
      (∀ later ∈ l, ¬ isComplement later.msgType first.msgType) →
        (latencyMatcher.cellRun (some (.ofSummary first)) l).2 = [] := fun first l hl => by
    rw [latencyMatcher.cellRun_of_unanswered hl]
  refine ⟨?_, hblocked msg l fun later hlater => h.1 _ (List.mem_map_of_mem hlater)⟩
  cases l with
  | nil => rfl
  | cons next rest =>
      exact hblocked next rest fun later hlater => h.2 _ _ rfl _ (List.mem_map_of_mem hlater)

/-- Where the messages of a key never match, it does not matter whether a stale
message waits for them. -/
theorem values_of_neverMatched {st : LatencyState} {msg : FixMessageSummary}
    {msgs : List FixMessageSummary} (hslot : st.latencyTable (cstr msg.key) = none)
    (h : NeverMatched msg.msgType (typesOf (cstr msg.key) msgs)) :
    (calculateLatencies (calculateLatency st msg) msgs).histogram.Perm
      (calculateLatencies st msgs).histogram := by
  obtain ⟨hempty, hstale⟩ := cellRun_of_neverMatched h
  obtain ⟨hself, hhistogram⟩ := calculateLatency_stored hslot
  rw [calculateLatencies_eq (calculateLatency st msg), calculateLatencies_eq st, hhistogram]
  refine List.Perm.append_left _ (List.Perm.map _ (perm_of_outputsOf fun key => ?_))
  rw [Machine.run_outputs, Machine.run_outputs]
  by_cases hkey : key = cstr msg.key
  · subst hkey
    rw [hself, hslot]
    exact .map _ (.of_eq (hstale.trans hempty.symm))
  · rw [calculateLatency_other st (Ne.symm hkey)]

/-- The copy of a message that is not matched is ignored, and so is the copy of a
message whose key is never matched again. -/
theorem duplicate_harmless {before after : List FixMessageSummary} {msg : FixMessageSummary}
    (h : MatchedBy (calculateLatencies .init before) msg →
      NeverMatched msg.msgType (typesOf (cstr msg.key) after)) :
    (calculateLatencies .init (before ++ msg :: msg :: after)).histogram.Perm
      (calculateLatencies .init (before ++ msg :: after)).histogram := by
  simp only [calculateLatencies_append, calculateLatencies_cons]
  by_cases hm : MatchedBy (calculateLatencies .init before) msg
  · exact values_of_neverMatched hm.emptied (h hm)
  · rw [calculateLatency_twice hm]

/-! ## Harmful duplicates -/

/-- The message at time 0. -/
def FixMessageSummary.atZero (msg : FixMessageSummary) : FixMessageSummary :=
  { msg with tvSec := 0, tvNsec := 0 }

/-- The message a second later. -/
def FixMessageSummary.atOne (msg : FixMessageSummary) : FixMessageSummary :=
  { msg with tvSec := 1, tvNsec := 0 }

/-- With all times at zero the shape is the same. -/
theorem sameShape_atZero (msgs : List FixMessageSummary) :
    SameShape msgs (msgs.map FixMessageSummary.atZero) := by
  rw [SameShape, List.map_map]
  rfl

/-- A record of time 0. -/
def ZeroSlot (slot : Option LatencyRecord) : Prop :=
  ∀ r, slot = some r → r.tvSec = 0 ∧ r.tvNsec = 0

/-- Between messages of time 0 only 0 is recorded. -/
theorem run_atZero {table : List UInt8 → Option LatencyRecord}
    (htable : ∀ key, ZeroSlot (table key))
    (msgs : List FixMessageSummary) :
    (∀ key, ZeroSlot ((latencyMatcher.machine.run table (msgs.map .atZero)).1 key)) ∧
      ∀ out ∈ (latencyMatcher.machine.run table (msgs.map .atZero)).2, out.2 = 0 := by
  refine latencyMatcher.machine.run_invariant (P := ZeroSlot)
    (G := fun msg => msg.tvSec = 0 ∧ msg.tvNsec = 0) (Q := fun value => value = 0) ?_ htable ?_
  · intro slot msg hslot hmsg
    cases slot with
    | none =>
        refine ⟨?_, fun out hout => by cases hout⟩
        rintro r hr
        obtain rfl := Option.some.inj hr
        exact hmsg
    | some r =>
        obtain ⟨hsec, hnsec⟩ := hslot r rfl
        have hstep : latencyMatcher.machine.step (some r) msg =
            latencyMatcher.step (some r) msg := rfl
        rw [hstep]
        by_cases hm : latencyMatcher.answers msg r
        · rw [latencyMatcher.step_answered hm]
          refine ⟨fun r hr => (by cases hr), fun out hout => ?_⟩
          obtain rfl := List.mem_singleton.mp hout
          have hvalue : latencyMatcher.value r msg = latencyNsec r msg := rfl
          rw [hvalue, latencyNsec, hmsg.1, hmsg.2, hsec, hnsec]
          split <;> rfl
        · rw [latencyMatcher.step_ignored hm]
          exact ⟨hslot, fun out hout => by cases hout⟩
  · intro msg hmsg
    obtain ⟨msg', -, rfl⟩ := List.mem_map.mp hmsg
    exact ⟨rfl, rfl⟩

/-- The time between a message a second later and a message that complements it. -/
theorem latencyNsec_atOne_ne (msg later : FixMessageSummary) :
    latencyNsec (.ofSummary msg.atOne) later.atZero ≠ 0 := by
  have hone : diff 0 0 1 0 ≠ 0 := by decide
  have hminus : diff 1 0 0 0 ≠ 0 := by decide
  rw [latencyNsec]
  split
  · exact hone
  · exact hminus

theorem of_atZero (key : List UInt8) (msgs : List FixMessageSummary) :
    latencyMatcher.machine.of key (msgs.map .atZero) =
      (latencyMatcher.machine.of key msgs).map .atZero := List.filter_map ..

/-- A stale message that a later one complements is recorded with it. -/
theorem stale_recorded {table : List UInt8 → Option LatencyRecord} {msg : FixMessageSummary}
    {after : List FixMessageSummary}
    (hstale : table (cstr msg.key) = some (.ofSummary msg.atOne))
    (h : ∃ later ∈ typesOf (cstr msg.key) after, isComplement later msg.msgType) :
    ∃ out ∈ (latencyMatcher.machine.run table (after.map .atZero)).2, out.2 ≠ 0 := by
  obtain ⟨type, htype, hcomp⟩ := h
  obtain ⟨later, hlater, rfl⟩ := List.mem_map.mp htype
  have hanswered : ∃ m ∈ latencyMatcher.machine.of (cstr msg.key) (after.map .atZero),
      latencyMatcher.answers m (.ofSummary msg.atOne) := by
    rw [of_atZero]
    exact ⟨later.atZero, List.mem_map_of_mem hlater, hcomp⟩
  obtain ⟨answer, hanswer, -, hvalue⟩ := latencyMatcher.cellRun_answered hanswered
  rw [of_atZero] at hanswer
  obtain ⟨answer, -, rfl⟩ := List.mem_map.mp hanswer
  refine ⟨(cstr msg.key, latencyNsec (.ofSummary msg.atOne) answer.atZero), ?_,
    latencyNsec_atOne_ne msg answer⟩
  refine latencyMatcher.machine.mem_run_of_mem_cellRun ?_
  rw [hstale]
  exact hvalue

/-- A stale message that no later one complements keeps their pairs from being
recorded. -/
theorem stale_blocks {table table' : List UInt8 → Option LatencyRecord} {msg : FixMessageSummary}
    {after : List FixMessageSummary} (hframe : ∀ key, key ≠ cstr msg.key → table key = table' key)
    (hstale : table (cstr msg.key) = some (.ofSummary msg.atOne))
    (hslot : table' (cstr msg.key) = none)
    (hunanswered : ∀ later ∈ typesOf (cstr msg.key) after, ¬ isComplement later msg.msgType)
    {next : Int} {rest : List Int} (htypes : typesOf (cstr msg.key) after = next :: rest)
    (hpair : ∃ later ∈ rest, isComplement later next) :
    (latencyMatcher.machine.run table (after.map .atZero)).2.length <
      (latencyMatcher.machine.run table' (after.map .atZero)).2.length := by
  refine latencyMatcher.machine.run_length_lt hframe ?_
  rw [hstale, hslot, of_atZero]
  have hmap : typesOf (cstr msg.key) after =
      (latencyMatcher.machine.of (cstr msg.key) after).map FixMessageSummary.msgType := rfl
  rw [hmap] at hunanswered htypes
  generalize latencyMatcher.machine.of (cstr msg.key) after = l at hunanswered htypes
  have hnever : ∀ later ∈ l.map FixMessageSummary.atZero,
      ¬ latencyMatcher.answers later (.ofSummary msg.atOne) := fun later hlater => by
    obtain ⟨later', hmem, rfl⟩ := List.mem_map.mp hlater
    exact hunanswered later'.msgType (List.mem_map_of_mem hmem)
  have hnone : (latencyMatcher.machine.cellRun (some (.ofSummary msg.atOne)) (l.map .atZero)).2 =
      [] := congrArg Prod.snd (latencyMatcher.cellRun_of_unanswered hnever)
  rw [hnone, List.length_nil]
  cases l with
  | nil => cases htypes
  | cons first l =>
      obtain ⟨rfl, rfl⟩ := List.cons.inj htypes
      obtain ⟨type, htype, hcomp⟩ := hpair
      obtain ⟨later, hlater, rfl⟩ := List.mem_map.mp htype
      have hanswered : ∃ m ∈ l.map FixMessageSummary.atZero,
          latencyMatcher.answers m (.ofSummary first.atZero) :=
        ⟨later.atZero, List.mem_map_of_mem hlater, hcomp⟩
      obtain ⟨answer, -, -, hvalue⟩ := latencyMatcher.cellRun_answered hanswered
      exact List.length_pos_of_mem hvalue

/-- With the first copy matched, a second copy a second later than all else is
recorded with a later message, or keeps a later pair from being recorded. -/
theorem not_perm_of_stale {st : LatencyState} {msg : FixMessageSummary}
    {after : List FixMessageSummary} (hzero : ∀ key, ZeroSlot (st.latencyTable key))
    (hslot : st.latencyTable (cstr msg.key) = none)
    (h : ¬ NeverMatched msg.msgType (typesOf (cstr msg.key) after)) :
    ¬ (calculateLatencies (calculateLatency st msg.atOne) (after.map .atZero)).histogram.Perm
      (calculateLatencies st (after.map .atZero)).histogram := by
  obtain ⟨hself, hhistogram⟩ := @calculateLatency_stored _ msg.atOne hslot
  rw [calculateLatencies_eq (calculateLatency st msg.atOne), calculateLatencies_eq st, hhistogram,
    List.perm_append_left_iff]
  intro hperm
  by_cases hanswered : ∃ later ∈ typesOf (cstr msg.key) after, isComplement later msg.msgType
  · obtain ⟨out, hout, hne⟩ := stale_recorded hself hanswered
    have hmem := hperm.mem_iff.mp (List.mem_map_of_mem (f := Prod.snd) hout)
    obtain ⟨out', hout', heq⟩ := List.mem_map.mp hmem
    exact hne (heq.symm.trans ((run_atZero hzero after).2 out' hout'))
  · have hunanswered : ∀ later ∈ typesOf (cstr msg.key) after,
        ¬ isComplement later msg.msgType := fun later hlater hcomp =>
      hanswered ⟨later, hlater, hcomp⟩
    have hpair : ∃ next rest, typesOf (cstr msg.key) after = next :: rest ∧
        ∃ later ∈ rest, isComplement later next := by
      by_contra hno
      refine h ⟨hunanswered, fun next rest htypes later hlater hcomp => hno ?_⟩
      exact ⟨next, rest, htypes, later, hlater, hcomp⟩
    obtain ⟨next, rest, htypes, hpair⟩ := hpair
    have hlt := stale_blocks (fun key hkey => calculateLatency_other st (Ne.symm hkey)) hself hslot
      hunanswered htypes hpair
    have hlen := hperm.length_eq
    rw [List.length_map, List.length_map] at hlen
    exact absurd hlen (Nat.ne_of_lt hlt)

/-- **Duplicates.**  Directly after its first copy, a second copy of a message
changes nothing that is recorded, whatever the times of the messages, exactly when
the first copy is not matched, or afterwards no message of its key complements it
and none complements the next message of the key. -/
theorem duplicateHarmless_iff {before after : List FixMessageSummary} {msg : FixMessageSummary} :
    DuplicateHarmless before msg after ↔
      (MatchedBy (calculateLatencies .init before) msg →
        NeverMatched msg.msgType (typesOf (cstr msg.key) after)) := by
  constructor
  · intro hharmless hm
    by_contra hnever
    have hperm := hharmless _ msg.atOne _ (sameShape_atZero before) rfl (sameShape_atZero after)
    simp only [calculateLatencies_append, calculateLatencies_cons] at hperm
    have htypes : SameTypes (calculateLatencies .init before)
        (calculateLatencies .init (before.map .atZero)) :=
      SameTypes.run (fun _ => rfl) (sameShape_atZero before)
    have hm' := @SameTypes.matchedBy _ _ htypes msg msg.atOne rfl hm
    refine @not_perm_of_stale _ msg _ (fun key => ?_) hm'.emptied hnever hperm
    have hzero : ZeroSlot ((calculateLatencies .init (before.map .atZero)).latencyTable key) := by
      rw [calculateLatencies_eq]
      exact (run_atZero (fun _ r hr => by cases hr) before).1 key
    by_cases hkey : cstr msg.atOne.key = key
    · rw [← hkey, hm'.emptied]
      intro r hr
      cases hr
    · rw [calculateLatency_other _ hkey]
      exact hzero
  · intro hcond before' msg' after' hbefore hmsg hafter
    obtain ⟨hkey, htype⟩ := Prod.mk.inj hmsg
    refine duplicate_harmless fun hm => ?_
    have htypes : SameTypes (calculateLatencies .init before') (calculateLatencies .init before) :=
      SameTypes.run (fun _ => rfl) hbefore.symm
    have := hcond (htypes.matchedBy hmsg.symm hm)
    rwa [typesOf_congr hafter, hkey, htype] at this

/-- An order is answered twice, then sent and answered again: the second copy of the
response is taken for the response to the second order. -/
theorem not_duplicateHarmless_secondOrder :
    ¬ (calculateLatencies .init ([captured "a" 68 1] ++ captured "a" 56 2 :: captured "a" 56 2 ::
        [captured "a" 68 10, captured "a" 56 12])).histogram.Perm
      (calculateLatencies .init ([captured "a" 68 1] ++ captured "a" 56 2 ::
        [captured "a" 68 10, captured "a" 56 12])).histogram := by
  decide +kernel

end Vmars
