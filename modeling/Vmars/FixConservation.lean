import Vmars.FixRounds

/-!
# Where the bytes of a call go

A call that counts no error may still lose bytes: a completed fragment drops what
is behind its message, an append without room is refused, a message that ends
before the next marker leaves a gap, and a message that is too short in the middle
of a packet is overwritten or reordered.  `NothingDropped` is the condition on the
fragment and the packet under which none of these exits is taken.

A call that counts no error is read as its rounds, with no failed one among them.
`allAccounted_iff` is the result: the bytes are all accounted for exactly under the
condition.
-/

namespace Vmars

open CMemory Occurrence

/-! ## What the claim observes -/

section Observe

variable {R : Type}

/-- The bytes of the stored fragment, none without a fragment. -/
def storedBytes (ctx : CaptureContext R) (streamId : Ipv4Stream) : List UInt8 :=
  (fragmentBytes ctx streamId).getD []

/-- None of the three error counters moved. -/
def NoErrorCounted (ctx ctx' : CaptureContext R) : Prop :=
  ctx'.counters.invalidChecksums = ctx.counters.invalidChecksums ∧
    ctx'.counters.parsingErrors = ctx.counters.parsingErrors ∧
    ctx'.counters.corruptMessages = ctx.counters.corruptMessages

/-- The old fragment and the packet are the accepted messages and the new fragment. -/
def AllAccounted (ctx ctx' : CaptureContext R) (packet : Packet) : Prop :=
  ∃ accepted, ctx'.accepted = ctx.accepted ++ accepted ∧
    storedBytes ctx packet.streamId ++ packet.data =
      accepted.flatten ++ storedBytes ctx' packet.streamId

/-- Then no error was counted in all. -/
theorem NoErrorCounted.errors_eq {ctx ctx' : CaptureContext R} (h : NoErrorCounted ctx ctx') :
    ctx'.counters.errors = ctx.counters.errors := by
  obtain ⟨hchecksums, hparsing, hcorrupt⟩ := h
  rw [Counters.errors, hchecksums, hparsing, hcorrupt, Counters.errors]

end Observe

/-! ## The condition -/

/-- From a marker on, every message is accepted and reaches exactly to the next
marker, the last one to the end. -/
inductive ConsumedExactly : List UInt8 → Prop where
  | last {bytes : List UInt8} (hnext : nextMarker bytes = none)
      (h : Accepts bytes bytes.length bytes.length) : ConsumedExactly bytes
  | cons {bytes : List UInt8} {k : Nat} (hnext : nextMarker bytes = some k)
      (h : Accepts bytes k k) (rest : ConsumedExactly (bytes.drop k)) : ConsumedExactly bytes

/-- From a marker on and with nothing stored, no byte is dropped: every message but
the last reaches exactly to the next marker, and what the last one does not use, or
all of it when it is too short, can be stored.  (A message that is too short before
the last is stored out of order; `swapped` is the accident that the bytes are the
same in both orders.) -/
inductive KeptFrom : List UInt8 → Prop where
  | leftover {bytes : List UInt8} {n : Nat} (hnext : nextMarker bytes = none)
      (h : Accepts bytes bytes.length n) (hcopy : CopiesExactly (bytes.drop n)) : KeptFrom bytes
  | tooShort {bytes : List UInt8} (hnext : nextMarker bytes = none)
      (h : TooShort bytes bytes.length) (hcopy : CopiesExactly bytes) : KeptFrom bytes
  | cons {bytes : List UInt8} {k : Nat} (hnext : nextMarker bytes = some k)
      (h : Accepts bytes k k) (rest : KeptFrom (bytes.drop k)) : KeptFrom bytes
  | swapped {bytes : List UInt8} {k : Nat} (hnext : nextMarker bytes = some k)
      (h : TooShort bytes k) (rest : ConsumedExactly (bytes.drop k))
      (hswap : bytes = bytes.drop k ++ ncopy (bytes.take k)) : KeptFrom bytes

/-- The condition on the bytes before the first marker, which continue a fragment:
there is room, they complete its message without a byte too much and nothing is
dropped behind, or it is still too short and the packet has no marker.  (Without
room nothing may have come; behind a fragment that is still too short, the bytes
may be the same in both orders.) -/
def LeadKept (fragment : Fragment) (data : List UInt8) (first : Option Nat) : Prop :=
  let lead := data.take (first.getD data.length)
  let rest := data.drop (first.getD data.length)
  let s := fragment.s ++ ncopy lead
  if s.length < fragmentCapacity then
    Accepts s s.length s.length ∧ CopiesExactly lead ∧ (first = none ∨ KeptFrom rest) ∨
      TooShort s s.length ∧
        (first = none ∧ CopiesExactly lead ∨
          first ≠ none ∧ ConsumedExactly rest ∧ fragment.s ++ data = rest ++ s)
  else data = []

/-- **The condition**: with this fragment stored, a call for the data drops no byte. -/
def NothingDropped (fragment : Option Fragment) (data : List UInt8) : Prop :=
  let old := (fragment.map Fragment.s).getD []
  if firstOccurrence marker data = some 0 then
    old = [] ∧ KeptFrom data ∨ ConsumedExactly data ∧ old ++ data = data ++ old
  else
    match fragment with
    | none => data.length < 8 ∧ CopiesExactly data
    | some fragment => LeadKept fragment data (firstOccurrence marker data)

/-- A packet that starts with a marker drops nothing when its stream has no fragment and its
bytes are kept, or when it is consumed whole and the fragment that stays reads the same on
either side of it. -/
theorem nothingDropped_of_marker {fragment : Option Fragment} {data : List UInt8}
    (hfirst : firstOccurrence marker data = some 0) :
    NothingDropped fragment data ↔
      (fragment.map Fragment.s).getD [] = [] ∧ KeptFrom data ∨
        ConsumedExactly data ∧ (fragment.map Fragment.s).getD [] ++ data =
          data ++ (fragment.map Fragment.s).getD [] := by
  unfold NothingDropped
  simp only [hfirst, if_true]

/-- Without a fragment the bytes before the first marker are kept only in a short packet. -/
theorem nothingDropped_none {data : List UInt8} (hlead : firstOccurrence marker data ≠ some 0) :
    NothingDropped none data ↔ data.length < 8 ∧ CopiesExactly data := by
  unfold NothingDropped
  simp only [hlead, if_false]

/-- With one they must join it. -/
theorem nothingDropped_some {fragment : Fragment} {data : List UInt8}
    (hlead : firstOccurrence marker data ≠ some 0) :
    NothingDropped (some fragment) data ↔
      LeadKept fragment data (firstOccurrence marker data) := by
  unfold NothingDropped
  simp only [hlead, if_false]

/-! ## The rounds and the condition -/

section Rounds

variable {data : List UInt8} {c br failed left : Nat} {accepted : List (List UInt8)}
  {stored : Option (List UInt8)}

/-- Only messages that reach exactly from marker to marker use up everything. -/
theorem Rounds.consumedExactly (h : Rounds data c br accepted stored failed left)
    (hquiet : failed = 0) (hexact : c + br = data.length) (hpos : 0 < br)
    (hall : accepted.flatten.length = br) :
    ConsumedExactly (data.drop c) ∧ accepted.flatten = data.drop c := by
  induction h with
  | @lastAccepted c br n hnext haccepts =>
      have hbr : br = (data.drop c).length := by
        rw [List.length_drop]
        omega
      simp only [List.flatten_singleton, List.length_take] at hall ⊢
      have hle := haccepts.le
      obtain rfl : n = br := by omega
      refine ⟨.last hnext (by rwa [← hbr]), ?_⟩
      rw [hbr, List.take_length]
  | lastTooShort _ _ _ =>
      rw [List.flatten_nil, List.length_nil] at hall
      omega
  | lastFailed _ _ => cases hquiet
  | @accepted c br k n failed left accepted stored hnext haccepts hrest ih =>
      have hroom := (nextMarker_drop hnext).2.2
      have hle := haccepts.le
      have hshort := hrest.accepted_le
      simp only [List.flatten_cons, List.length_append, List.length_take, List.length_drop] at hall
      obtain rfl : n = k := by omega
      obtain ⟨hexactly, hflatten⟩ := ih hquiet (by omega) (by omega) (by omega)
      rw [← List.drop_drop] at hexactly hflatten
      refine ⟨.cons hnext haccepts hexactly, ?_⟩
      rw [List.flatten_cons, hflatten, List.take_append_drop]
  | tooShort hnext _ _ hrest _ =>
      obtain ⟨hk, -, hroom⟩ := nextMarker_drop hnext
      have hless := hrest.accepted_le
      omega
  | failed _ _ _ _ => cases hquiet

/-- The bytes of the stream in the end: those left over, the message that was too
short last, or still the old ones. -/
def finalBytes (data old : List UInt8) (stored : Option (List UInt8)) (left : Nat) :
    List UInt8 :=
  if left = 0 then stored.getD old else ncopy (data.drop (data.length - left))

/-- The bytes that are stored in the end. -/
theorem finallyStored_getD (data : List UInt8) (old stored : Option (List UInt8)) (left : Nat) :
    (finallyStored data old stored left).getD [] = finalBytes data (old.getD []) stored left := by
  unfold finallyStored finalBytes
  split
  · cases stored <;> rfl
  · rfl

/-- Bytes that were stored before the rounds are still there in the end only if
everything was accepted exactly. -/
theorem Rounds.eq_of_old (h : Rounds data c br accepted stored failed left)
    (hquiet : failed = 0) (hexact : c + br = data.length) (hbr : 0 < br)
    {old stale : List UInt8} (hne : old ≠ []) (hlength : old.length = stale.length)
    (heq : old ++ data.drop c = accepted.flatten ++ finalBytes data stale stored left) :
    ConsumedExactly (data.drop c) ∧ accepted.flatten = data.drop c ∧
      finalBytes data stale stored left = stale := by
  have hpos := List.length_pos_iff.mpr hne
  have hbalance := h.balance (by omega)
  have hlen := congrArg List.length heq
  simp only [List.length_append, List.length_drop] at hlen
  have hleft : left = 0 := by
    refine Classical.byContradiction fun hleft => ?_
    rw [finalBytes, if_neg hleft, ncopy_length, List.length_drop] at hlen
    omega
  rw [finalBytes, if_pos hleft] at hlen ⊢
  have hstored : stored = none := by
    cases stored with
    | none => rfl
    | some s =>
        simp only [Option.getD_some] at hbalance hlen
        omega
  rw [hstored, Option.getD_none] at hlen ⊢
  obtain ⟨hexactly, hflatten⟩ := h.consumedExactly hquiet hexact hbr (by omega)
  exact ⟨hexactly, hflatten, rfl⟩

theorem marker_nul_free : (0 : UInt8) ∉ marker := by decide

/-- What the rounds accept and leave stored starts with the marker. -/
theorem Rounds.marker_isPrefix (h : Rounds data c br accepted stored failed left)
    (hquiet : failed = 0) (hlo : data.length ≤ c + br) (hc : OccursAt marker data c)
    (old : List UInt8) : marker <+: accepted.flatten ++ finalBytes data old stored left := by
  have htake : ∀ {c len n}, OccursAt marker data c → Accepts (data.drop c) len n →
      marker <+: (data.drop c).take n := by
    intro c len n hc haccepts
    have hle := haccepts.le
    exact List.prefix_take_iff.mpr ⟨hc, by rw [marker_length]; omega⟩
  induction h generalizing old with
  | lastAccepted _ haccepts =>
      rw [List.flatten_singleton]
      exact (htake hc haccepts).trans (List.prefix_append _ _)
  | lastTooShort _ _ hcopy =>
      have hroom := hc.length_le marker_ne_nil
      exact strncpy_isPrefix hc marker_nul_free (by omega) hcopy
  | lastFailed _ _ => cases hquiet
  | accepted _ haccepts _ _ =>
      rw [List.flatten_cons, List.append_assoc]
      exact (htake hc haccepts).trans (List.prefix_append _ _)
  | @tooShort c br k failed left accepted stored copy hnext _ _ _ ih =>
      obtain ⟨-, hocc, hroom⟩ := nextMarker_drop hnext
      exact ih hquiet (by omega) hocc copy
  | failed _ _ _ _ => cases hquiet

/-- Messages that reach exactly from marker to marker are all accepted. -/
theorem Rounds.of_consumedExactly (h : Rounds data c br accepted stored failed left)
    (hexact : c + br = data.length) (hexactly : ConsumedExactly (data.drop c)) :
    accepted.flatten = data.drop c ∧ stored = none ∧ left = 0 := by
  have hbr : ∀ {c br}, c + br = data.length → 0 < br → (data.drop c).length = br := by
    intro c br hexact _
    rw [List.length_drop]
    omega
  have hlength : c ≤ data.length → (data.drop c).length = br := fun hle => by
    rw [List.length_drop]
    omega
  induction h with
  | lastAccepted hnone haccepts =>
      cases hexactly with
      | last _ haccepts' =>
          rw [hlength (by omega)] at haccepts'
          obtain rfl := haccepts.unique haccepts'
          rw [List.flatten_singleton, ← hlength (by omega), List.take_length]
          exact ⟨rfl, rfl, Nat.sub_self _⟩
      | cons hsome _ _ => rw [hnone] at hsome; cases hsome
  | lastTooShort hnone hshort _ =>
      cases hexactly with
      | last _ haccepts =>
          rw [hlength (by omega)] at haccepts
          exact (haccepts.not_tooShort hshort).elim
      | cons hsome _ _ => rw [hnone] at hsome; cases hsome
  | lastFailed hnone hfails =>
      cases hexactly with
      | last _ haccepts =>
          rw [hlength (by omega)] at haccepts
          exact (haccepts.not_fails hfails).elim
      | cons hsome _ _ => rw [hnone] at hsome; cases hsome
  | accepted hsome haccepts _ ih =>
      have hroom := (nextMarker_drop hsome).2.2
      cases hexactly with
      | last hnone _ => rw [hsome] at hnone; cases hnone
      | cons hsome' haccepts' hrest =>
          rw [hsome, Option.some.injEq] at hsome'
          subst hsome'
          obtain rfl := haccepts.unique haccepts'
          rw [List.drop_drop] at hrest
          have hle := haccepts.le
          obtain ⟨hflatten, hstored, hleft⟩ := ih (by omega) hrest
            (fun _ => by rw [List.length_drop]; omega)
          refine ⟨?_, hstored, hleft⟩
          rw [List.flatten_cons, hflatten, ← List.drop_drop, List.take_append_drop]
  | tooShort hsome hshort _ _ _ =>
      cases hexactly with
      | last hnone _ => rw [hsome] at hnone; cases hnone
      | cons hsome' haccepts' _ =>
          rw [hsome, Option.some.injEq] at hsome'
          subst hsome'
          exact (haccepts'.not_tooShort hshort).elim
  | failed hsome hfails _ _ =>
      cases hexactly with
      | last hnone _ => rw [hsome] at hnone; cases hnone
      | cons hsome' haccepts' _ =>
          rw [hsome, Option.some.injEq] at hsome'
          subst hsome'
          exact (haccepts'.not_fails hfails).elim

/-- A message that ends before the next marker is the last one, or bytes are lost:
behind the gap the accepted messages and the fragment start with a marker. -/
theorem no_gap {k n : Nat} {behind : List UInt8} (hnext : nextMarker (data.drop c) = some k)
    (hn : 8 ≤ n) (hmarker : marker <+: behind)
    (heq : data.drop c = (data.drop c).take n ++ behind) : k ≤ n := by
  refine Nat.le_of_not_lt fun hlt => ?_
  refine (nextMarker_spec hnext).2.2 n hn hlt ?_
  have hsplit : (data.drop c).take n ++ (data.drop c).drop n = (data.drop c).take n ++ behind := by
    rw [List.take_append_drop]
    exact heq
  rw [OccursAt, List.append_cancel_left hsplit]
  exact hmarker

/-- With nothing stored before, rounds that lose nothing meet the condition. -/
theorem Rounds.keptFrom (h : Rounds data c br accepted stored failed left)
    (hquiet : failed = 0) (hexact : c + br = data.length) (hc : OccursAt marker data c)
    (heq : data.drop c = accepted.flatten ++ finalBytes data [] stored left) :
    KeptFrom (data.drop c) := by
  induction h with
  | @lastAccepted c br n hnext haccepts =>
      have hle := haccepts.le
      have hbr : (data.drop c).length = br := by
        rw [List.length_drop]
        omega
      have hcopy : (data.drop c).drop n = finalBytes data [] none (br - n) := by
        rw [List.flatten_singleton] at heq
        refine @List.append_cancel_left _ ((data.drop c).take n) _ _ ?_
        rw [List.take_append_drop]
        exact heq
      refine .leftover hnext (by rwa [hbr]) ?_
      unfold finalBytes at hcopy
      split at hcopy
      · rw [hcopy]
        rfl
      · have hwhere : data.length - (br - n) = c + n := by omega
        rw [hwhere, ← List.drop_drop] at hcopy
        exact hcopy.symm
  | @lastTooShort c br copy hnext hshort hcopy =>
      have hroom := hc.length_le marker_ne_nil
      have hbr : (data.drop c).length = br := by
        rw [List.length_drop]
        omega
      have hself := strncpy_self (data.drop c)
      rw [hbr, hcopy] at hself
      obtain rfl := Except.ok.inj hself
      exact .tooShort hnext (by rwa [hbr]) heq.symm
  | lastFailed _ _ => cases hquiet
  | @accepted c br k n failed left accepted stored hnext haccepts hrest ih =>
      obtain ⟨-, hocc, hroom⟩ := nextMarker_drop hnext
      have hle := haccepts.le
      rw [List.flatten_cons, List.append_assoc] at heq
      have hmarker := hrest.marker_isPrefix hquiet (by omega) hocc []
      obtain rfl : n = k := by
        have := no_gap hnext (by omega) hmarker heq
        omega
      have heq' : data.drop (c + n) = accepted.flatten ++ finalBytes data [] stored left := by
        refine @List.append_cancel_left _ ((data.drop c).take n) _ _ ?_
        rw [← List.drop_drop, List.take_append_drop]
        exact heq
      have hkept := ih hquiet (by omega) hocc heq'
      rw [← List.drop_drop] at hkept
      exact .cons hnext haccepts hkept
  | @tooShort c br k failed left accepted stored copy hnext hshort hcopy hrest _ =>
      obtain ⟨hk, -, hroom⟩ := nextMarker_drop hnext
      have hin : k ≤ (data.drop c).length := by
        rw [List.length_drop]
        omega
      rw [strncpy_take hin] at hcopy
      obtain rfl := Except.ok.inj hcopy
      have hold : (data.drop c).take k ++ data.drop (c + k) =
          accepted.flatten ++ finalBytes data (ncopy ((data.drop c).take k)) stored left := by
        rw [← List.drop_drop, List.take_append_drop]
        exact heq
      obtain ⟨hexactly, hflatten, hstored⟩ := hrest.eq_of_old hquiet (by omega) (by omega)
        (List.ne_nil_of_length_pos (by rw [List.length_take]; omega)) (by simp) hold
      rw [hflatten, hstored, ← List.drop_drop, List.take_append_drop] at hold
      rw [← List.drop_drop] at hexactly
      exact .swapped hnext hshort hexactly hold
  | failed _ _ _ _ => cases hquiet

/-- With nothing stored before, the condition keeps every byte. -/
theorem Rounds.of_keptFrom (h : Rounds data c br accepted stored failed left)
    (hquiet : failed = 0) (hexact : c + br = data.length) (hc : c ≤ data.length)
    (hkept : KeptFrom (data.drop c)) :
    data.drop c = accepted.flatten ++ finalBytes data [] stored left := by
  have hbr : ∀ {c br}, c + br = data.length → c ≤ data.length → (data.drop c).length = br := by
    intro c br hexact _
    rw [List.length_drop]
    omega
  have hunique : ∀ {c k k'}, nextMarker (data.drop c) = some k →
      nextMarker (data.drop c) = some k' → k' = k := by
    intro c k k' hsome hsome'
    rw [hsome, Option.some.injEq] at hsome'
    exact hsome'.symm
  induction h with
  | @lastAccepted c br n hnone haccepts =>
      cases hkept with
      | leftover _ haccepts' hcopy =>
          rw [hbr hexact hc] at haccepts'
          obtain rfl := haccepts.unique haccepts'
          have hle := haccepts.le
          rw [List.flatten_singleton, finalBytes]
          split
          · have hall : n = (data.drop c).length := by rw [hbr hexact hc]; omega
            rw [hall, List.take_length]
            exact (List.append_nil _).symm
          · have hwhere : data.length - (br - n) = c + n := by omega
            rw [hwhere, ← List.drop_drop, hcopy, List.take_append_drop]
      | tooShort _ hshort _ =>
          rw [hbr hexact hc] at hshort
          exact (haccepts.not_tooShort hshort).elim
      | cons hsome _ _ => rw [hnone] at hsome; cases hsome
      | swapped hsome _ _ _ => rw [hnone] at hsome; cases hsome
  | @lastTooShort c br copy hnone hshort hcopy =>
      have hself := strncpy_self (data.drop c)
      rw [hbr hexact hc, hcopy] at hself
      obtain rfl := Except.ok.inj hself
      cases hkept with
      | leftover _ haccepts _ =>
          rw [hbr hexact hc] at haccepts
          exact (haccepts.not_tooShort hshort).elim
      | tooShort _ _ hcopies => exact hcopies.symm
      | cons hsome _ _ => rw [hnone] at hsome; cases hsome
      | swapped hsome _ _ _ => rw [hnone] at hsome; cases hsome
  | lastFailed _ _ => cases hquiet
  | @accepted c br k n failed left accepted stored hsome haccepts hrest ih =>
      have hroom := (nextMarker_drop hsome).2.2
      cases hkept with
      | leftover hnone _ _ => rw [hsome] at hnone; cases hnone
      | tooShort hnone _ _ => rw [hsome] at hnone; cases hnone
      | cons hsome' haccepts' hrest' =>
          obtain rfl := hunique hsome hsome'
          obtain rfl := haccepts.unique haccepts'
          have hle := haccepts.le
          rw [List.drop_drop] at hrest'
          rw [List.flatten_cons, List.append_assoc, ← ih hquiet (by omega) (by omega) hrest',
            ← List.drop_drop, List.take_append_drop]
      | swapped hsome' hshort _ _ =>
          obtain rfl := hunique hsome hsome'
          exact (haccepts.not_tooShort hshort).elim
  | @tooShort c br k failed left accepted stored copy hsome hshort hcopy hrest _ =>
      have hroom := (nextMarker_drop hsome).2.2
      cases hkept with
      | leftover hnone _ _ => rw [hsome] at hnone; cases hnone
      | tooShort hnone _ _ => rw [hsome] at hnone; cases hnone
      | cons hsome' haccepts _ =>
          obtain rfl := hunique hsome hsome'
          exact (haccepts.not_tooShort hshort).elim
      | swapped hsome' _ hexactly hswap =>
          obtain rfl := (hunique hsome hsome').symm
          have hin : k ≤ (data.drop c).length := by
            rw [List.length_drop]
            omega
          rw [strncpy_take hin] at hcopy
          obtain rfl := Except.ok.inj hcopy
          rw [List.drop_drop] at hexactly hswap
          obtain ⟨hflatten, rfl, rfl⟩ := hrest.of_consumedExactly (by omega) hexactly
          rw [hflatten]
          exact hswap
  | failed _ _ _ _ => cases hquiet

/-- The rounds bring no more bytes than there were. -/
theorem Rounds.total_le (h : Rounds data c br accepted stored failed left)
    (hexact : c + br = data.length) (old : List UInt8) :
    (accepted.flatten ++ finalBytes data old stored left).length ≤ br + old.length := by
  have hbalance := h.balance (by omega)
  rw [List.length_append, finalBytes]
  split
  · cases stored with
    | none => simp only [Option.getD_none, List.length_nil] at hbalance ⊢; omega
    | some s => simp only [Option.getD_some] at hbalance ⊢; omega
  · rw [ncopy_length, List.length_drop]
    omega

end Rounds

/-! ## The call -/

section Call

variable {R : Type} [RingBuffer R] {packet : Packet} {ctx ctx' : CaptureContext R}

omit [RingBuffer R] in
/-- The stored bytes are those of the fragment. -/
theorem storedBytes_of_getFragment {fragment : Fragment}
    (hget : getFragment ctx packet.streamId = some fragment) :
    storedBytes ctx packet.streamId = fragment.s := by
  rw [storedBytes, fragmentBytes, hget]
  rfl

omit [RingBuffer R] in
/-- What is stored in the end, from what the rounds did. -/
theorem storedBytes_finally {ctx₁ : CaptureContext R} {stored : Option (List UInt8)} {left : Nat}
    (h : fragmentBytes ctx' packet.streamId =
      finallyStored packet.data (fragmentBytes ctx₁ packet.streamId) stored left) :
    storedBytes ctx' packet.streamId =
      finalBytes packet.data (storedBytes ctx₁ packet.streamId) stored left := by
  rw [storedBytes, h, finallyStored_getD, storedBytes]

/-- A packet that starts with the marker. -/
theorem allAccounted_of_marker (hfirst : firstOccurrence marker packet.data = some 0)
    (hrun : vmarsExtractFixMessages ctx packet = .ok ctx') (hquiet : NoErrorCounted ctx ctx') :
    AllAccounted ctx ctx' packet ↔
      NothingDropped (getFragment ctx packet.streamId) packet.data := by
  have hc := ((firstOccurrence_eq_some marker_ne_nil).mp hfirst).1
  rw [extract_of_marker (occursAt_zero.mp hc)] at hrun
  obtain ⟨accepted, stored, failed, left, hrounds, haccepted, herrors, hfragment⟩ :=
    finishPacket_rounds (Nat.zero_le _) hrun
  have hstored := storedBytes_finally hfragment
  have hnone : failed = 0 := by
    have := hquiet.errors_eq
    omega
  have hexact : 0 + (packet.data.length - 0) = packet.data.length := by omega
  have hpos : 0 < packet.data.length - 0 := by
    have := hc.length_le marker_ne_nil
    rw [marker_length] at this
    omega
  have hdrop : packet.data.drop 0 = packet.data := List.drop_zero
  rw [nothingDropped_of_marker hfirst]
  have hold : ((getFragment ctx packet.streamId).map Fragment.s).getD [] =
      storedBytes ctx packet.streamId := rfl
  rw [hold]
  constructor
  · rintro ⟨accepted', haccepted', heq⟩
    rw [haccepted, List.append_cancel_left_eq] at haccepted'
    subst haccepted'
    rw [hstored] at heq
    by_cases hold : storedBytes ctx packet.streamId = []
    · rw [hold, List.nil_append] at heq
      have hkept := hrounds.keptFrom hnone hexact hc (by rw [hdrop]; exact heq)
      exact .inl ⟨hold, hdrop ▸ hkept⟩
    · obtain ⟨hexactly, hflatten, hfinal⟩ := hrounds.eq_of_old hnone hexact hpos hold rfl
        (by rw [hdrop]; exact heq)
      rw [hfinal, hflatten, hdrop] at heq
      exact .inr ⟨hdrop ▸ hexactly, heq⟩
  · rintro (⟨hold, hkept⟩ | ⟨hexactly, hswap⟩)
    · have hkeep := hrounds.of_keptFrom hnone hexact (Nat.zero_le _) (by rwa [hdrop])
      refine ⟨accepted, haccepted, ?_⟩
      rw [hstored, hold, List.nil_append, ← hkeep, hdrop]
    · obtain ⟨hflatten, rfl, rfl⟩ := hrounds.of_consumedExactly hexact (by rwa [hdrop])
      refine ⟨accepted, haccepted, ?_⟩
      rw [hflatten, hdrop, hstored]
      exact hswap

/-- A packet without a leading marker on a stream without a fragment. -/
theorem allAccounted_of_none {first : Option Nat}
    (hfirst : firstOccurrence marker packet.data = first) (hlead : first ≠ some 0)
    (hget : getFragment ctx packet.streamId = none)
    (hrun : vmarsExtractFixMessages ctx packet = .ok ctx') (hquiet : NoErrorCounted ctx ctx') :
    AllAccounted ctx ctx' packet ↔ packet.data.length < 8 ∧ CopiesExactly packet.data := by
  rw [extract_of_lead hfirst hlead, leadingFragment, hget] at hrun
  simp only [matcher_len] at hrun
  split at hrun
  · next hshort =>
    obtain rfl : first = none := by
      cases first with
      | none => rfl
      | some k =>
          have hroom := ((firstOccurrence_eq_some marker_ne_nil).mp hfirst).1.length_le
            marker_ne_nil
          rw [marker_length] at hroom
          omega
    obtain ⟨ctx₁, hput, hrun⟩ := bind_eq_ok.mp hrun
    rw [Option.getD_none, Nat.sub_self] at hrun
    obtain rfl : ctx₁ = ctx' := Except.ok.inj hrun
    obtain ⟨copy, hcopy, hfragment, -, -, -, haccepted⟩ := putFragment_ok hput
    rw [Int.toNat_natCast, strncpy_self] at hcopy
    obtain rfl := Except.ok.inj hcopy
    have hold : storedBytes ctx packet.streamId = [] := by
      rw [storedBytes, fragmentBytes, hget]
      rfl
    have hnew : storedBytes ctx₁ packet.streamId = ncopy packet.data := by
      rw [storedBytes, fragmentBytes_of_fragment hfragment, Option.getD_some]
    rw [and_iff_right hshort]
    constructor
    · rintro ⟨accepted, haccepted', heq⟩
      rw [haccepted] at haccepted'
      obtain rfl := List.self_eq_append_right.mp haccepted'
      rw [hold, hnew] at heq
      exact heq.symm
    · intro hcopies
      refine ⟨[], by rw [haccepted, List.append_nil], ?_⟩
      rw [hold, hnew]
      exact hcopies.symm
  · next hlong =>
    -- the call has counted an error before the rounds
    have hquiet := hquiet.errors_eq
    have hlater : ∀ {ctx₁ : CaptureContext R}, finishPacket packet ctx₁ first
        (packet.data.length - first.getD packet.data.length : Nat) = .ok ctx' →
        ctx₁.counters.errors ≤ ctx'.counters.errors := by
      intro ctx₁ hrest
      rcases finishPacket_lead hfirst hrest with
        ⟨-, rfl⟩ | ⟨k, accepted, stored, failed, left, -, -, -, -, herrors, -⟩
      · exact Int.le_refl _
      · omega
    have herrors := hlater hrun
    simp only [Counters.errors] at herrors hquiet
    omega

/-- Leading bytes that do not fit are dropped. -/
theorem allAccounted_of_noRoom {fragment : Fragment} {first : Option Nat}
    (hfirst : firstOccurrence marker packet.data = first) (hlead : first ≠ some 0)
    (hget : getFragment ctx packet.streamId = some fragment)
    (hroom : ¬ fragment.s.length + first.getD packet.data.length < fragmentCapacity)
    (hrun : vmarsExtractFixMessages ctx packet = .ok ctx') (hquiet : NoErrorCounted ctx ctx') :
    AllAccounted ctx ctx' packet ↔ packet.data = [] := by
  have hold := storedBytes_of_getFragment hget
  rw [extract_of_lead hfirst hlead, leadingFragment, hget] at hrun
  simp only [if_neg hroom, ok_bind] at hrun
  rcases finishPacket_lead hfirst hrun with ⟨-, rfl⟩ |
    ⟨k, accepted, stored, failed, left, rfl, hc, hrounds, haccepted, -, hfragment⟩
  · constructor
    · rintro ⟨accepted, haccepted, heq⟩
      obtain rfl := List.self_eq_append_right.mp haccepted
      exact List.append_right_eq_self.mp heq
    · intro hnil
      exact ⟨[], (List.append_nil _).symm, by rw [hnil, List.append_nil]; rfl⟩
  · -- the fragment and the rounds are too few bytes
    have hk : k ≠ 0 := fun hk => hlead (congrArg some hk)
    have hin := hc.length_le marker_ne_nil
    rw [marker_length] at hin
    have htotal := hrounds.total_le (by omega) fragment.s
    constructor
    · rintro ⟨accepted', haccepted', heq⟩
      rw [haccepted, List.append_cancel_left_eq] at haccepted'
      subst haccepted'
      rw [storedBytes_finally hfragment, hold] at heq
      have hlength := congrArg List.length heq
      rw [List.length_append] at hlength
      omega
    · intro hnil
      rw [hnil, List.length_nil] at hin
      omega

section Append

variable {old : List UInt8} (hold : storedBytes ctx packet.streamId = old)

omit [RingBuffer R] in
include hold in
/-- The whole packet continues the fragment. -/
theorem allAccounted_of_append (h : LeadOutcome packet ctx (old ++ ncopy packet.data) ctx')
    (hquiet : ctx'.counters.errors = ctx.counters.errors) :
    AllAccounted ctx ctx' packet ↔
      CopiesExactly packet.data ∧
        (Accepts (old ++ ncopy packet.data) (old ++ ncopy packet.data).length
            (old ++ ncopy packet.data).length ∨
          TooShort (old ++ ncopy packet.data) (old ++ ncopy packet.data).length) := by
  cases h with
  | @accepted n haccepts haccepted _ hfragment =>
      have hstored : storedBytes ctx' packet.streamId = [] := by
        rw [storedBytes, hfragment, Option.getD_none]
      constructor
      · rintro ⟨accepted', haccepted', heq⟩
        rw [haccepted, List.append_cancel_left_eq] at haccepted'
        subst haccepted'
        rw [hstored, hold, List.append_nil, List.flatten_singleton] at heq
        have hlen := congrArg List.length heq
        have hle := haccepts.le
        rw [List.length_take, List.length_append] at hlen
        rw [List.length_append, ncopy_length] at hlen hle
        obtain rfl : n = (old ++ ncopy packet.data).length := by
          rw [List.length_append, ncopy_length]
          omega
        rw [List.take_length, List.append_cancel_left_eq] at heq
        exact ⟨heq.symm, .inl haccepts⟩
      · rintro ⟨hcopies, hexactly | hshort⟩
        · obtain rfl := haccepts.unique hexactly
          refine ⟨_, haccepted, ?_⟩
          rw [hstored, hold, List.append_nil, List.flatten_singleton, List.take_length, hcopies]
        · exact (haccepts.not_tooShort hshort).elim
  | tooShort hshort haccepted _ hfragment =>
      have hstored : storedBytes ctx' packet.streamId = old ++ ncopy packet.data := by
        rw [storedBytes, hfragment, Option.getD_some]
      constructor
      · rintro ⟨accepted', haccepted', heq⟩
        rw [haccepted] at haccepted'
        obtain rfl := List.self_eq_append_right.mp haccepted'
        rw [hstored, hold, List.flatten_nil, List.nil_append, List.append_cancel_left_eq] at heq
        exact ⟨heq.symm, .inr hshort⟩
      · rintro ⟨hcopies, -⟩
        refine ⟨[], by rw [haccepted, List.append_nil], ?_⟩
        rw [hstored, hold, List.flatten_nil, List.nil_append, hcopies]
  | failed _ _ herrors _ => omega

variable {ctx₁ : CaptureContext R} {k failed left : Nat} {accepted : List (List UInt8)}
  {stored : Option (List UInt8)}

omit [RingBuffer R] in
include hold in
/-- The bytes before the first marker continue the fragment, and the rounds follow. -/
theorem allAccounted_of_append_rounds (hk : k ≠ 0) (hc : OccursAt marker packet.data k)
    (h : LeadOutcome packet ctx (old ++ ncopy (packet.data.take k)) ctx₁)
    (hrounds : Rounds packet.data k (packet.data.length - k) accepted stored failed left)
    (hquiet : ctx₁.counters.errors + failed = ctx.counters.errors)
    (haccepted : ctx'.accepted = ctx₁.accepted ++ accepted)
    (hfragment : fragmentBytes ctx' packet.streamId =
      finallyStored packet.data (fragmentBytes ctx₁ packet.streamId) stored left) :
    AllAccounted ctx ctx' packet ↔
      Accepts (old ++ ncopy (packet.data.take k)) (old ++ ncopy (packet.data.take k)).length
            (old ++ ncopy (packet.data.take k)).length ∧
          CopiesExactly (packet.data.take k) ∧ KeptFrom (packet.data.drop k) ∨
        TooShort (old ++ ncopy (packet.data.take k)) (old ++ ncopy (packet.data.take k)).length ∧
          ConsumedExactly (packet.data.drop k) ∧
            old ++ packet.data = packet.data.drop k ++ (old ++ ncopy (packet.data.take k)) := by
  have hin := hc.length_le marker_ne_nil
  rw [marker_length] at hin
  have hexact : k + (packet.data.length - k) = packet.data.length := by omega
  have hsplit : old ++ packet.data = old ++ packet.data.take k ++ packet.data.drop k := by
    rw [List.append_assoc, List.take_append_drop]
  have hlength : (old ++ packet.data.take k).length =
      (old ++ ncopy (packet.data.take k)).length := by
    rw [List.length_append, List.length_append, ncopy_length]
  have hnone : failed = 0 := by
    have := h.errors_le
    omega
  have hstored := storedBytes_finally hfragment
  cases h with
  | @accepted n haccepts haccepted₁ _ hfragment₁ =>
      have hstored₁ : storedBytes ctx₁ packet.streamId = [] := by
        rw [storedBytes, hfragment₁, Option.getD_none]
      rw [hstored₁] at hstored
      constructor
      · rintro ⟨accepted', haccepted', heq⟩
        rw [haccepted, haccepted₁, List.append_assoc, List.append_cancel_left_eq] at haccepted'
        subst haccepted'
        rw [hstored, hold, hsplit, List.flatten_append, List.flatten_singleton,
          List.append_assoc _ accepted.flatten] at heq
        -- the rounds bring no more than what is behind the lead
        have htotal := hrounds.total_le hexact []
        have hlen := congrArg List.length heq
        have hle := haccepts.le
        rw [List.length_append, @List.length_append _ (List.take _ _), List.length_drop,
          List.length_take, hlength] at hlen
        rw [List.length_nil] at htotal
        obtain rfl : n = (old ++ ncopy (packet.data.take k)).length := by omega
        rw [List.take_length, List.append_assoc, List.append_assoc, List.append_cancel_left_eq]
          at heq
        obtain ⟨hcopies, hkeep⟩ := List.append_inj heq (ncopy_length _).symm
        exact .inl ⟨haccepts, hcopies.symm, hrounds.keptFrom hnone hexact hc hkeep⟩
      · rintro (⟨hexactly, hcopies, hkept⟩ | ⟨hshort, -⟩)
        · obtain rfl := haccepts.unique hexactly
          have hkeep := hrounds.of_keptFrom hnone hexact (by omega) hkept
          refine ⟨_, by rw [haccepted, haccepted₁, List.append_assoc], ?_⟩
          rw [hstored, hold, hsplit, List.flatten_append, List.flatten_singleton,
            List.append_assoc _ accepted.flatten, ← hkeep, List.take_length, hcopies]
        · exact (haccepts.not_tooShort hshort).elim
  | tooShort hshort haccepted₁ _ hfragment₁ =>
      have hstored₁ : storedBytes ctx₁ packet.streamId = old ++ ncopy (packet.data.take k) := by
        rw [storedBytes, hfragment₁, Option.getD_some]
      rw [hstored₁] at hstored
      have hne : old ++ packet.data.take k ≠ [] := by
        refine List.ne_nil_of_length_pos ?_
        rw [List.length_append, List.length_take]
        omega
      constructor
      · rintro ⟨accepted', haccepted', heq⟩
        rw [haccepted, haccepted₁, List.append_cancel_left_eq] at haccepted'
        subst haccepted'
        rw [hstored, hold] at heq
        obtain ⟨hexactly, hflatten, hfinal⟩ := hrounds.eq_of_old hnone hexact (by omega) hne
          hlength (hsplit ▸ heq)
        rw [hflatten, hfinal] at heq
        exact .inr ⟨hshort, hexactly, heq⟩
      · rintro (⟨hexactly, -⟩ | ⟨-, hexactly, hswap⟩)
        · exact (hexactly.not_tooShort hshort).elim
        · obtain ⟨hflatten, rfl, rfl⟩ := hrounds.of_consumedExactly hexact hexactly
          refine ⟨accepted, by rw [haccepted, haccepted₁], ?_⟩
          rw [hstored, hold, hflatten, hswap]
          rfl
  | failed _ _ herrors _ => omega

end Append

/-- Leading bytes that fit continue the fragment. -/
theorem allAccounted_of_room {fragment : Fragment} {first : Option Nat}
    (hfirst : firstOccurrence marker packet.data = first) (hfirstNe : first ≠ some 0)
    (hget : getFragment ctx packet.streamId = some fragment)
    (hroom : fragment.s.length + first.getD packet.data.length < fragmentCapacity)
    (hrun : vmarsExtractFixMessages ctx packet = .ok ctx') (hquiet : NoErrorCounted ctx ctx') :
    AllAccounted ctx ctx' packet ↔ LeadKept fragment packet.data first := by
  have hold := storedBytes_of_getFragment hget
  have hn := firstOccurrence_getD_le hfirst
  have hfits : (fragment.s ++ ncopy (packet.data.take (first.getD packet.data.length))).length <
      fragmentCapacity := by
    rw [List.length_append, ncopy_length, List.length_take]
    omega
  rw [extract_of_lead hfirst hfirstNe] at hrun
  obtain ⟨ctx₁, happend, hrest⟩ := bind_eq_ok.mp hrun
  have hlead := leadingFragment_outcome hget hn hroom happend
  have hquiet := hquiet.errors_eq
  rw [LeadKept, if_pos hfits]
  rcases finishPacket_lead hfirst hrest with ⟨rfl, rfl⟩ |
    ⟨k, accepted, stored, failed, left, rfl, hc, hrounds, haccepted, herrors, hfragment⟩
  · simp only [Option.getD_none, List.take_length] at hlead ⊢
    rw [allAccounted_of_append hold hlead hquiet]
    simp only [true_or, and_true, ne_eq, not_true_eq_false, false_and, or_false, true_and]
    rw [and_comm, or_and_right]
  · have hk : k ≠ 0 := fun hk => hfirstNe (congrArg some hk)
    simp only [Option.getD_some] at hlead ⊢
    rw [allAccounted_of_append_rounds hold hk hc hlead hrounds (by omega) haccepted hfragment]
    simp only [reduceCtorEq, false_or, false_and, ne_eq, not_false_eq_true, true_and]

/-- **Where the bytes of a call go**: a call that returns and counts no error accounts
for every byte exactly when nothing is dropped. -/
theorem allAccounted_iff (hrun : vmarsExtractFixMessages ctx packet = .ok ctx')
    (hquiet : NoErrorCounted ctx ctx') :
    AllAccounted ctx ctx' packet ↔
      NothingDropped (getFragment ctx packet.streamId) packet.data := by
  by_cases hlead : firstOccurrence marker packet.data = some 0
  · exact allAccounted_of_marker hlead hrun hquiet
  cases hget : getFragment ctx packet.streamId with
  | none =>
      rw [nothingDropped_none hlead]
      exact allAccounted_of_none rfl hlead hget hrun hquiet
  | some fragment =>
      rw [nothingDropped_some hlead]
      by_cases hroom : fragment.s.length +
          (firstOccurrence marker packet.data).getD packet.data.length < fragmentCapacity
      · exact allAccounted_of_room rfl hlead hget hroom hrun hquiet
      · have hle := @firstOccurrence_getD_le packet.data _ rfl
        have hfits : ¬ (fragment.s ++ ncopy (packet.data.take
            ((firstOccurrence marker packet.data).getD packet.data.length))).length <
            fragmentCapacity := by
          rw [List.length_append, ncopy_length, List.length_take]
          omega
        rw [LeadKept, if_neg hfits]
        exact allAccounted_of_noRoom rfl hlead hget hroom hrun hquiet

end Call

/-- A new order and the first four bytes of the next message. -/
def orderAndStart : Packet :=
  ⟨exampleStream, 1, 2, newOrderExample.encode ++ ascii "8=FI", by decide⟩

/-- What the examples look at in a context. -/
def CaptureContext.observed {R : Type} (ctx : CaptureContext R) :
    Counters × List (List UInt8) × List UInt8 :=
  (ctx.counters, ctx.accepted, storedBytes ctx exampleStream)

/-- An order and the start of another one: the start is stored. -/
theorem allAccounted_iff_orderAndStart :
    ∃ ctx', vmarsExtractFixMessages { rb := ([] : List FixMessageSummary) } orderAndStart =
        .ok ctx' ∧
      AllAccounted { rb := [] } ctx' orderAndStart := by
  have hobserved : (vmarsExtractFixMessages { rb := ([] : List FixMessageSummary) }
      orderAndStart).map CaptureContext.observed =
      .ok ({ validMessages := 1, newOrderSingleCount := 1 }, [newOrderExample.encode],
        ascii "8=FI") := by decide +kernel
  cases hrun : vmarsExtractFixMessages { rb := ([] : List FixMessageSummary) } orderAndStart with
  | error fault => rw [hrun] at hobserved; cases hobserved
  | ok ctx' =>
      rw [hrun] at hobserved
      have hcounters := congrArg Prod.fst (Except.ok.inj hobserved)
      simp only [CaptureContext.observed] at hcounters
      have hquiet : NoErrorCounted { rb := [] } ctx' := by
        unfold NoErrorCounted
        rw [hcounters]
        exact ⟨rfl, rfl, rfl⟩
      refine ⟨ctx', rfl, (allAccounted_iff hrun hquiet).mpr ?_⟩
      refine (nothingDropped_of_marker (by decide)).mpr (.inl ⟨rfl, ?_⟩)
      exact .leftover (n := newOrderExample.encode.length) (by decide)
        ⟨_, @vmarsFixParseMsg_encode _ newOrderExample (ascii "8=FI") _ (by decide) (by decide)
          (by decide), rfl⟩ (by decide)

/-- A context whose stream has the first ten bytes of a new order stored. -/
def orderStartStored : CaptureContext (List FixMessageSummary) where
  rb := []
  state := some (Function.update (fun _ => none) exampleStream
    (some ⟨newOrderExample.encode.take 10, by decide⟩))

/-- The rest of the order, and three bytes of the next message. -/
def orderEndAndStart : Packet :=
  ⟨exampleStream, 1, 3, newOrderExample.encode.drop 10 ++ ascii "8=F", by decide⟩

/-- The order is accepted, no error is counted, and the three bytes are gone. -/
theorem not_allAccounted_orderEndAndStart :
    ∃ ctx', vmarsExtractFixMessages orderStartStored orderEndAndStart = .ok ctx' ∧
      NoErrorCounted orderStartStored ctx' ∧
      ¬ AllAccounted orderStartStored ctx' orderEndAndStart := by
  have hobserved : (vmarsExtractFixMessages orderStartStored orderEndAndStart).map
      CaptureContext.observed =
      .ok ({ validMessages := 1, newOrderSingleCount := 1 }, [newOrderExample.encode], []) := by
    decide +kernel
  cases hrun : vmarsExtractFixMessages orderStartStored orderEndAndStart with
  | error fault => rw [hrun] at hobserved; cases hobserved
  | ok ctx' =>
      rw [hrun] at hobserved
      simp only [Except.map, CaptureContext.observed, Except.ok.injEq, Prod.mk.injEq] at hobserved
      obtain ⟨hcounters, haccepted, hstored⟩ := hobserved
      refine ⟨ctx', rfl, ?_, ?_⟩
      · unfold NoErrorCounted
        rw [hcounters]
        exact ⟨rfl, rfl, rfl⟩
      · rintro ⟨accepted, haccepted', heq⟩
        rw [haccepted] at haccepted'
        obtain rfl : accepted = [newOrderExample.encode] := haccepted'.symm
        rw [show orderEndAndStart.streamId = exampleStream from rfl, hstored] at heq
        revert heq
        decide

end Vmars
