import Vmars.FixRounds

/-!
# Resynchronisation

A packet of bytes without a marker and messages behind them: whatever the stream
has stored, the messages are accepted.  The bytes before them belong to the stored
fragment, which they may complete, and the call can only fail there: the parser
leaves its buffer when the two together show a BodyLength that wraps to a negative
`int`.  `resynchronises_iff` says that this is the only way to fail.
-/

namespace Vmars

open CMemory Occurrence

section Resync

variable {R : Type} [RingBuffer R] {packet : Packet} {ctx ctx₁ : CaptureContext R}
  {g : List UInt8} {ms : List FixMessage}

/-- The call accepts all messages in order, before them at most the stored fragment
completed by `g`, and it stores none of their bytes. -/
def Resynchronises (ctx : CaptureContext R) (packet : Packet) (g : List UInt8)
    (ms : List FixMessage) : Prop :=
  ∃ ctx' extra, vmarsExtractFixMessages ctx packet = .ok ctx' ∧
    ctx'.accepted = ctx.accepted ++ extra ++ ms.map FixMessage.encode ∧
    (extra = [] ∨ ∃ fragment n, getFragment ctx packet.streamId = some fragment ∧
      extra = [(fragment.s ++ ncopy g).take n]) ∧
    (fragmentBytes ctx' packet.streamId = none ∨
      fragmentBytes ctx' packet.streamId = fragmentBytes ctx packet.streamId ∨
      ∃ fragment, getFragment ctx packet.streamId = some fragment ∧
        fragmentBytes ctx' packet.streamId = some (fragment.s ++ ncopy g))

/-- The messages behind the leading bytes are all delivered. -/
theorem resynchronises_of_lead {extra : List (List UInt8)} (hne : ms ≠ [])
    (hdata : packet.data = g ++ encodeAll ms) (honly : ∀ m ∈ ms, OnlyAtStart marker m.encode)
    (hcall : vmarsExtractFixMessages ctx packet =
      finishPacket packet ctx₁ (some g.length) (encodeAll ms).length)
    (haccepted : ctx₁.accepted = ctx.accepted ++ extra)
    (hextra : extra = [] ∨ ∃ fragment n, getFragment ctx packet.streamId = some fragment ∧
      extra = [(fragment.s ++ ncopy g).take n])
    (hfragment : fragmentBytes ctx₁ packet.streamId = none ∨
      fragmentBytes ctx₁ packet.streamId = fragmentBytes ctx packet.streamId ∨
      ∃ fragment, getFragment ctx packet.streamId = some fragment ∧
        fragmentBytes ctx₁ packet.streamId = some (fragment.s ++ ncopy g)) :
    Resynchronises ctx packet g ms := by
  obtain ⟨hstate, haccepted', -⟩ := deliverAll_frame ctx₁ packet.tvSec packet.tvNsec ms
  rw [finishPacket_encodeAll hne hdata honly] at hcall
  refine ⟨_, extra, hcall, by rw [haccepted', haccepted], hextra, ?_⟩
  rwa [fragmentBytes_congr (hstate packet.streamId)]

/-- The first marker is that of the first message. -/
theorem firstOccurrence_encodeAll (hne : ms ≠ []) (hdata : packet.data = g ++ encodeAll ms)
    (honly : ∀ m ∈ ms, OnlyAtStart marker m.encode) (hg : ∀ i, ¬ OccursAt marker g i) :
    firstOccurrence marker packet.data = some g.length := by
  rw [hdata]
  exact firstOccurrence_append marker_ne_nil marker_first_unique hg
    (marker_isPrefix_encodeAll hne honly)

/-- **Resynchronisation**: the messages of the packet are accepted unless the bytes
before them continue a fragment whose BodyLength is then out of range. -/
theorem resynchronises_iff (hne : ms ≠ []) (hdata : packet.data = g ++ encodeAll ms)
    (honly : ∀ m ∈ ms, OnlyAtStart marker m.encode) (hg : ∀ i, ¬ OccursAt marker g i) :
    Resynchronises ctx packet g ms ↔
      (g ≠ [] → LeadInRange (getFragment ctx packet.streamId) g) := by
  have hfirst := firstOccurrence_encodeAll hne hdata honly hg
  have hin : g.length ≤ packet.data.length := by rw [hdata, List.length_append]; omega
  have htake : packet.data.take g.length = g := by rw [hdata, List.take_left]
  have hleft : packet.data.length - g.length = (encodeAll ms).length := by
    rw [hdata, List.length_append, Nat.add_sub_cancel_left]
  have hlong : 8 ≤ packet.data.length := by
    have := (marker_isPrefix_encodeAll hne honly).length_le
    rw [marker_length] at this
    rw [hdata, List.length_append]
    omega
  by_cases hnil : g = []
  · subst hnil
    refine iff_of_true ?_ (fun h => (h rfl).elim)
    refine @resynchronises_of_lead _ _ _ _ _ _ _ [] hne hdata honly ?_ (List.append_nil _).symm
      (.inl rfl) (.inr (.inl rfl))
    rw [← hleft, extract_of_marker (hdata ▸ marker_isPrefix_encodeAll hne honly)]
    rfl
  have hlead : some g.length ≠ some 0 := fun h =>
    hnil (List.length_eq_zero_iff.mp (Option.some.inj h))
  have hcall := @extract_of_lead _ _ ctx _ _ hfirst hlead
  rw [Option.getD_some, hleft] at hcall
  have hreturns := @leadingFragment_isOk_iff _ _ _ ctx _ hin
  rw [htake] at hreturns
  constructor
  · rintro ⟨ctx', extra, hrun, -⟩ -
    rw [hcall] at hrun
    obtain ⟨ctx₁, happend, -⟩ := bind_eq_ok.mp hrun
    exact hreturns.mp ⟨ctx₁, happend⟩
  · intro hrange
    obtain ⟨ctx₁, happend⟩ := hreturns.mpr (hrange hnil)
    rw [happend, ok_bind] at hcall
    cases hget : getFragment ctx packet.streamId with
    | none =>
        -- nothing is stored: one corrupt message is counted
        rw [leadingFragment, hget] at happend
        simp only [matcher_len, if_neg (Nat.not_lt.mpr hlong), Except.ok.injEq] at happend
        subst happend
        exact @resynchronises_of_lead _ _ _ _ _ _ _ [] hne hdata honly hcall
          (List.append_nil _).symm (.inl rfl) (.inr (.inl rfl))
    | some fragment =>
        by_cases hroom : fragment.s.length + g.length < fragmentCapacity
        · have houtcome := leadingFragment_outcome hget hin hroom happend
          rw [htake] at houtcome
          cases houtcome with
          | @accepted n _ haccepted _ hfragment =>
              exact resynchronises_of_lead hne hdata honly hcall haccepted
                (.inr ⟨fragment, n, hget, rfl⟩) (.inl hfragment)
          | tooShort _ haccepted _ hfragment =>
              exact @resynchronises_of_lead _ _ _ _ _ _ _ [] hne hdata honly hcall
                (by rw [haccepted, List.append_nil]) (.inl rfl)
                (.inr (.inr ⟨fragment, hget, hfragment⟩))
          | failed _ haccepted _ hfragment =>
              exact @resynchronises_of_lead _ _ _ _ _ _ _ [] hne hdata honly hcall
                (by rw [haccepted, List.append_nil]) (.inl rfl) (.inl hfragment)
        · rw [leadingFragment, hget] at happend
          simp only [if_neg hroom, Except.ok.injEq] at happend
          subst happend
          exact @resynchronises_of_lead _ _ _ _ _ _ _ [] hne hdata honly hcall
            (List.append_nil _).symm (.inl rfl) (.inr (.inl rfl))

end Resync

/-- A stream with the first 20 bytes of a message whose BodyLength will wrap. -/
def negativeStartStored : CaptureContext (List FixMessageSummary) where
  rb := []
  state := some (Function.update (fun _ => none) exampleStream
    (some ⟨negativeBodyLength.take 20, by decide⟩))

/-- Three bytes that are no digits end the message, and the order is accepted. -/
theorem resynchronises_iff_garbage :
    Resynchronises negativeStartStored
      ⟨exampleStream, 1, 2, ascii "..." ++ encodeAll [newOrderExample], by decide⟩
      (ascii "...") [newOrderExample] := by
  have hno : ∀ i, ¬ OccursAt marker (ascii "...") i :=
    (firstOccurrence_eq_none marker_ne_nil).mp (by decide)
  refine (resynchronises_iff (by simp) rfl ?_ hno).mpr fun _ f hf _ _ p hp => ?_
  · have honly : OnlyAtStart marker newOrderExample.encode :=
      (onlyAtStart_iff marker_ne_nil).mpr (by decide)
    simpa using honly
  · obtain rfl : f = ⟨negativeBodyLength.take 20, by decide⟩ := by
      simpa [getFragment, negativeStartStored, eq_comm] using hf
    have hnone : bodyOffset (negativeBodyLength.take 20 ++ ncopy (ascii "...")) = none := by decide
    rw [hnone] at hp
    cases hp

/-- The rest of that message, and a new order. -/
def negativeEndAndOrder : Packet :=
  ⟨exampleStream, 1, 3, negativeBodyLength.drop 20 ++ encodeAll [newOrderExample], by decide⟩

/-- The completed message makes the parser read in front of the fragment, and the
order is lost. -/
theorem not_resynchronises_negativeEnd :
    (∀ i, ¬ OccursAt marker (negativeBodyLength.drop 20) i) ∧
      OnlyAtStart marker newOrderExample.encode ∧
      ¬ Resynchronises negativeStartStored negativeEndAndOrder (negativeBodyLength.drop 20)
        [newOrderExample] := by
  refine ⟨(firstOccurrence_eq_none marker_ne_nil).mp (by decide),
    (onlyAtStart_iff marker_ne_nil).mpr (by decide), ?_⟩
  rintro ⟨ctx', extra, hrun, -⟩
  have hfault : (vmarsExtractFixMessages negativeStartStored negativeEndAndOrder).map
      CaptureContext.accepted = .error (.outOfBounds (-80)) := by decide +kernel
  rw [hrun] at hfault
  cases hfault

end Vmars
