import Vmars.FixContinuation
import Vmars.FixSimulation

/-!
# The bytes of a fragment

`put_fragment` stores bytes of the network and `vmars_extract_fix_messages` appends to
them, both with `strncpy`, which stops at a NUL and pads with zeros.  A fragment is
therefore what was put and appended only while no other byte stands behind a NUL.

* `AppendRun.fragmentBytes_eq` — what any number of appends make of a stored fragment;
* `storesExactly_iff` — exactly when that is the concatenation of the bytes.
-/

namespace Vmars

open CMemory Occurrence

/-! ## NUL bytes -/

/-- Behind a NUL stand NULs only. -/
def NulsAtEnd (bytes : List UInt8) : Prop := bytes.Pairwise fun b b' => b = 0 → b' = 0

instance (bytes : List UInt8) : Decidable (NulsAtEnd bytes) :=
  inferInstanceAs (Decidable (bytes.Pairwise _))

/-- These are the bytes that a copy keeps. -/
theorem copiesExactly_iff_nulsAtEnd {bytes : List UInt8} :
    CopiesExactly bytes ↔ NulsAtEnd bytes := by
  unfold CopiesExactly NulsAtEnd
  induction bytes with
  | nil => exact iff_of_true rfl .nil
  | cons b bytes ih =>
      rw [ncopy, List.pairwise_cons]
      by_cases hb : b = 0
      · subst hb
        rw [if_pos rfl, List.replicate_succ, List.cons.injEq, eq_comm (b := bytes),
          List.eq_replicate_iff]
        constructor
        · rintro ⟨-, -, hzero⟩
          refine ⟨fun b' hmem _ => hzero b' hmem, ?_⟩
          apply List.pairwise_of_forall_mem_list
          intro x _ y hy _
          exact hzero y hy
        · rintro ⟨hzero, -⟩
          exact ⟨rfl, rfl, fun b' hmem => hzero b' hmem rfl⟩
      · rw [if_neg hb, List.cons.injEq, eq_self, true_and, ih]
        exact (and_iff_right fun b' _ h0 => (hb h0).elim).symm

section Store

variable {R : Type} [RingBuffer R] {packet : Packet} {ctx ctx' : CaptureContext R}

/-! ## Appends -/

/-- A call that appends the bytes before its first marker to the stored fragment: there
is room, the extended message is still too short, and nothing behind is stored. -/
structure AppendsTo (packet : Packet) (ctx : CaptureContext R) (piece : List UInt8)
    (ctx' : CaptureContext R) : Prop where
  lead : firstOccurrence marker packet.data ≠ some 0
  piece_eq : piece = packet.data.take
    ((firstOccurrence marker packet.data).getD packet.data.length)
  stored : ∃ fragment, getFragment ctx packet.streamId = some fragment ∧
    fragment.s.length + piece.length < fragmentCapacity ∧
    TooShort (fragment.s ++ ncopy piece) (fragment.s ++ ncopy piece).length
  behind : ∀ c, firstOccurrence marker packet.data = some c →
    StoresNothing packet.data c (packet.data.length - c)
  run : vmarsExtractFixMessages ctx packet = .ok ctx'

/-- What an append makes of the fragment. -/
theorem AppendsTo.fragmentBytes_eq {piece s : List UInt8} (h : AppendsTo packet ctx piece ctx')
    (hs : fragmentBytes ctx packet.streamId = some s) :
    fragmentBytes ctx' packet.streamId = some (s ++ ncopy piece) := by
  obtain ⟨hlead, rfl, ⟨fragment, hget, hroom, hshort⟩, hbehind, hrun⟩ := h
  have hle := @firstOccurrence_getD_le packet.data _ rfl
  rw [fragmentBytes, hget, Option.map_some, Option.some.injEq] at hs
  subst hs
  rw [List.length_take, Nat.min_eq_left hle] at hroom
  rw [extract_of_lead rfl hlead] at hrun
  obtain ⟨ctx₁, hfirst, hrest⟩ := bind_eq_ok.mp hrun
  have hstored : fragmentBytes ctx₁ packet.streamId = some (fragment.s ++ ncopy (packet.data.take
      ((firstOccurrence marker packet.data).getD packet.data.length))) := by
    cases leadingFragment_outcome hget hle hroom hfirst with
    | accepted haccepts _ _ _ => exact (haccepts.not_tooShort hshort).elim
    | tooShort _ _ _ hfragment => exact hfragment
    | failed hfails _ _ _ => exact (hshort.not_fails hfails).elim
  rcases finishPacket_lead rfl hrest with
    ⟨-, rfl⟩ | ⟨c, accepted, stored, failed, left, hc, -, hrounds, -, -, hfragment⟩
  · exact hstored
  · rw [hfragment, hstored, hrounds.storesNothing (hbehind c hc)]

/-- Any number of appends to the fragment of a stream, with the bytes they append. -/
inductive AppendRun (streamId : Ipv4Stream) :
    CaptureContext R → List (List UInt8) → CaptureContext R → Prop
  | nil (ctx : CaptureContext R) : AppendRun streamId ctx [] ctx
  | cons {packet : Packet} {ctx ctx₁ ctx' : CaptureContext R} {piece : List UInt8}
      {pieces : List (List UInt8)} (hstream : packet.streamId = streamId)
      (h : AppendsTo packet ctx piece ctx₁) (rest : AppendRun streamId ctx₁ pieces ctx') :
      AppendRun streamId ctx (piece :: pieces) ctx'

namespace AppendRun

variable {streamId : Ipv4Stream} {pieces : List (List UInt8)}

/-- What the appends make of the fragment. -/
theorem fragmentBytes_eq {s : List UInt8} (h : AppendRun streamId ctx pieces ctx')
    (hs : fragmentBytes ctx streamId = some s) :
    fragmentBytes ctx' streamId = some (s ++ pieces.flatMap ncopy) := by
  induction h generalizing s with
  | nil ctx =>
      rw [List.flatMap_nil, List.append_nil]
      exact hs
  | cons hstream h _ ih =>
      subst hstream
      rw [List.flatMap_cons, ← List.append_assoc]
      exact ih (h.fragmentBytes_eq hs)

/-- The fragments of the other streams stay. -/
theorem others (h : AppendRun streamId ctx pieces ctx') : OthersKept streamId ctx ctx' := by
  induction h with
  | nil ctx => exact .refl _ _
  | cons hstream h _ ih =>
      subst hstream
      exact (vmarsExtractFixMessages_others h.run).trans ih

end AppendRun

/-! ## What is stored -/

/-- The fragment of the stream has exactly these bytes, and those of all other streams
are the old ones. -/
def StoresExactly (streamId : Ipv4Stream) (ctx ctx' : CaptureContext R) (bytes : List UInt8) :
    Prop :=
  fragmentBytes ctx' streamId = some bytes ∧ OthersKept streamId ctx ctx'

omit [RingBuffer R] in
/-- Copies of pieces are the pieces together when each of them is copied as it is. -/
theorem flatMap_ncopy_eq_iff {pieces : List (List UInt8)} :
    pieces.flatMap ncopy = pieces.flatten ↔ ∀ piece ∈ pieces, CopiesExactly piece := by
  induction pieces with
  | nil => simp
  | cons piece pieces ih =>
      rw [List.flatMap_cons, List.flatten_cons, List.forall_mem_cons, ← ih]
      constructor
      · intro h
        exact List.append_inj h (ncopy_length piece)
      · rintro ⟨hpiece, hpieces⟩
        rw [hpieces, hpiece]

/-- **A fragment is what was put and appended exactly when no other byte stands behind a
NUL** in any of the pieces, whatever the fragment was before. -/
theorem storesExactly_iff {ctx₀ : CaptureContext R} {streamId : Ipv4Stream}
    {s rest : List UInt8} {pieces : List (List UInt8)}
    (hput : putFragment ctx streamId (s ++ rest) s.length = .ok ctx₀)
    (happends : AppendRun streamId ctx₀ pieces ctx') :
    StoresExactly streamId ctx ctx' (s ++ pieces.flatten) ↔
      NulsAtEnd s ∧ ∀ piece ∈ pieces, NulsAtEnd piece := by
  obtain ⟨copy, hcopy, hfragment, hothers, -⟩ := putFragment_ok hput
  rw [Int.toNat_natCast, strncpy_append, Except.ok.injEq] at hcopy
  subst hcopy
  have hbytes := happends.fragmentBytes_eq (fragmentBytes_of_fragment hfragment)
  have hkept : OthersKept streamId ctx ctx' := OthersKept.trans hothers happends.others
  have hcondition : (NulsAtEnd s ∧ ∀ piece ∈ pieces, NulsAtEnd piece) ↔
      CopiesExactly s ∧ ∀ piece ∈ pieces, CopiesExactly piece := by
    simp only [copiesExactly_iff_nulsAtEnd]
  rw [hcondition, ← flatMap_ncopy_eq_iff, StoresExactly, hbytes, Option.some.injEq,
    and_iff_left hkept]
  constructor
  · intro h
    exact List.append_inj h (ncopy_length s)
  · rintro ⟨hs, hpieces⟩
    rw [hpieces, hs]

end Store

/-- The second piece of the start of a message. -/
def startPiece : Packet := ⟨exampleStream, 1, 2, ascii "IX", by decide⟩

/-- The start of a marker, and two more bytes. -/
theorem storesExactly_iff_startPiece :
    ∃ ctx₀ ctx' : CaptureContext (List FixMessageSummary),
      putFragment { rb := [] } exampleStream (ascii "8=F" ++ []) (ascii "8=F").length = .ok ctx₀ ∧
        AppendRun exampleStream ctx₀ [ascii "IX"] ctx' ∧
        (StoresExactly exampleStream { rb := [] } ctx' (ascii "8=F" ++ [ascii "IX"].flatten) ↔
          NulsAtEnd (ascii "8=F") ∧ ∀ piece ∈ [ascii "IX"], NulsAtEnd piece) := by
  obtain ⟨ctx₀, hput⟩ := @putFragment_isOk _ { rb := ([] : List FixMessageSummary) } exampleStream
    (ascii "8=F" ++ []) (ascii "8=F").length (by decide) (by decide)
  obtain ⟨copy, hcopy, ⟨fragment, hget, hs⟩, -⟩ := putFragment_ok hput
  rw [Int.toNat_natCast, strncpy_append, Except.ok.injEq] at hcopy
  have hfragment : fragment.s = ascii "8=F" := by
    rw [hs, ← hcopy]
    decide
  have hfirst : firstOccurrence marker startPiece.data = none := by decide
  have hpiece : startPiece.data.take startPiece.data.length = ascii "IX" := by decide
  have hparse := @vmarsFixParseMsg_incomplete 0 newOrderExample (ascii "8=F" ++ ncopy (ascii "IX"))
    (ascii "8=F" ++ ncopy (ascii "IX")).length (by decide) (by decide) (by decide) (by decide)
  have hrange := (parse_isOk_iff (Nat.le_refl _)).mp ⟨_, hparse⟩
  rw [List.take_length] at hrange
  obtain ⟨ctx', hlead⟩ := (@leadingFragment_isOk_iff _ _ startPiece ctx₀ startPiece.data.length
    (Nat.le_refl _)).mpr (by
      intro f hf _
      obtain rfl := Option.some.inj (hget.symm.trans hf)
      rw [hfragment, hpiece]
      exact hrange)
  have hrun : vmarsExtractFixMessages ctx₀ startPiece = .ok ctx' := by
    rw [extract_of_lead hfirst (by simp)]
    simp only [Option.getD_none, hlead, ok_bind, Nat.sub_self]
    exact finishPacket_none _ _
  have happend : AppendsTo startPiece ctx₀ (ascii "IX") ctx' :=
    { lead := by rw [hfirst]; simp
      piece_eq := by rw [hfirst]; decide
      stored := by
        refine ⟨fragment, hget, ?_⟩
        rw [hfragment]
        exact ⟨by decide, _, hparse, rfl⟩
      behind := by
        intro c hc
        rw [hfirst] at hc
        cases hc
      run := hrun }
  have happends : AppendRun exampleStream ctx₀ [ascii "IX"] ctx' := .cons rfl happend (.nil ctx')
  exact ⟨ctx₀, ctx', hput, happends, storesExactly_iff hput happends⟩

/-- A byte behind a NUL is stored as a NUL. -/
theorem not_storesExactly_behindNul :
    ∃ ctx₀ : CaptureContext (List FixMessageSummary),
      putFragment { rb := [] } exampleStream [56, 0, 70] 3 = .ok ctx₀ ∧
        AppendRun exampleStream ctx₀ [] ctx₀ ∧
        ¬ StoresExactly exampleStream { rb := [] } ctx₀ ([56, 0, 70] ++ [].flatten) := by
  obtain ⟨ctx₀, hput⟩ := @putFragment_isOk _ { rb := ([] : List FixMessageSummary) } exampleStream
    [56, 0, 70] 3 (by decide) (by decide)
  refine ⟨ctx₀, hput, .nil ctx₀, ?_⟩
  rintro ⟨hbytes, -⟩
  obtain ⟨copy, hcopy, hfragment, -⟩ := putFragment_ok hput
  rw [fragmentBytes_of_fragment hfragment, Option.some.injEq] at hbytes
  rw [hbytes] at hcopy
  revert hcopy
  decide

end Vmars
