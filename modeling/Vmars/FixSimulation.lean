import Vmars.FixExtraction

/-!
# Two calls side by side

A call of `vmars_extract_fix_messages` touches its context in few ways: it reads, stores and
removes the fragment of its stream, it counts, it keeps an accepted message, and it publishes a
summary.  A relation between two contexts, over any two rings, that each of these keeps is kept
by whole calls, and of two such calls both fault or none.

* `Simulation.extract`: from related contexts, a packet leads to related contexts;
* `vmarsExtractFixMessages_others`: a call leaves the fragments of the other streams.
-/

namespace Vmars

open CMemory

variable {R S : Type} [RingBuffer R] [RingBuffer S]

/-- A relation that is kept by everything a call for the stream does to its context. -/
structure Simulation (streamId : Ipv4Stream)
    (Rel : CaptureContext R → CaptureContext S → Prop) : Prop where
  fragment : ∀ {ctx own}, Rel ctx own → getFragment ctx streamId = getFragment own streamId
  storeFragment : ∀ {ctx own}, Rel ctx own → ∀ s,
    Related Rel (storeFragment ctx streamId s) (storeFragment own streamId s)
  removeFragment : ∀ {ctx own}, Rel ctx own →
    Rel (removeFragment ctx streamId) (removeFragment own streamId)
  corrupt : ∀ {ctx own}, Rel ctx own →
    Rel { ctx with counters.corruptMessages := ctx.counters.corruptMessages + 1 }
      { own with counters.corruptMessages := own.counters.corruptMessages + 1 }
  count : ∀ {ctx own}, Rel ctx own → ∀ result,
    Rel { ctx with counters := countResult ctx.counters result }
      { own with counters := countResult own.counters result }
  accept : ∀ {ctx own}, Rel ctx own → ∀ message,
    Rel { ctx with accepted := ctx.accepted ++ [message] }
      { own with accepted := own.accepted ++ [message] }
  publish : ∀ {ctx own}, Rel ctx own → ∀ messageType summary,
    Rel { ctx with counters := recordMessageTypeCounter ctx.counters messageType
                   rb := RingBuffer.push ctx.rb summary }
      { own with counters := recordMessageTypeCounter own.counters messageType
                 rb := RingBuffer.push own.rb summary }

namespace Simulation

variable {packet : Packet} {streamId : Ipv4Stream} {ctx : CaptureContext R}
  {own : CaptureContext S} {Rel : CaptureContext R → CaptureContext S → Prop}

/-- `put_fragment` stores the same bytes on both sides, or faults on both. -/
theorem putFragment (sim : Simulation streamId Rel) (h : Rel ctx own) (s : List UInt8)
    (len : Int) :
    Related Rel (putFragment ctx streamId s len) (putFragment own streamId s len) := by
  unfold Vmars.putFragment
  split
  · apply Related.bind_self
    intro s
    exact sim.storeFragment h s
  · exact .error _

/-- The parser does not look at the context. -/
theorem tryParse (sim : Simulation streamId Rel) (h : Rel ctx own) (message : List UInt8)
    (len : Int) :
    Related (Along Rel) (tryParseFixMessage ctx message len)
      (tryParseFixMessage own message len) := by
  unfold tryParseFixMessage
  apply Related.bind_self
  intro run
  apply Related.bind_self
  intro details
  refine .ok ⟨?_, rfl⟩
  have hcount := sim.count h run.ret.result
  dsimp only
  split
  · exact sim.accept hcount _
  · exact hcount

/-- A summary is published on both sides or on none. -/
theorem process (sim : Simulation streamId Rel) (h : Rel ctx own) (tvSec tvNsec : UInt32)
    (details : FixDetails) :
    Related Rel (processForLatencyMeasurement ctx tvSec tvNsec details)
      (processForLatencyMeasurement own tvSec tvNsec details) := by
  unfold processForLatencyMeasurement
  apply Related.bind_self
  intro summary
  cases summary with
  | none => exact .ok h
  | some summary => exact .ok (sim.publish h _ summary)

/-- A round of the loop. -/
theorem round (sim : Simulation packet.streamId Rel) (h : Rel ctx own) (curr : Nat)
    (bufRemaining : Int) :
    Related (Along Rel) (extractRound packet ctx curr bufRemaining)
      (extractRound packet own curr bufRemaining) := by
  unfold extractRound
  apply Related.bind_self
  intro next
  apply Related.bind_self
  intro message
  refine (sim.tryParse h _ _).bind_along ?_
  rintro ctx own ⟨result, details⟩ h
  dsimp only
  split
  · refine (sim.process h _ _ _).bind fun ctx own h => ?_
    exact .ok ⟨h, rfl⟩
  · split
    · refine (sim.putFragment h _ _).bind fun ctx own h => ?_
      exact .ok ⟨h, rfl⟩
    · exact .ok ⟨h, rfl⟩

/-- The loop, by induction on its fuel. -/
theorem loop (sim : Simulation packet.streamId Rel) (h : Rel ctx own) (fuel : Nat)
    (curr : Option Nat) (bufRemaining : Int) :
    Related (Along Rel) (extractLoop packet fuel ctx curr bufRemaining)
      (extractLoop packet fuel own curr bufRemaining) := by
  induction fuel generalizing ctx own curr bufRemaining with
  | zero =>
      cases curr with
      | none => exact .ok ⟨h, rfl⟩
      | some curr => exact .error _
  | succ fuel ih =>
      cases curr with
      | none => exact .ok ⟨h, rfl⟩
      | some curr =>
          refine (sim.round h curr bufRemaining).bind_along ?_
          rintro ctx own ⟨next, bufRemaining⟩ h
          exact ih h next bufRemaining

/-- The bytes before the first message. -/
theorem leading (sim : Simulation packet.streamId Rel) (h : Rel ctx own) (fragmentLen : Nat) :
    Related Rel (leadingFragment packet ctx fragmentLen)
      (leadingFragment packet own fragmentLen) := by
  unfold leadingFragment
  rw [sim.fragment h]
  cases getFragment own packet.streamId with
  | none =>
      dsimp only
      split
      · exact sim.putFragment h _ _
      · exact .ok (sim.corrupt h)
  | some fragment =>
      dsimp only
      split
      · apply Related.bind_self
        intro tail
        refine (sim.storeFragment h _).bind fun ctx own h => ?_
        refine (sim.tryParse h _ _).bind_along ?_
        rintro ctx own ⟨result, details⟩ h
        dsimp only
        -- the last step is the same on both sides: the fragment goes or stays
        have hremove : ∀ {ctx own}, Rel ctx own →
            Rel
              (if result.result ≠ .messageTooShort then Vmars.removeFragment ctx packet.streamId
                else ctx)
              (if result.result ≠ .messageTooShort then Vmars.removeFragment own packet.streamId
                else own) := by
          intro ctx own h
          split
          · exact sim.removeFragment h
          · exact h
        split
        · refine (sim.process h _ _ _).bind fun ctx own h => ?_
          exact .ok (hremove h)
        · exact .ok (hremove h)
      · exact .ok h

/-- The loop and the fragment of the bytes left. -/
theorem finish (sim : Simulation packet.streamId Rel) (h : Rel ctx own) (curr : Option Nat)
    (bufRemaining : Int) :
    Related Rel (finishPacket packet ctx curr bufRemaining)
      (finishPacket packet own curr bufRemaining) := by
  unfold finishPacket
  refine (sim.loop h _ curr bufRemaining).bind_along ?_
  intro ctx own bufRemaining h
  unfold storeLeftover
  dsimp only
  split
  · apply Related.bind_self
    intro rest
    exact sim.putFragment h _ _
  · exact .ok h

/-- **A call keeps every relation that its steps keep.** -/
theorem extract (sim : Simulation packet.streamId Rel) (h : Rel ctx own) :
    Related Rel (vmarsExtractFixMessages ctx packet) (vmarsExtractFixMessages own packet) := by
  unfold vmarsExtractFixMessages
  apply Related.bind_self
  intro curr
  dsimp only
  split
  · refine (sim.leading h _).bind fun ctx own h => ?_
    exact sim.finish h curr _
  · exact sim.finish h curr _

end Simulation

/-! ## Other streams -/

/-- The fragments of all other streams are the same in both contexts. -/
def OthersKept {R : Type} (streamId : Ipv4Stream) (ctx ctx' : CaptureContext R) : Prop :=
  ∀ other, other ≠ streamId → getFragment ctx' other = getFragment ctx other

theorem OthersKept.refl {R : Type} (streamId : Ipv4Stream) (ctx : CaptureContext R) :
    OthersKept streamId ctx ctx := fun _ _ => rfl

/-- One call after the other. -/
theorem OthersKept.trans {R : Type} {streamId : Ipv4Stream} {ctx ctx₁ ctx₂ : CaptureContext R}
    (h : OthersKept streamId ctx ctx₁) (h' : OthersKept streamId ctx₁ ctx₂) :
    OthersKept streamId ctx ctx₂ :=
  fun other hother => (h' other hother).trans (h other hother)

/-- A call beside itself: each of its steps leaves what the other streams had at its start. -/
theorem othersKept_simulation (start : CaptureContext R) (streamId : Ipv4Stream) :
    Simulation streamId fun ctx own => ctx = own ∧ OthersKept streamId start ctx where
  fragment h := by rw [h.1]
  storeFragment := by
    rintro ctx own ⟨rfl, h⟩ s
    cases hstore : storeFragment ctx streamId s with
    | error fault => exact .error fault
    | ok ctx' => exact .ok ⟨rfl, h.trans (storeFragment_ok hstore).2.1⟩
  removeFragment := by
    rintro ctx own ⟨rfl, h⟩
    refine ⟨rfl, fun other hother => ?_⟩
    rw [getFragment_remove, if_neg hother, h other hother]
  corrupt h := ⟨by rw [h.1], h.2⟩
  count h _ := ⟨by rw [h.1], h.2⟩
  accept h _ := ⟨by rw [h.1], h.2⟩
  publish h _ _ := ⟨by rw [h.1], h.2⟩

/-- **A call changes no fragment but that of its own stream.** -/
theorem vmarsExtractFixMessages_others {packet : Packet} {ctx ctx' : CaptureContext R}
    (h : vmarsExtractFixMessages ctx packet = .ok ctx') : OthersKept packet.streamId ctx ctx' := by
  obtain ⟨_, -, -, hkept⟩ :=
    ((othersKept_simulation ctx packet.streamId).extract ⟨rfl, .refl _ _⟩).ok_right h
  exact hkept

end Vmars
