import Vmars.FixRounds

/-!
# The outcomes of a capture

Every message that `vmars_extract_fix_messages` hands to the parser ends in one of the
parser's results, on the packet path (a round of the loop) and on the fragment path
(the bytes before the first marker).  `runOutcomes` lists them for the packets of a
capture, in the order of the calls of `try_parse_fix_message`; a fault ends the list.

`extractAll_counted` is the account of `fix.c`: the counters of a context grow by the
outcomes, each class by its own number.
-/

namespace Vmars

open CMemory Occurrence

/-! ## The calls of the parser -/

/-- The outcomes behind a step of the code; there are none behind a fault. -/
def outcomesBehind {α : Type} (step : Checked α) (outcomes : α → List FixResult) : List FixResult :=
  match step with
  | .ok a => outcomes a
  | .error _ => []

@[simp] theorem outcomesBehind_ok {α : Type} (a : α) (outcomes : α → List FixResult) :
    outcomesBehind (.ok a) outcomes = outcomes a := rfl

/-- The outcome of a call of `try_parse_fix_message`. -/
def parseOutcome (fixMessage : List UInt8) (len : Int) : List FixResult :=
  outcomesBehind (vmarsFixParseMsg fixMessage len 0) fun run => [run.ret.result]

section Outcomes

variable {R : Type} [RingBuffer R]

/-- The call of a round of the loop. -/
def roundOutcome (packet : Packet) (curr : Nat) (bufRemaining : Int) : List FixResult :=
  outcomesBehind (searchNext packet.data curr bufRemaining) fun next =>
    outcomesBehind (pointerAt packet.data curr) fun fixMessage =>
      parseOutcome fixMessage (fixMessageLen curr next bufRemaining)

/-- The calls of the loop. -/
def loopOutcomes (packet : Packet) :
    Nat → CaptureContext R → Option Nat → Int → List FixResult
  | fuel + 1, ctx, some curr, bufRemaining =>
      roundOutcome packet curr bufRemaining ++
        outcomesBehind (extractRound packet ctx curr bufRemaining) fun (ctx, next, bufRemaining) =>
          loopOutcomes packet fuel ctx next bufRemaining
  | _, _, _, _ => []

omit [RingBuffer R] in
/-- The call for the bytes before the first marker, when they continue a fragment. -/
def leadOutcome (packet : Packet) (ctx : CaptureContext R) (fragmentLen : Nat) :
    List FixResult :=
  match getFragment ctx packet.streamId with
  | none => []
  | some fragment =>
      if fragment.s.length + fragmentLen < fragmentCapacity then
        outcomesBehind (strncpy packet.data fragmentLen) fun tail =>
          parseOutcome (fragment.s ++ tail) (fragment.s ++ tail).length
      else []

/-- The calls for a packet. -/
def callOutcomes (ctx : CaptureContext R) (packet : Packet) : List FixResult :=
  match firstOccurrence marker packet.data with
  | some 0 => loopOutcomes packet (packet.data.length + 1) ctx (some 0) packet.data.length
  | first =>
      leadOutcome packet ctx (first.getD packet.data.length) ++
        outcomesBehind (leadingFragment packet ctx (first.getD packet.data.length)) fun ctx =>
          loopOutcomes packet (packet.data.length + 1) ctx first
            (packet.data.length - first.getD packet.data.length : Nat)

/-- The calls for the packets of a capture. -/
def runOutcomes (ctx : CaptureContext R) : List Packet → List FixResult
  | [] => []
  | packet :: packets =>
      callOutcomes ctx packet ++
        outcomesBehind (vmarsExtractFixMessages ctx packet) fun ctx => runOutcomes ctx packets

end Outcomes

/-! ## Counting -/

/-- A parse error that is neither a bad checksum nor a message that is too short. -/
def OtherError (outcome : FixResult) : Prop :=
  outcome ≠ .ok ∧ outcome ≠ .messageTooShort ∧ outcome ≠ .checksumInvalid

instance (outcome : FixResult) : Decidable (OtherError outcome) :=
  inferInstanceAs (Decidable (_ ∧ _))

/-- The counters of the parser have grown by these outcomes. -/
structure Counted (before after : Counters) (outcomes : List FixResult) : Prop where
  valid : after.validMessages = before.validMessages + outcomes.count .ok
  checksum : after.invalidChecksums = before.invalidChecksums + outcomes.count .checksumInvalid
  errors : after.parsingErrors = before.parsingErrors + outcomes.countP fun o => OtherError o

namespace Counted

variable {before middle after : Counters} {xs ys : List FixResult}

theorem nil (counters : Counters) : Counted counters counters [] :=
  ⟨(Int.add_zero _).symm, (Int.add_zero _).symm, (Int.add_zero _).symm⟩

/-- Results are counted one after the other. -/
theorem append (h : Counted before middle xs) (h' : Counted middle after ys) :
    Counted before after (xs ++ ys) := by
  refine ⟨?_, ?_, ?_⟩
  · rw [h'.valid, h.valid, List.count_append]
    omega
  · rw [h'.checksum, h.checksum, List.count_append]
    omega
  · rw [h'.errors, h.errors, List.countP_append]
    omega

/-- `try_parse_fix_message` counts its own result. -/
theorem of_result (counters : Counters) (outcome : FixResult) :
    Counted counters (countResult counters outcome) [outcome] := by
  cases outcome <;> refine ⟨?_, ?_, ?_⟩ <;> simp [countResult, OtherError]

/-- The count of a message type comes on top. -/
theorem messageType (h : Counted before after xs) (messageType : Int) :
    Counted before (recordMessageTypeCounter after messageType) xs := by
  obtain ⟨hvalid, hchecksum, -, herrors⟩ := recordMessageTypeCounter_frame after messageType
  exact ⟨hvalid.trans h.valid, hchecksum.trans h.checksum, herrors.trans h.errors⟩

end Counted

section Outcomes

variable {R : Type} [RingBuffer R] {packet : Packet} {ctx ctx' : CaptureContext R}

/-- A delivered message is counted as accepted. -/
theorem counted_deliver (ctx : CaptureContext R) (tvSec tvNsec : UInt32) (bytes : List UInt8)
    (details : FixDetails) :
    Counted ctx.counters (ctx.deliver tvSec tvNsec bytes details).counters [.ok] := by
  have hvalid := Counted.of_result ctx.counters .ok
  unfold CaptureContext.deliver
  split
  · exact hvalid
  · exact hvalid.messageType _

/-- The outcome of a parse that returns is its result. -/
theorem parseOutcome_eq {fixMessage : List UInt8} {len : Int} {run : ParseRun}
    (h : vmarsFixParseMsg fixMessage len 0 = .ok run) :
    parseOutcome fixMessage len = [run.ret.result] := by
  rw [parseOutcome, h, outcomesBehind_ok]

/-- A round counts its outcome. -/
theorem extractRound_counted {curr : Nat} {next : Option Nat} {bufRemaining bufRemaining' : Int}
    (h : extractRound packet ctx curr bufRemaining = .ok (ctx', next, bufRemaining')) :
    Counted ctx.counters ctx'.counters (roundOutcome packet curr bufRemaining) := by
  obtain ⟨fixMessage, run, details, hnext, hmessage, hrun, -, -, heffect⟩ := extractRound_ok h
  rw [roundOutcome, hnext, outcomesBehind_ok, hmessage, outcomesBehind_ok, parseOutcome_eq hrun]
  cases heffect with
  | accepted hok =>
      rw [hok]
      exact counted_deliver _ _ _ _ _
  | tooShort hshort hput =>
      obtain ⟨-, -, -, -, -, hcounters, -⟩ := putFragment_ok hput
      rw [hshort, hcounters]
      exact Counted.of_result ctx.counters .messageTooShort
  | failed _ _ => exact Counted.of_result ctx.counters run.ret.result

/-- The loop counts its outcomes. -/
theorem extractLoop_counted {fuel : Nat} {curr : Option Nat} {bufRemaining bufRemaining' : Int}
    (h : extractLoop packet fuel ctx curr bufRemaining = .ok (ctx', bufRemaining')) :
    Counted ctx.counters ctx'.counters (loopOutcomes packet fuel ctx curr bufRemaining) := by
  induction fuel generalizing ctx curr bufRemaining with
  | zero =>
      cases curr with
      | none =>
          cases h
          exact .nil _
      | some c => cases h
  | succ fuel ih =>
      cases curr with
      | none =>
          cases h
          exact .nil _
      | some c =>
          obtain ⟨⟨ctx₁, next, left⟩, hround, hrest⟩ := bind_eq_ok.mp h
          rw [loopOutcomes, hround, outcomesBehind_ok]
          exact (extractRound_counted hround).append (ih hrest)

omit [RingBuffer R] in
/-- Storing the bytes left over counts nothing. -/
theorem storeLeftover_counters {bufRemaining : Int}
    (h : storeLeftover packet ctx bufRemaining = .ok ctx') : ctx'.counters = ctx.counters := by
  unfold storeLeftover at h
  split at h
  · obtain ⟨rest, -, hput⟩ := bind_eq_ok.mp h
    obtain ⟨-, -, -, -, -, hcounters, -⟩ := putFragment_ok hput
    exact hcounters
  · cases h
    rfl

/-- The outcomes of the loop; the bytes left are no outcome. -/
theorem finishPacket_counted {curr : Option Nat} {bufRemaining : Int}
    (h : finishPacket packet ctx curr bufRemaining = .ok ctx') :
    Counted ctx.counters ctx'.counters
      (loopOutcomes packet (packet.data.length + 1) ctx curr bufRemaining) := by
  obtain ⟨⟨ctx₁, left⟩, hloop, hleft⟩ := bind_eq_ok.mp h
  have hsame : ctx'.counters = ctx₁.counters := storeLeftover_counters hleft
  rw [hsame]
  exact extractLoop_counted hloop

/-- The bytes before the first marker count their outcome. -/
theorem leadingFragment_counted {n : Nat} (hn : n ≤ packet.data.length)
    (h : leadingFragment packet ctx n = .ok ctx') :
    Counted ctx.counters ctx'.counters (leadOutcome packet ctx n) := by
  unfold leadOutcome
  cases hget : getFragment ctx packet.streamId with
  | none =>
      rw [leadingFragment, hget] at h
      simp only at h ⊢
      split at h
      · obtain ⟨-, -, -, -, -, hcounters, -⟩ := putFragment_ok h
        rw [hcounters]
        exact .nil _
      · cases h
        exact ⟨(Int.add_zero _).symm, (Int.add_zero _).symm, (Int.add_zero _).symm⟩
  | some fragment =>
      simp only
      by_cases hfits : fragment.s.length + n < fragmentCapacity
      · obtain ⟨ctx₁, run, details, hstore, hrun, heffect⟩ := leadingFragment_ok hget hn hfits h
        obtain ⟨-, -, -, hcounters, -⟩ := storeFragment_ok hstore
        rw [if_pos hfits, strncpy_take hn, outcomesBehind_ok, parseOutcome_eq hrun, ← hcounters]
        cases heffect with
        | accepted hok =>
            rw [hok, (removeFragment_frame _ _).2.1]
            exact counted_deliver _ _ _ _ _
        | tooShort hshort =>
            rw [hshort]
            exact Counted.of_result ctx'.counters .messageTooShort
        | failed _ _ =>
            rw [(removeFragment_frame _ _).2.1]
            exact Counted.of_result ctx₁.counters run.ret.result
      · rw [leadingFragment, hget] at h
        simp only [if_neg hfits, Except.ok.injEq] at h
        subst h
        rw [if_neg hfits]
        exact .nil _

/-- **A call counts its outcomes**, on both paths. -/
theorem vmarsExtractFixMessages_counted (h : vmarsExtractFixMessages ctx packet = .ok ctx') :
    Counted ctx.counters ctx'.counters (callOutcomes ctx packet) := by
  unfold callOutcomes
  split
  next hmarker =>
    have hstart : marker <+: packet.data :=
      occursAt_zero.mp ((firstOccurrence_eq_some marker_ne_nil).mp hmarker).1
    rw [extract_of_marker hstart] at h
    exact finishPacket_counted h
  next first hlead =>
    have hle : (firstOccurrence marker packet.data).getD packet.data.length ≤
        packet.data.length := firstOccurrence_getD_le rfl
    rw [extract_of_lead rfl hlead] at h
    obtain ⟨ctx₁, hfirst, hrest⟩ := bind_eq_ok.mp h
    rw [hfirst, outcomesBehind_ok]
    exact (leadingFragment_counted hle hfirst).append (finishPacket_counted hrest)

/-- **The counters of a capture are the numbers of its outcomes.** -/
theorem extractAll_counted {packets : List Packet} (h : extractAll ctx packets = .ok ctx') :
    Counted ctx.counters ctx'.counters (runOutcomes ctx packets) := by
  induction packets generalizing ctx with
  | nil =>
      cases h
      exact .nil _
  | cons packet packets ih =>
      rw [extractAll] at h
      obtain ⟨ctx₁, hcall, hrest⟩ := bind_eq_ok.mp h
      rw [runOutcomes, hcall, outcomesBehind_ok]
      exact (vmarsExtractFixMessages_counted hcall).append (ih hrest)

end Outcomes

end Vmars
