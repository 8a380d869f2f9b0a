import Vmars.FixDecode
import Vmars.FixParserSafety

/-!
# Final outcomes of the parser

The parser looks at the bytes behind a message only to see that they are there.
So an outcome other than "too short" stays the same when bytes are appended: the
header and the digits of BodyLength are complete, the guard has seen the end of the
trailer, and everything else is read before it.  A proper prefix of an accepted
message is then too short, since it cannot have been final.

`vmarsFixParseMsg_final` states both.
-/

namespace Vmars

open CMemory

section Extension

variable {b x : List UInt8} {options : Int32}

/-! ## The header and BodyLength -/

/-- Bytes behind a message do not change its header. -/
theorem hasFixHeader_append (hlen : initialHeaderLen ≤ b.length) :
    HasFixHeader (b ++ x) ↔ HasFixHeader b := by
  have hheader : ∀ header : List UInt8, header.length = initialHeaderLen →
      (header <+: b ++ x ↔ header <+: b) := by
    intro header hheader
    have h := @isPrefix_take (b ++ x) header b.length (by omega)
    rw [List.take_left] at h
    exact h.symm
  rw [HasFixHeader, HasFixHeader, hheader _ rfl, hheader _ rfl]

/-- Nor its version. -/
theorem fixTypeOf_append (hlen : initialHeaderLen ≤ b.length) :
    fixTypeOf (b ++ x) = fixTypeOf b := by
  have h := @isPrefix_take (b ++ x) initialHeader44 b.length hlen
  rw [List.take_left] at h
  unfold fixTypeOf
  simp only [h]

/-- Where another byte follows the digits of BodyLength, nothing behind it matters. -/
theorem bodyLength_append (hlen : initialHeaderLen ≤ b.length)
    (hstop : (b.drop initialHeaderLen).dropWhile isDigit ≠ []) :
    bodyLengthDigits (b ++ x) = bodyLengthDigits b ∧ bodyOffset (b ++ x) = bodyOffset b := by
  have hdrop : (b ++ x).drop initialHeaderLen = b.drop initialHeaderLen ++ x :=
    List.drop_append_of_le_length hlen
  have hsplit := congrArg List.length
    (List.takeWhile_append_dropWhile (p := isDigit) (l := b.drop initialHeaderLen))
  have hpos := List.length_pos_iff.mpr hstop
  rw [List.length_append] at hsplit
  have hdigits : bodyLengthDigits (b ++ x) = bodyLengthDigits b := by
    rw [bodyLengthDigits, hdrop, List.takeWhile_append, if_neg (by omega), bodyLengthDigits]
  refine ⟨hdigits, ?_⟩
  obtain ⟨c, tail, hc⟩ := List.exists_cons_of_ne_nil hstop
  unfold bodyOffset
  rw [hdigits, hdrop, List.dropWhile_append, hc]
  rfl

/-! ## The body -/

/-- The field loop reads below `len` only. -/
theorem fieldLoop_append {len fuel position : Nat} {calculated : Int} (h : len ≤ b.length) :
    fieldLoop (b ++ x) len options calculated fuel position =
      fieldLoop b len options calculated fuel position := by
  induction fuel generalizing position with
  | zero => rfl
  | succ fuel ih =>
      have hround : fieldRound (b ++ x) len options calculated position =
          fieldRound b len options calculated position := by
        rw [fieldRound_eq h, fieldRound_eq (by rw [List.length_append]; omega),
          List.take_append_of_le_length h]
      rw [fieldLoop, fieldLoop, hround]
      simp only [ih]

/-- A body whose trailer lies inside the buffer is parsed the same way. -/
theorem parseBody_append {len' position : Nat} {fixType msgLen : Int} (hnonneg : 0 ≤ msgLen)
    (hguard : ¬ (msgLen = 0 ∨ msgLen > (b.length : Int) - position - (checkSumLen : Nat)))
    (hlen : b.length ≤ len') :
    parseBody (b ++ x) len' fixType options msgLen position =
      parseBody b b.length fixType options msgLen position := by
  obtain ⟨n, hn⟩ := Int.eq_ofNat_of_zero_le (show 0 ≤ msgLen + position by omega)
  have hend : (n : Int) + (checkSumLen : Nat) = ((n + checkSumLen : Nat) : Int) := rfl
  have htrailer : (position : Int) + msgLen + 3 = ((n + 3 : Nat) : Int) := by omega
  have hfits : n + checkSumLen ≤ b.length := by omega
  have hfits7 : n + 7 ≤ b.length := hfits
  have hlonger : b.length ≤ (b ++ x).length := by rw [List.length_append]; omega
  have hsum : calculateChecksum (b ++ x) n = calculateChecksum b n := by
    rw [calculateChecksum_natCast (by omega), calculateChecksum_natCast (by omega),
      List.take_append_of_le_length (by omega)]
  have hsupplied : suppliedChecksum (b ++ x) (n + 3 : Nat) = suppliedChecksum b (n + 3 : Nat) := by
    rw [suppliedChecksum_natCast (show n + 3 + 2 < (b ++ x).length by omega),
      suppliedChecksum_natCast (show n + 3 + 2 < b.length by omega),
      List.getElem_append_left, List.getElem_append_left, List.getElem_append_left]
  rw [parseBody, if_neg (by omega), parseBody, if_neg hguard]
  simp only [hn, hend, htrailer, hsum, hsupplied, fieldLoop_append hfits]

/-! ## Any buffer -/

/-- The value of BodyLength fits an `int`. -/
def BodyLengthFits (buf : List UInt8) : Prop :=
  HasFixHeader buf → decimal (bodyLengthDigits buf) ≤ intMax

instance (buf : List UInt8) : Decidable (BodyLengthFits buf) :=
  inferInstanceAs (Decidable (_ → _))

/-- A BodyLength that fits is in range. -/
theorem BodyLengthFits.inRange (h : BodyLengthFits b) : BodyLengthInRange b := by
  intro hheader p _
  rw [wrap32_natCast (h hheader)]
  omega

/-- The digits of a shorter buffer denote no more. -/
theorem BodyLengthFits.take (h : BodyLengthFits b) {k : Nat} : BodyLengthFits (b.take k) := by
  intro hheader
  have hlong := hheader.le_length
  rw [List.length_take] at hlong
  have hwhole : HasFixHeader b := by
    have happend := hasFixHeader_append (b := b.take k) (x := b.drop k)
      (by rw [List.length_take]; exact hlong)
    rw [List.take_append_drop] at happend
    exact happend.mpr hheader
  have hdigits : bodyLengthDigits (b.take k) =
      (bodyLengthDigits b).take (k - initialHeaderLen) := by
    rw [bodyLengthDigits, List.drop_take, ← List.take_takeWhile, bodyLengthDigits]
  rw [hdigits]
  exact Nat.le_trans (decimal_take_le _ _) (h hwhole)

/-- A message that is too short makes no call. -/
theorem eq_rejected_of_tooShort {run : ParseRun}
    (h : vmarsFixParseMsg b b.length options = .ok run)
    (hshort : run.ret.result = .messageTooShort) : run = rejected .messageTooShort b.length := by
  have hrejected : ∀ {result : FixResult}, .ok (rejected result b.length) = (.ok run : Checked _) →
      run = rejected .messageTooShort b.length := by
    intro result heq
    obtain rfl := Except.ok.inj heq
    have hresult : result = .messageTooShort := hshort
    rw [hresult]
  rw [vmarsFixParseMsg_eq (Nat.le_refl _), List.take_length] at h
  split at h
  · exact hrejected h
  split at h
  case isFalse => exact hrejected h
  split at h
  · exact hrejected h
  unfold parseBody at h
  split at h
  · exact hrejected h
  obtain ⟨calculated, -, h⟩ := bind_eq_ok.mp h
  obtain ⟨checksum, -, h⟩ := bind_eq_ok.mp h
  split at h
  · obtain rfl := Except.ok.inj h
    cases hshort
  · obtain ⟨fields, hfields, h⟩ := bind_eq_ok.mp h
    obtain rfl := Except.ok.inj h
    exact ((fieldLoop_result hfields).1 hshort).elim

/-- What a final outcome keeps when bytes are appended. -/
structure SameOutcome (b x : List UInt8) (run run' : ParseRun) : Prop where
  result_eq : run'.ret.result = run.ret.result
  calls_eq : run'.calls = run.calls
  events_eq : run'.calls.map (Callback.event (b ++ x)) = run.calls.map (Callback.event b)
  consumed_eq : run.ret.result = .ok ∨ run.ret.result = .checksumInvalid →
    run'.ret.bytesConsumed = run.ret.bytesConsumed

/-- The characters that a call hands out lie in the shorter buffer. -/
theorem event_append {call : Callback} (h : call.InRange b.length) :
    call.event (b ++ x) = call.event b := by
  cases call with
  | startp msgLen fixType => rfl
  | endp => rfl
  | tagp tag value =>
      cases value with
      | calculatedChecksumStr chars => rfl
      | inBuffer start len =>
          have hin : start + len ≤ b.length := h
          simp only [Callback.event, TagValue.bytes]
          rw [List.drop_append_of_le_length (by omega),
            List.take_append_of_le_length (by rw [List.length_drop]; omega)]

/-- **A final outcome stays.** -/
theorem vmarsFixParseMsg_append {run : ParseRun} (hfits : BodyLengthFits b)
    (h : vmarsFixParseMsg b b.length options = .ok run)
    (hfinal : run.ret.result ≠ .messageTooShort) :
    ∃ run', vmarsFixParseMsg (b ++ x) (b ++ x).length options = .ok run' ∧
      SameOutcome b x run run' := by
  have hlonger : b.length ≤ (b ++ x).length := by rw [List.length_append]; omega
  have hrejected : ∀ {result : FixResult}, result ≠ .ok → result ≠ .checksumInvalid →
      .ok (rejected result b.length) = (.ok run : Checked _) →
      SameOutcome b x run (rejected result (b ++ x).length) := by
    intro result hok hsum heq
    obtain rfl := Except.ok.inj heq
    exact ⟨rfl, rfl, rfl, fun hresult => (hresult.elim hok hsum).elim⟩
  obtain ⟨_, hrun, hcalls, -⟩ := @vmarsFixParseMsg_isOk _ _ options (Nat.le_refl b.length)
    (by rw [List.take_length]; exact hfits.inRange)
  rw [h] at hrun
  obtain rfl := Except.ok.inj hrun
  rw [vmarsFixParseMsg_eq (Nat.le_refl _), List.take_length] at h
  rw [vmarsFixParseMsg_eq (Nat.le_refl _), List.take_length]
  by_cases hshort : b.length < initialHeaderLen
  · rw [if_pos hshort] at h
    obtain rfl := Except.ok.inj h
    exact (hfinal rfl).elim
  have hlen := Nat.le_of_not_lt hshort
  rw [if_neg hshort] at h
  rw [if_neg (by omega)]
  have hsame := hasFixHeader_append (x := x) hlen
  by_cases hheader : HasFixHeader b
  case neg =>
    rw [if_neg hheader] at h
    rw [if_neg (fun hlonger => hheader (hsame.mp hlonger))]
    exact ⟨_, rfl, hrejected (by decide) (by decide) h⟩
  rw [if_pos hheader] at h
  rw [if_pos (hsame.mpr hheader)]
  -- the digits of BodyLength are complete, or the message would be too short
  have hvalue := wrap32_natCast (hfits hheader)
  rw [hvalue] at h
  have hstop : (b.drop initialHeaderLen).dropWhile isDigit ≠ [] := by
    intro hnil
    have hoffset : bodyOffset b = some b.length := by
      unfold bodyOffset
      rw [hnil]
    rw [hoffset] at h
    simp only at h
    rw [parseBody, if_pos (by unfold checkSumLen; omega)] at h
    obtain rfl := Except.ok.inj h
    exact hfinal rfl
  obtain ⟨hdigits, hoffset⟩ := bodyLength_append (x := x) hlen hstop
  rw [hdigits, hoffset, hvalue, fixTypeOf_append hlen]
  cases hp : bodyOffset b with
  | none =>
      rw [hp] at h
      exact ⟨_, rfl, hrejected (by decide) (by decide) h⟩
  | some p =>
      rw [hp] at h
      simp only at h ⊢
      by_cases hguard : ((decimal (bodyLengthDigits b) : Nat) : Int) = 0 ∨
          ((decimal (bodyLengthDigits b) : Nat) : Int) > (b.length : Int) - p - (checkSumLen : Nat)
      · rw [parseBody, if_pos hguard] at h
        obtain rfl := Except.ok.inj h
        exact (hfinal rfl).elim
      · rw [parseBody_append (Int.natCast_nonneg _) hguard hlonger]
        refine ⟨run, h, rfl, rfl, List.map_congr_left fun call hcall => ?_, fun _ => rfl⟩
        exact event_append (hcalls call hcall).inRange

/-- **Only "too short" is preliminary**: every other outcome stays when bytes are
appended, and every proper prefix of an accepted message is too short. -/
theorem vmarsFixParseMsg_final (hfits : BodyLengthFits b) :
    (∀ x run, vmarsFixParseMsg b b.length options = .ok run →
      run.ret.result ≠ .messageTooShort →
      ∃ run', vmarsFixParseMsg (b ++ x) (b ++ x).length options = .ok run' ∧
        SameOutcome b x run run') ∧
      ∀ run, vmarsFixParseMsg b b.length options = .ok run → run.ret.result = .ok →
        ∀ k : Nat, (k : Int) < run.ret.bytesConsumed →
          vmarsFixParseMsg (b.take k) (b.take k).length options =
            .ok (rejected .messageTooShort (b.take k).length) := by
  refine ⟨fun x run h hfinal => vmarsFixParseMsg_append hfits h hfinal, fun run h hok k hk => ?_⟩
  have hin := (vmarsFixParseMsg_consumes h).le_len
  have hlength : (b.take k).length = k := by rw [List.length_take]; omega
  obtain ⟨short, hshort, -⟩ := @vmarsFixParseMsg_isOk _ _ options
    (Nat.le_refl (b.take k).length) (by rw [List.take_length]; exact hfits.take.inRange)
  have htoo : short.ret.result = .messageTooShort := by
    refine Classical.byContradiction fun hfinal => ?_
    -- the outcome of the prefix would be that of the whole, with more bytes than it has
    obtain ⟨run', hrun', hsame⟩ := vmarsFixParseMsg_append (x := b.drop k) hfits.take hshort hfinal
    rw [List.take_append_drop, h] at hrun'
    obtain rfl := Except.ok.inj hrun'
    have hconsumed := hsame.consumed_eq (.inl (hsame.result_eq ▸ hok))
    have hle := (vmarsFixParseMsg_consumes hshort).le_len
    rw [hlength] at hle
    omega
  rw [hshort, eq_rejected_of_tooShort hshort htoo]

end Extension

/-- A complete order is accepted with bytes behind it and too short without its end. -/
theorem vmarsFixParseMsg_final_newOrder :
    (∃ run', vmarsFixParseMsg (newOrderBytes ++ ascii "8=") (newOrderBytes ++ ascii "8=").length 0 =
        .ok run' ∧ run'.ret = { result := .ok, bytesConsumed := 26 }) ∧
      vmarsFixParseMsg (newOrderBytes.take 25) (newOrderBytes.take 25).length 0 =
        .ok (rejected .messageTooShort (newOrderBytes.take 25).length) := by
  have hrun : vmarsFixParseMsg newOrderBytes newOrderBytes.length 0 =
      .ok { ret := { result := .ok, bytesConsumed := 26 }
            calls :=
              [.startp 5 42, .tagp 35 (.inBuffer 17 1), .tagp 10 (.inBuffer 22 3), .endp] } := by
    decide +kernel
  obtain ⟨hextend, hprefix⟩ := @vmarsFixParseMsg_final newOrderBytes 0 (by decide)
  refine ⟨?_, hprefix _ hrun rfl 25 (by decide)⟩
  obtain ⟨run', hrun', hsame⟩ := hextend (ascii "8=") _ hrun (by decide)
  refine ⟨run', hrun', ?_⟩
  have hresult := hsame.result_eq
  have hconsumed := hsame.consumed_eq (.inl rfl)
  cases hret : run'.ret
  rw [hret] at hresult hconsumed
  simp only at hresult hconsumed
  rw [hresult, hconsumed]

end Vmars
