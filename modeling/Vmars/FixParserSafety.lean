import Vmars.FixParserLoops

/-!
# Bounds and acceptance of the parser

What the parser does on an arbitrary buffer, well formed or not.

* `vmarsFixParseMsg_eq` — the outcome is decided by the header, by the byte
  after the digits of BodyLength and by `parseBody`;
* `parseBody_isOk` / `parseBody_of_neg` — `parseBody` stays inside the buffer
  when BodyLength, as an `int`, does not lead before its start, and reads in
  front of the buffer otherwise;
* `inBounds_iff` — the two together;
* `accepted_trailer` — what an accepted buffer has in its last seven bytes.
-/

namespace Vmars

open CMemory

/-! ## The scan of BodyLength on any buffer -/

/-- The buffer starts with one of the two headers. -/
def HasFixHeader (buf : List UInt8) : Prop :=
  initialHeader42 <+: buf ∨ initialHeader44 <+: buf

instance (buf : List UInt8) : Decidable (HasFixHeader buf) :=
  inferInstanceAs (Decidable (_ ∨ _))

/-- The digits behind the header. -/
def bodyLengthDigits (buf : List UInt8) : List UInt8 :=
  (buf.drop initialHeaderLen).takeWhile isDigit

/-- Where the scan of BodyLength stops: behind the SOH that ends the digits, or
at the end of a buffer that they fill; nowhere when another byte follows them. -/
def bodyOffset (buf : List UInt8) : Option Nat :=
  match (buf.drop initialHeaderLen).dropWhile isDigit with
  | [] => some buf.length
  | b :: _ =>
      if b = SOH then some (initialHeaderLen + (bodyLengthDigits buf).length + 1) else none

/-- The type that a buffer with a header gets. -/
def fixTypeOf (buf : List UInt8) : Int := if initialHeader44 <+: buf then 44 else 42

/-- A header is in the front of the message or in none. -/
theorem isPrefix_take {buf header : List UInt8} {len : Nat} (h : header.length ≤ len) :
    header <+: buf.take len ↔ header <+: buf := by
  rw [List.prefix_take_iff]
  exact and_iff_left h

/-- A message with a header is not shorter than it. -/
theorem HasFixHeader.le_length {buf : List UInt8} (h : HasFixHeader buf) :
    initialHeaderLen ≤ buf.length := by
  have h42 : initialHeader42.length = initialHeaderLen := rfl
  have h44 : initialHeader44.length = initialHeaderLen := rfl
  rcases h with h | h
  · exact h42 ▸ h.length_le
  · exact h44 ▸ h.length_le

/-- The scan of BodyLength, on the bytes before `len`. -/
theorem bodyLengthLoop_eq {buf : List UInt8} {len : Nat} (hlo : initialHeaderLen ≤ len)
    (hhi : len ≤ buf.length) :
    bodyLengthLoop buf (len - initialHeaderLen) initialHeaderLen =
      .ok ((bodyOffset (buf.take len)).map fun p =>
        (wrap32 (decimal (bodyLengthDigits (buf.take len))), p)) := by
  have hloop := @numberLoop_eq SOH buf (len - initialHeaderLen) initialHeaderLen 0 (by omega)
  have hzero : wrap32 ((0 : Nat) : Int) = 0 := by decide
  have hdecimal : ∀ digits, decimalFrom 0 digits = decimal digits := fun _ => rfl
  rw [← List.drop_take, hzero] at hloop
  simp only [hdecimal] at hloop
  rw [bodyLengthLoop, hloop]
  unfold bodyOffset bodyLengthDigits
  cases ((buf.take len).drop initialHeaderLen).dropWhile isDigit with
  | nil => simp only [Option.map_some, List.length_take]; congr 3; omega
  | cons b tail =>
      by_cases hb : b = SOH
      · simp only [if_pos hb, Option.map_some]
      · simp only [if_neg hb, Option.map_none]

/-- What the parser does on any buffer, up to the scan of BodyLength. -/
theorem vmarsFixParseMsg_eq {buf : List UInt8} {len : Nat} {options : Int32}
    (h : len ≤ buf.length) :
    vmarsFixParseMsg buf len options =
      if len < initialHeaderLen then .ok (rejected .messageTooShort len)
      else if HasFixHeader (buf.take len) then
        match bodyOffset (buf.take len) with
        | none => .ok (rejected .tagInvalid len)
        | some p =>
            parseBody buf len (fixTypeOf (buf.take len)) options
              (wrap32 (decimal (bodyLengthDigits (buf.take len)))) p
      else .ok (rejected .invalidType len) := by
  by_cases hshort : len < initialHeaderLen
  · have hguard : (initialHeaderLen : Int) > len := by omega
    rw [vmarsFixParseMsg, if_pos hguard, if_pos hshort]
  have hguard : ¬ (initialHeaderLen : Int) > len := by omega
  have hn : ((len : Int) - (initialHeaderLen : Nat)).toNat = len - initialHeaderLen := by omega
  have hlen : initialHeaderLen ≤ buf.length := by omega
  have h42 := @strncmpEq_eq buf initialHeader42 0 (by rw [Nat.zero_add]; exact hlen)
  have h44 := @strncmpEq_eq buf initialHeader44 0 (by rw [Nat.zero_add]; exact hlen)
  have hscan := bodyLengthLoop_eq (Nat.le_of_not_lt hshort) h
  have hshorter : ∀ header : List UInt8, header.length = initialHeaderLen →
      decide (header <+: buf) = decide (header <+: buf.take len) := fun header hheader =>
    decide_eq_decide.mpr (isPrefix_take (hheader ▸ Nat.le_of_not_lt hshort)).symm
  rw [List.drop_zero, hshorter _ rfl] at h42 h44
  simp only [vmarsFixParseMsg, if_neg hguard, hn, h42, h44, hscan, ok_bind, if_neg hshort]
  generalize buf.take len = bytes
  by_cases hheader : HasFixHeader bytes
  · have htype : (if decide (initialHeader44 <+: bytes) = true then 44
        else if decide (initialHeader42 <+: bytes) = true then 42 else -1) = fixTypeOf bytes := by
      unfold fixTypeOf
      rcases hheader with h | h
      · simp [h]
      · simp [h]
    have hne : fixTypeOf bytes ≠ -1 := by
      unfold fixTypeOf
      split <;> decide
    rw [htype, if_neg hne, if_pos hheader]
    cases bodyOffset bytes with
    | none => rfl
    | some p => rfl
  · have htype : (if decide (initialHeader44 <+: bytes) = true then 44
        else if decide (initialHeader42 <+: bytes) = true then 42 else -1) = (-1 : Int) := by
      unfold HasFixHeader at hheader
      simp only [not_or] at hheader
      simp [hheader.1, hheader.2]
    rw [htype, if_pos rfl, if_neg hheader]

/-! ## The field loop on any buffer -/

/-- The range of the buffer that a call hands out lies in the first `n` bytes.
The calculated checksum is no part of the buffer. -/
def Callback.InRange (n : Nat) : Callback → Prop
  | .tagp _ (.inBuffer start len) => start + len ≤ n
  | _ => True

/-- The byte behind the range that a call hands out, its SOH, still lies in the
first `n` bytes; the calculated checksum is handed out for tag 10 only. -/
def Callback.EndsBelow (n : Nat) : Callback → Prop
  | .tagp _ (.inBuffer start len) => start + len < n
  | .tagp tag (.calculatedChecksumStr _) => tag = 10
  | _ => True

/-- What ends below a position ends below a later one. -/
theorem Callback.EndsBelow.mono {c : Callback} {m n : Nat} (h : c.EndsBelow m) (hle : m ≤ n) :
    c.EndsBelow n := by
  unfold Callback.EndsBelow at *
  split at h
  · exact Nat.lt_of_lt_of_le h hle
  · exact h
  · trivial

/-- What ends inside the message is inside of it. -/
theorem Callback.EndsBelow.inRange {c : Callback} {n : Nat} (h : c.EndsBelow n) : c.InRange n := by
  unfold Callback.EndsBelow at h
  unfold Callback.InRange
  split at h
  · exact Nat.le_of_lt h
  · trivial
  · next hother _ =>
    split
    · exact (hother _ _ _ rfl).elim
    · trivial

/-- A round that goes on has moved forward, and not past its bytes. -/
theorem fieldStep_progress {options : Int32} {calculated tag : Int} {position next : Nat}
    {rest : List UInt8} {value : TagValue}
    (h : fieldStep options calculated position rest = .call tag value next) :
    position < next ∧ next ≤ position + rest.length ∧
      (Callback.tagp tag value).EndsBelow (position + rest.length) := by
  obtain ⟨digits, chars, post, hrest, -, -, -, hnext, hvalue⟩ := fieldStep_call h
  have hlen := congrArg List.length hrest
  simp only [List.length_append, List.length_cons] at hlen
  refine ⟨by omega, by omega, ?_⟩
  rw [hvalue]
  split
  · next hten => exact hten.2
  · show position + digits.length + 1 + chars.length < position + rest.length
    omega

/-- With a round for every byte the field loop ends, and all that it hands out
lies below `len`. -/
theorem fieldLoop_isOk {buf : List UInt8} {len fuel position : Nat} {options : Int32}
    {calculated : Int} (h : len ≤ buf.length) (hfuel : len - position < fuel) :
    ∃ run, fieldLoop buf len options calculated fuel position = .ok run ∧
      ∀ c ∈ run.2, c.EndsBelow len := by
  induction fuel generalizing position with
  | zero => omega
  | succ fuel ih =>
      have hlength : ((buf.take len).drop position).length = len - position := by simp; omega
      simp only [fieldLoop, fieldRound_eq h, ok_bind]
      cases hround : fieldStep options calculated position ((buf.take len).drop position) with
      | stop result => exact ⟨_, rfl, by simp⟩
      | call tag value next =>
          obtain ⟨hlt, hle, hrange⟩ := fieldStep_progress hround
          by_cases hp : len ≤ position
          · omega
          rw [hlength, Nat.add_sub_cancel' (Nat.le_of_not_le hp)] at hle hrange
          by_cases hnext : next < len
          · obtain ⟨run, hrun, hall⟩ := @ih next (by omega)
            refine ⟨(run.1, .tagp tag value :: run.2), ?_, ?_⟩
            · simp only [hrun, ok_bind]
              rw [if_pos (by omega)]
            · intro c hc
              rcases List.mem_cons.mp hc with rfl | hc
              · exact hrange
              · exact hall c hc
          · refine ⟨(.ok, [.tagp tag value]), ?_, ?_⟩
            · simp only
              rw [if_neg (by omega)]
            · intro c hc
              obtain rfl := List.mem_singleton.mp hc
              exact hrange

/-- A field as the loop reads it: any digits, `'='`, any characters, SOH. -/
structure RawField where
  digits : List UInt8
  chars : List UInt8

/-- The bytes of a field as the loop reads it. -/
def RawField.encode (field : RawField) : List UInt8 :=
  field.digits ++ equalsSign :: field.chars ++ [SOH]

/-- The loop reads the field like this: digits before `'='`, no SOH in the value. -/
structure RawField.IsRead (field : RawField) : Prop where
  isDigit_of_mem : ∀ b ∈ field.digits, isDigit b = true
  no_soh : SOH ∉ field.chars

/-- The tag that is reported for a field: its digits accumulated in an `int`. -/
def RawField.tag (field : RawField) : Int := wrap32 (decimal field.digits)

/-- The calls for a list of fields of which the first starts at `start`. -/
def rawCalls (options : Int32) (calculated : Int) : Nat → List RawField → List Callback
  | _, [] => []
  | start, field :: fields =>
      .tagp field.tag
          (if optReportCalculatedChecksum options ∧ field.tag = 10 then
            .calculatedChecksumStr (checksumStr calculated)
          else .inBuffer (start + field.digits.length + 1) field.chars.length) ::
        rawCalls options calculated (start + field.encode.length) fields

/-- A field has its digits, its value, `=` and SOH. -/
theorem RawField.encode_length (field : RawField) :
    field.encode.length = field.digits.length + field.chars.length + 2 := by
  simp [encode]
  omega

/-- The field loop returns 0 only at the end of a list of fields, all of which it has
reported. -/
theorem fieldLoop_ok {buf : List UInt8} {len fuel position : Nat} {options : Int32}
    {calculated : Int} {calls : List Callback} (h : len ≤ buf.length)
    (hrun : fieldLoop buf len options calculated fuel position = .ok (.ok, calls)) :
    ∃ fields : List RawField, fields ≠ [] ∧ (∀ field ∈ fields, field.IsRead) ∧
      (buf.take len).drop position = fields.flatMap RawField.encode ∧
      calls = rawCalls options calculated position fields := by
  induction fuel generalizing position calls with
  | zero => cases hrun
  | succ fuel ih =>
      simp only [fieldLoop, fieldRound_eq h, ok_bind] at hrun
      cases hround : fieldStep options calculated position ((buf.take len).drop position) with
      | stop result =>
          simp only [hround] at hrun
          -- a round that stops never reports success
          have hstop : result ≠ .ok := by
            unfold fieldStep at hround
            grind
          simp only [Except.ok.injEq, Prod.mk.injEq] at hrun
          exact absurd hrun.1 hstop
      | call tag value next =>
          simp only [hround] at hrun
          obtain ⟨digits, chars, post, hrest, hdigits, hchars, htag, hnext, hvalue⟩ :=
            fieldStep_call hround
          have hread : RawField.IsRead ⟨digits, chars⟩ := ⟨hdigits, hchars⟩
          have hlength := RawField.encode_length ⟨digits, chars⟩
          have hwidth : next = position + (RawField.encode ⟨digits, chars⟩).length := by
            rw [hlength]
            simp only
            omega
          have hpost : (buf.take len).drop next = post := by
            rw [hwidth, ← List.drop_drop, hrest,
              show digits ++ equalsSign :: chars ++ SOH :: post =
                RawField.encode ⟨digits, chars⟩ ++ post by simp [RawField.encode], List.drop_left]
          have hcalls : ∀ fields, .tagp tag value :: rawCalls options calculated next fields =
              rawCalls options calculated position (⟨digits, chars⟩ :: fields) := by
            intro fields
            rw [rawCalls, ← hwidth, hvalue, htag]
            rfl
          by_cases hlt : (next : Int) < len
          · rw [if_pos hlt] at hrun
            obtain ⟨⟨result, rest⟩, hrun', heq⟩ := bind_eq_ok.mp hrun
            simp only [Except.ok.injEq, Prod.mk.injEq] at heq
            obtain ⟨rfl, rfl⟩ := heq
            obtain ⟨fields, -, hall, hfields, rfl⟩ := ih hrun'
            refine ⟨⟨digits, chars⟩ :: fields, by simp, ?_, ?_, hcalls fields⟩
            · intro field hfield
              rcases List.mem_cons.mp hfield with rfl | hfield
              · exact hread
              · exact hall field hfield
            · rw [hrest, List.flatMap_cons, ← hfields, hpost, RawField.encode]
              simp
          · have hnil : post = [] := by
              rw [← hpost]
              exact List.drop_eq_nil_of_le (by simp; omega)
            simp only [if_neg hlt, Except.ok.injEq, Prod.mk.injEq, true_and] at hrun
            subst hrun
            refine ⟨[⟨digits, chars⟩], by simp, ?_, ?_, hcalls []⟩
            · intro field hfield
              obtain rfl := List.mem_singleton.mp hfield
              exact hread
            · rw [hrest, hnil]
              simp [RawField.encode]

/-- A list of fields ends with SOH. -/
theorem getLast?_fields {fields : List RawField} (hne : fields ≠ []) :
    (fields.flatMap RawField.encode).getLast? = some SOH := by
  induction fields with
  | nil => exact (hne rfl).elim
  | cons field fields ih =>
      rw [List.flatMap_cons, List.getLast?_append]
      cases fields with
      | nil =>
          rw [RawField.encode, List.getLast?_append]
          rfl
      | cons field' fields' =>
          rw [ih (by simp)]
          rfl

/-! ## The body on any buffer -/

/-- A body that does not end before the buffer starts is parsed inside the
buffer. -/
theorem parseBody_isOk {buf : List UInt8} {len position : Nat} {fixType msgLen : Int}
    {options : Int32} (h : len ≤ buf.length) (hnonneg : 0 ≤ msgLen + position) :
    ∃ run, parseBody buf len fixType options msgLen position = .ok run ∧
      (∀ c ∈ run.calls, c.EndsBelow len) ∧
      0 ≤ run.ret.bytesConsumed ∧ run.ret.bytesConsumed ≤ len := by
  by_cases hguard : msgLen = 0 ∨ msgLen > (len : Int) - position - (checkSumLen : Nat)
  · exact ⟨_, by rw [parseBody, if_pos hguard], by simp [rejected], by simp [rejected],
      by simp [rejected]⟩
  obtain ⟨n, hn⟩ := Int.eq_ofNat_of_zero_le hnonneg
  have hend : (n : Int) + (checkSumLen : Nat) = ((n + checkSumLen : Nat) : Int) := rfl
  have htrailer : (position : Int) + msgLen + 3 = ((n + 3 : Nat) : Int) := by omega
  have hfits : n + checkSumLen ≤ len := by omega
  have hfits7 : n + 7 ≤ len := hfits
  simp only [parseBody, if_neg hguard, hn, hend, htrailer,
    calculateChecksum_natCast (show n ≤ buf.length by omega),
    suppliedChecksum_natCast (show n + 3 + 2 < buf.length by omega), ok_bind]
  split
  · refine ⟨_, rfl, by simp [rejected], ?_, ?_⟩
    · simp only [rejected]; omega
    · simp only [rejected, checkSumLen]; omega
  · obtain ⟨loop, hloop, hall⟩ := @fieldLoop_isOk buf (n + checkSumLen)
      ((((n + checkSumLen : Nat) : Int) - position).toNat + 1) position options
      ((byteSum (buf.take n) % 256 : Nat) : Int) (by unfold checkSumLen; omega) (by omega)
    rw [hloop, ok_bind]
    refine ⟨_, rfl, ?_, ?_, ?_⟩
    · intro c hc
      rcases List.mem_append.mp hc with hc | hc
      · rcases List.mem_cons.mp hc with rfl | hc
        · trivial
        · exact (hall c hc).mono hfits
      · split at hc
        · obtain rfl := List.mem_singleton.mp hc
          trivial
        · cases hc
    · simp only; omega
    · simp only [checkSumLen]; omega

/-- A body that ends before the buffer starts makes the parser read in front of
the buffer: in the tail of the checksum, or in the supplied checksum when the
length before it is a multiple of eight. -/
theorem parseBody_of_neg {buf : List UInt8} {len position : Nat} {fixType msgLen : Int}
    {options : Int32} (hlen : checkSumLen ≤ len) (hneg : msgLen + position < 0) :
    ∃ fault, parseBody buf len fixType options msgLen position = .error fault := by
  have hguard : ¬ (msgLen = 0 ∨ msgLen > (len : Int) - position - (checkSumLen : Nat)) := by omega
  have hblocks : ((msgLen + position) / 8).toNat = 0 := by omega
  by_cases hextra : (msgLen + position) % 8 = 0
  · have hsum : calculateChecksum buf (msgLen + position) = .ok 0 := by
      simp [calculateChecksum, hblocks, checksumBlocks, hextra, checksumTail]
    have hsupplied : ∃ fault, suppliedChecksum buf (position + msgLen + 3) = .error fault :=
      ⟨_, by rw [suppliedChecksum, readAt_of_neg (by omega), error_bind]⟩
    obtain ⟨fault, hsupplied⟩ := hsupplied
    exact ⟨fault, by simp only [parseBody, if_neg hguard, hsum, hsupplied, ok_bind, error_bind]⟩
  · obtain ⟨k, hk⟩ : ∃ k, ((msgLen + position) % 8).toNat = k + 1 :=
      ⟨((msgLen + position) % 8).toNat - 1, by omega⟩
    have hsum : ∃ fault, calculateChecksum buf (msgLen + position) = .error fault := by
      refine ⟨.outOfBounds (msgLen + position - (msgLen + position) % 8), ?_⟩
      simp only [calculateChecksum, hblocks, checksumBlocks, ok_bind, hk, checksumTail]
      rw [readAt_of_neg (by omega), error_bind, error_bind]
    obtain ⟨fault, hsum⟩ := hsum
    exact ⟨fault, by simp only [parseBody, if_neg hguard, hsum, error_bind]⟩

/-! ## Reading inside the buffer -/

/-- Behind a header, BodyLength as an `int` does not lead from the first byte of
the body to before the buffer.  Nothing is asked of a buffer without a header,
or where another byte than SOH follows the digits. -/
def BodyLengthInRange (buf : List UInt8) : Prop :=
  HasFixHeader buf → ∀ p ∈ bodyOffset buf, 0 ≤ wrap32 (decimal (bodyLengthDigits buf)) + p

/-- With BodyLength in range the parser stays inside the first `len` bytes. -/
theorem vmarsFixParseMsg_isOk {buf : List UInt8} {len : Nat} {options : Int32}
    (h : len ≤ buf.length) (hrange : BodyLengthInRange (buf.take len)) :
    ∃ run, vmarsFixParseMsg buf len options = .ok run ∧ (∀ c ∈ run.calls, c.EndsBelow len) ∧
      0 ≤ run.ret.bytesConsumed ∧ run.ret.bytesConsumed ≤ len := by
  have hrejected : ∀ result, ∃ run, .ok (rejected result len) = (.ok run : Checked ParseRun) ∧
      (∀ c ∈ run.calls, c.EndsBelow len) ∧
      0 ≤ run.ret.bytesConsumed ∧ run.ret.bytesConsumed ≤ len := fun result =>
    ⟨_, rfl, by simp [rejected], by simp [rejected], by simp [rejected]⟩
  rw [vmarsFixParseMsg_eq h]
  split
  · exact hrejected _
  split
  case isFalse => exact hrejected _
  next hheader =>
  cases hoffset : bodyOffset (buf.take len) with
  | none => exact hrejected _
  | some p => exact parseBody_isOk h (hrange hheader p hoffset)

/-- With BodyLength out of range the parser reads in front of the buffer. -/
theorem vmarsFixParseMsg_of_not_inRange {buf : List UInt8} {len : Nat} {options : Int32}
    (h : len ≤ buf.length) (hrange : ¬ BodyLengthInRange (buf.take len)) :
    ∃ fault, vmarsFixParseMsg buf len options = .error fault := by
  unfold BodyLengthInRange at hrange
  rw [Classical.not_imp] at hrange
  obtain ⟨hheader, hoffset⟩ := hrange
  simp only [not_forall] at hoffset
  obtain ⟨p, hp, hneg⟩ := hoffset
  have hlen := hheader.le_length
  rw [List.length_take] at hlen
  rw [vmarsFixParseMsg_eq h, if_neg (by omega), if_pos hheader, hp]
  have hlong : checkSumLen ≤ len := by
    unfold initialHeaderLen checkSumLen at *
    omega
  exact parseBody_of_neg hlong (Int.not_le.mp hneg)

/-! ## Runs of any claimed length -/

/-- The field loop never reports that the message is too short, and reports
success only from a position before `len`. -/
theorem fieldLoop_result {buf : List UInt8} {len calculated : Int} {fuel position : Nat}
    {options : Int32} {run : FixResult × List Callback}
    (h : fieldLoop buf len options calculated fuel position = .ok run) :
    run.1 ≠ .messageTooShort ∧ (run.1 = .ok → (position : Int) < len) := by
  induction fuel generalizing position run with
  | zero => cases h
  | succ fuel ih =>
      obtain ⟨round, hround, h⟩ := bind_eq_ok.mp h
      obtain ⟨scan, htag, hround⟩ := bind_eq_ok.mp hround
      cases scan with
      | none =>
          cases hround
          cases h
          exact ⟨by simp, by simp⟩
      | some scan =>
          obtain ⟨value, hvalue, hround⟩ := bind_eq_ok.mp hround
          cases value with
          | none =>
              cases hround
              cases h
              exact ⟨by simp, by simp⟩
          | some next =>
              -- at the end of the bytes no value is found
              have hlt : (position : Int) < len := by
                refine Int.not_le.mp fun hge => ?_
                have hzero : (len - (position : Int)).toNat = 0 := by omega
                rw [hzero] at htag
                cases htag
                simp only [hzero] at hvalue
                cases hvalue
              have hcall : ∃ tag value, round = .call tag value next := by
                simp only at hround
                split at hround <;> cases hround <;> exact ⟨_, _, rfl⟩
              obtain ⟨tag, value, rfl⟩ := hcall
              simp only at h
              split at h
              · obtain ⟨rest, hrest, h⟩ := bind_eq_ok.mp h
                cases h
                exact ⟨(ih hrest).1, fun _ => hlt⟩
              · cases h
                exact ⟨by simp, fun _ => hlt⟩

/-- What a result of the parser on `len` bytes says about `bytes_consumed`. -/
structure Consumes (len : Nat) (ret : VmarsFixParseResult) : Prop where
  nonneg : 0 ≤ ret.bytesConsumed
  le_len : ret.bytesConsumed ≤ len
  all_of_tooShort : ret.result = .messageTooShort → ret.bytesConsumed = len
  lt_of_ok : ret.result = .ok → (initialHeaderLen : Int) < ret.bytesConsumed

theorem consumes_rejected (len : Nat) {result : FixResult} (hne : result ≠ .ok) :
    Consumes len (rejected result len).ret :=
  ⟨Int.natCast_nonneg _, Int.le_refl _, fun _ => rfl, fun hok => (hne hok).elim⟩

/-- Behind BodyLength the parser consumes the message that it describes, or all bytes. -/
theorem parseBody_consumes {buf : List UInt8} {len position : Nat} {fixType msgLen : Int}
    {options : Int32} {run : ParseRun} (hlen : initialHeaderLen ≤ len)
    (hposition : initialHeaderLen ≤ position)
    (h : parseBody buf len fixType options msgLen position = .ok run) : Consumes len run.ret := by
  by_cases hneg : msgLen + position < 0
  · obtain ⟨fault, hfault⟩ := @parseBody_of_neg buf len _ fixType _ options
      (Nat.le_trans (by decide) hlen) hneg
    rw [hfault] at h
    cases h
  unfold parseBody at h
  split at h
  · obtain rfl := Except.ok.inj h
    exact consumes_rejected len (by simp)
  next hguard =>
  obtain ⟨calculated, -, h⟩ := bind_eq_ok.mp h
  obtain ⟨checksum, -, h⟩ := bind_eq_ok.mp h
  have hbounds : 0 ≤ msgLen + position + (checkSumLen : Nat) ∧
      msgLen + position + (checkSumLen : Nat) ≤ len := by
    omega
  split at h
  · cases h
    exact ⟨hbounds.1, hbounds.2, by simp [rejected], by simp [rejected]⟩
  · obtain ⟨fields, hfields, h⟩ := bind_eq_ok.mp h
    cases h
    obtain ⟨hne, hlt⟩ := fieldLoop_result hfields
    refine ⟨hbounds.1, hbounds.2, fun hshort => (hne hshort).elim, fun hok => ?_⟩
    have := hlt hok
    simp only
    omega

/-- The bytes consumed by every run of the parser that returns, also when `len`
leads behind the end of the buffer. -/
theorem vmarsFixParseMsg_consumes {buf : List UInt8} {len : Nat} {options : Int32} {run : ParseRun}
    (h : vmarsFixParseMsg buf len options = .ok run) : Consumes len run.ret := by
  unfold vmarsFixParseMsg at h
  split at h
  · obtain rfl := Except.ok.inj h
    exact consumes_rejected len (by simp)
  next hlong =>
  obtain ⟨is42, -, h⟩ := bind_eq_ok.mp h
  obtain ⟨is44, -, h⟩ := bind_eq_ok.mp h
  simp only at h
  generalize (if is44 = true then (44 : Int) else if is42 = true then 42 else -1) = fixType at h
  split at h
  · obtain rfl := Except.ok.inj h
    exact consumes_rejected len (by simp)
  obtain ⟨scan, hscan, h⟩ := bind_eq_ok.mp h
  cases scan with
  | none =>
      obtain rfl := Except.ok.inj h
      exact consumes_rejected len (by simp)
  | some scan => exact parseBody_consumes (by omega) (numberLoop_le hscan) h

/-- A run of the parser on a whole buffer stays inside it: every read, every
range handed to `tagp` and the number of consumed bytes. -/
def InBounds (buf : List UInt8) (options : Int32) : Prop :=
  ∃ run, vmarsFixParseMsg buf buf.length options = .ok run ∧
    (∀ c ∈ run.calls, c.InRange buf.length) ∧
    0 ≤ run.ret.bytesConsumed ∧ run.ret.bytesConsumed ≤ buf.length

/-- **The parser stays in bounds exactly when BodyLength does.**  The guard
against the end of the buffer lets every negative `int` through. -/
theorem inBounds_iff (buf : List UInt8) (options : Int32) :
    InBounds buf options ↔ BodyLengthInRange buf := by
  constructor
  · rintro ⟨run, hrun, -⟩
    refine Classical.byContradiction fun hrange => ?_
    rw [← List.take_length (l := buf)] at hrange
    obtain ⟨fault, hfault⟩ := @vmarsFixParseMsg_of_not_inRange _ _ options
      (Nat.le_refl buf.length) hrange
    rw [hfault] at hrun
    cases hrun
  · intro hrange
    rw [← List.take_length (l := buf)] at hrange
    obtain ⟨run, hrun, hcalls, hlo, hhi⟩ := @vmarsFixParseMsg_isOk _ _ options
      (Nat.le_refl buf.length) hrange
    exact ⟨run, hrun, fun c hc => (hcalls c hc).inRange, hlo, hhi⟩

/-- BodyLength `4294967196` is `-100` as an `int`: the checksum is then taken
over the bytes from index `-80` on. -/
def negativeBodyLength : List UInt8 :=
  ascii "8=FIX.4.2" ++ SOH :: ascii "9=4294967196" ++ SOH :: ascii "35=D" ++ [SOH]

/-- A BodyLength of ten digits wraps to -100: the checksum is taken in front of the buffer. -/
theorem not_inBounds_negativeBodyLength :
    vmarsFixParseMsg negativeBodyLength negativeBodyLength.length 0 = .error (.outOfBounds (-80)) ∧
      ¬ InBounds negativeBodyLength 0 := by
  have hrun : vmarsFixParseMsg negativeBodyLength negativeBodyLength.length 0 =
      .error (.outOfBounds (-80)) := by decide
  refine ⟨hrun, ?_⟩
  rintro ⟨run, hok, -⟩
  rw [hrun] at hok
  cases hok

/-! ## Accepted buffers -/

/-- What the parser has seen when it returns 0: the body starts at `p` and ends at
`k`, where the seven bytes of the trailer begin, and the fields reach from `p` to the
end of the trailer. -/
structure AcceptedAt (buf : List UInt8) (len : Nat) (options : Int32) (p k : Nat)
    (fields : List RawField) (run : ParseRun) : Prop where
  header : HasFixHeader (buf.take len)
  offset : bodyOffset (buf.take len) = some p
  bodyLength : wrap32 (decimal (bodyLengthDigits (buf.take len))) + p = k
  le_len : k + checkSumLen ≤ len
  checksum : optValidateChecksum options = true → ∃ b0 b1 b2, buf[k + 3]? = some b0 ∧
    buf[k + 4]? = some b1 ∧ buf[k + 5]? = some b2 ∧
    suppliedValue b0 b1 b2 = (byteSum (buf.take k) % 256 : Nat)
  ne_nil : fields ≠ []
  isRead : ∀ field ∈ fields, field.IsRead
  fields_eq : (buf.take (k + checkSumLen)).drop p = fields.flatMap RawField.encode
  run_eq : run =
    { ret := { result := .ok, bytesConsumed := (k + checkSumLen : Nat) }
      calls := .startp (wrap32 (decimal (bodyLengthDigits (buf.take len))))
          (fixTypeOf (buf.take len)) ::
        rawCalls options (byteSum (buf.take k) % 256 : Nat) p fields ++ [.endp] }

/-- Every run that returns 0 has done so. -/
theorem vmarsFixParseMsg_accepted {buf : List UInt8} {len : Nat} {options : Int32}
    {run : ParseRun} (hlen : len ≤ buf.length)
    (hrun : vmarsFixParseMsg buf len options = .ok run) (hok : run.ret.result = .ok) :
    ∃ p k fields, AcceptedAt buf len options p k fields run := by
  rw [vmarsFixParseMsg_eq hlen] at hrun
  have hrejected : ∀ result, result ≠ .ok → .ok (rejected result len) = (.ok run : Checked ParseRun) →
      False := by
    intro result hne h
    cases h
    exact hne hok
  split at hrun
  · exact (hrejected _ (by decide) hrun).elim
  split at hrun
  case isFalse => exact (hrejected _ (by decide) hrun).elim
  next hshort hheader =>
  cases hoffset : bodyOffset (buf.take len) with
  | none =>
      simp only [hoffset] at hrun
      exact (hrejected _ (by decide) hrun).elim
  | some p =>
      simp only [hoffset] at hrun
      generalize hv : wrap32 (decimal (bodyLengthDigits (buf.take len))) = msgLen at hrun
      by_cases hguard : msgLen = 0 ∨ msgLen > (len : Int) - p - (checkSumLen : Nat)
      · rw [parseBody, if_pos hguard] at hrun
        exact (hrejected _ (by decide) hrun).elim
      by_cases hneg : msgLen + p < 0
      · obtain ⟨fault, hfault⟩ := @parseBody_of_neg buf len _ (fixTypeOf (buf.take len)) _ options
          (Nat.le_trans (by decide) (Nat.le_of_not_lt hshort)) hneg
        rw [hfault] at hrun
        cases hrun
      obtain ⟨k, hk⟩ := Int.eq_ofNat_of_zero_le (Int.not_lt.mp hneg)
      have hend : (k : Int) + (checkSumLen : Nat) = ((k + checkSumLen : Nat) : Int) := rfl
      have htrailer : (p : Int) + msgLen + 3 = ((k + 3 : Nat) : Int) := by omega
      have hfits : k + checkSumLen ≤ len := by omega
      have hk6 : k + 7 ≤ buf.length := Nat.le_trans hfits hlen
      simp only [parseBody, if_neg hguard, hk, hend, htrailer,
        calculateChecksum_natCast (show k ≤ buf.length by omega),
        suppliedChecksum_natCast (show k + 3 + 2 < buf.length by omega), ok_bind] at hrun
      split at hrun
      · cases hrun
        cases hok
      next hsum =>
      obtain ⟨⟨result, calls⟩, hloop, heq⟩ := bind_eq_ok.mp hrun
      obtain rfl : result = .ok := by
        cases heq
        exact hok
      obtain ⟨fields, hne, hread, hfields, rfl⟩ := fieldLoop_ok (Nat.le_trans hfits hlen) hloop
      refine ⟨p, k, fields, hheader, hoffset, hv ▸ hk, hfits, fun hvalidate => ?_, hne, hread,
        hfields, hv ▸ (Except.ok.inj heq).symm⟩
      have hvalue : suppliedValue buf[k + 3] buf[k + 4] buf[k + 5] =
          (byteSum (buf.take k) % 256 : Nat) := by
        simp only [hvalidate, true_and, ne_eq, Decidable.not_not] at hsum
        exact hsum.symm
      exact ⟨_, _, _, List.getElem?_eq_getElem _, List.getElem?_eq_getElem _,
        List.getElem?_eq_getElem _, hvalue⟩

/-! ## What acceptance says about the trailer -/

/-- A complete message of one field, `35=D`. -/
def newOrderBytes : List UInt8 :=
  ascii "8=FIX.4.2" ++ SOH :: ascii "9=5" ++ SOH :: ascii "35=D" ++ SOH :: ascii "10=181" ++ [SOH]

/-- On decimal digits the supplied checksum is the number they denote. -/
theorem suppliedValue_of_isDigit {b0 b1 b2 : UInt8} (h0 : isDigit b0 = true)
    (h1 : isDigit b1 = true) (h2 : isDigit b2 = true) :
    suppliedValue b0 b1 b2 = (decimal [b0, b1, b2] : Nat) := by
  have hchar : ∀ b : UInt8, isDigit b = true → charToInt b - 48 = (digitValue b : Nat) := by
    intro b hb
    have := isDigit_iff.mp hb
    unfold charToInt digitValue
    split <;> omega
  rw [suppliedValue, hchar b0 h0, hchar b1 h1, hchar b2 h2, decimal]
  simp only [decimalFrom_cons, decimalFrom_nil]
  omega

/-- **Acceptance of the trailer.**  When the parser with options 0 accepts the
first `k + 7` bytes, they end with SOH, and the three characters before that,
read as digits, denote the sum of the first `k` bytes.  Neither these characters
nor the four bytes before them are inspected any further. -/
theorem accepted_trailer (buf : List UInt8) (len : Nat) (run : ParseRun)
    (hlen : len ≤ buf.length) (hrun : vmarsFixParseMsg buf len 0 = .ok run)
    (hok : run.ret.result = .ok) :
    ∃ (k : Nat) (b0 b1 b2 : UInt8), run.ret.bytesConsumed = (k + checkSumLen : Nat) ∧
      k + checkSumLen ≤ len ∧
      (buf.drop (k + 3)).take 4 = [b0, b1, b2, SOH] ∧
      suppliedValue b0 b1 b2 = (byteSum (buf.take k) % 256 : Nat) ∧
      (isDigit b0 = true → isDigit b1 = true → isDigit b2 = true →
        decimal [b0, b1, b2] = byteSum (buf.take k) % 256) := by
  obtain ⟨p, k, fields, h⟩ := vmarsFixParseMsg_accepted hlen hrun hok
  obtain ⟨b0, b1, b2, h0, h1, h2, hvalue⟩ := h.checksum (by decide)
  have hfits := h.le_len
  have hk6 : k + 6 < buf.length := by
    unfold checkSumLen at hfits
    omega
  -- the fields up to the end of the trailer end with SOH
  have hsoh : buf[k + 6]? = some SOH := by
    have hlast := getLast?_fields h.ne_nil
    rw [← h.fields_eq, List.getLast?_drop, List.getLast?_take] at hlast
    have hbyte : buf[k + checkSumLen - 1]? = some buf[k + 6] := List.getElem?_eq_getElem hk6
    rw [hbyte] at hlast
    rw [List.getElem?_eq_getElem hk6]
    split at hlast
    · cases hlast
    · simpa [checkSumLen] using hlast
  have hfour : (buf.drop (k + 3)).take 4 = [b0, b1, b2, SOH] := by
    have hdrop : ∀ {i : Nat} {b : UInt8}, buf[i]? = some b → buf.drop i = b :: buf.drop (i + 1) := by
      intro i b hb
      obtain ⟨hi, rfl⟩ := List.getElem?_eq_some_iff.mp hb
      exact List.drop_eq_getElem_cons hi
    rw [hdrop h0, hdrop h1, hdrop h2, hdrop hsoh]
    rfl
  refine ⟨k, b0, b1, b2, by rw [h.run_eq], hfits, hfour, hvalue, ?_⟩
  intro hd0 hd1 hd2
  rw [suppliedValue_of_isDigit hd0 hd1 hd2] at hvalue
  exact Int.ofNat.inj hvalue

/-- An accepted buffer with the trailer `10=181`. -/
theorem accepted_trailer_newOrder :
    ∃ (k : Nat) (b0 b1 b2 : UInt8), (26 : Int) = (k + checkSumLen : Nat) ∧
      k + checkSumLen ≤ 30 ∧
      ((newOrderBytes ++ ascii "8=FI").drop (k + 3)).take 4 = [b0, b1, b2, SOH] ∧
      suppliedValue b0 b1 b2 = (byteSum ((newOrderBytes ++ ascii "8=FI").take k) % 256 : Nat) ∧
      (isDigit b0 = true → isDigit b1 = true → isDigit b2 = true →
        decimal [b0, b1, b2] = byteSum ((newOrderBytes ++ ascii "8=FI").take k) % 256) :=
  accepted_trailer (newOrderBytes ++ ascii "8=FI") 30
    { ret := { result := .ok, bytesConsumed := 26 }
      calls := [.startp 5 42, .tagp 35 (.inBuffer 17 1), .tagp 10 (.inBuffer 22 3), .endp] }
    (by decide) (by decide +kernel) rfl

/-- The bytes end with a checksum field whose three digits denote the sum of the
bytes before it, and a field ends right before it. -/
def HasSoundTrailer (bytes : List UInt8) : Prop :=
  ∃ head digits, bytes = head ++ ascii "10=" ++ digits ++ [SOH] ∧ head.getLast? = some SOH ∧
    digits.length = 3 ∧ (∀ b ∈ digits, isDigit b = true) ∧ decimal digits = byteSum head % 256

/-- BodyLength `5` ends inside the only field, so its value supplies the checksum. -/
def trailerInsideField : List UInt8 :=
  ascii "8=FIX.4.2" ++ SOH :: ascii "9=5" ++ SOH :: ascii "35=DATED23?" ++ [SOH]

/-- The trailer inside a field is accepted, although no field `10` is reported. -/
theorem accepted_without_trailer :
    vmarsFixParseMsg trailerInsideField 26 0 =
        .ok { ret := { result := .ok, bytesConsumed := 26 }
              calls := [.startp 5 42, .tagp 35 (.inBuffer 17 8), .endp] } ∧
      ¬ HasSoundTrailer (trailerInsideField.take 26) := by
  refine ⟨by decide +kernel, ?_⟩
  rintro ⟨head, digits, heq, -, hdigits, -, -⟩
  have hhead : head.length = 19 := by
    have hlen := congrArg List.length heq
    simp only [List.length_append, hdigits, List.length_singleton] at hlen
    simp [trailerInsideField, ascii] at hlen
    omega
  have htag := congrArg (fun bytes => (bytes.drop head.length).take 3) heq
  rw [List.append_assoc, List.append_assoc, List.drop_left, hhead] at htag
  revert htag
  simp [trailerInsideField, ascii]

end Vmars
