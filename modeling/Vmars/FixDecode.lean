import Vmars.FixMessage

/-!
# The parser on encoded messages

`vmarsFixParseMsg` on the encoding of a message, with or without further bytes
behind it, and on every proper prefix of one.  The two results are the whole of
what the capture code needs from the parser: a complete message is accepted and
consumed exactly, and an incomplete one is reported as too short.
-/

namespace Vmars

open CMemory

section Span

variable {α : Type} {p : α → Bool}

theorem takeWhile_stop {xs ys : List α} {b : α} (hxs : ∀ x ∈ xs, p x = true) (hb : p b = false) :
    (xs ++ b :: ys).takeWhile p = xs := by
  rw [List.takeWhile_append_of_pos hxs, List.takeWhile_cons_of_neg (by simp [hb]), List.append_nil]

theorem dropWhile_stop {xs ys : List α} {b : α} (hxs : ∀ x ∈ xs, p x = true) (hb : p b = false) :
    (xs ++ b :: ys).dropWhile p = b :: ys := by
  rw [List.dropWhile_append_of_pos hxs, List.dropWhile_cons_of_neg (by simp [hb])]

/-- The bytes between two offsets of a buffer that starts with `pre ++ mid`. -/
theorem drop_take_append {pre mid post : List α} {n : Nat} (hn : mid.length ≤ n) :
    ((pre ++ (mid ++ post)).drop pre.length).take n = mid ++ post.take (n - mid.length) := by
  rw [List.drop_left, List.take_append, List.take_of_length_le hn]

end Span

theorem isDigit_SOH : isDigit SOH = false := by decide

theorem isDigit_equalsSign : isDigit equalsSign = false := by decide

/-! ## One field -/

/-- The value that `tagp` receives for a field that starts at `start`. -/
def fieldValue (options : Int32) (calculated : Int) (start : Nat) (field : Field) : TagValue :=
  if optReportCalculatedChecksum options ∧ (field.tag.value : Int) = 10 then
    .calculatedChecksumStr (checksumStr calculated)
  else .inBuffer (start + field.tag.digits.length + 1) field.value.length

/-- The calls for a list of fields of which the first starts at `start`. -/
def fieldCalls (options : Int32) (calculated : Int) : Nat → List Field → List Callback
  | _, [] => []
  | start, field :: fields =>
      .tagp field.tag.value (fieldValue options calculated start field) ::
        fieldCalls options calculated (start + field.encode.length) fields

variable {options : Int32} {calculated : Int}

theorem wrap32_natCast {n : Nat} (h : n ≤ intMax) : wrap32 n = n := by
  unfold intMax at h
  exact wrap32_of_range (by omega) (by omega)

/-- A round of the field loop on an encoded field reports that field. -/
theorem fieldRound_encode {pre post : List UInt8} {field : Field} {len : Nat}
    (hlo : (pre ++ field.encode).length ≤ len)
    (hhi : len ≤ (pre ++ (field.encode ++ post)).length) :
    fieldRound (pre ++ (field.encode ++ post)) len options calculated pre.length =
      .ok (.call field.tag.value (fieldValue options calculated pre.length field)
        (pre.length + field.encode.length)) := by
  have hflen := field.encode_length
  simp only [List.length_append] at hlo hhi
  -- the tag, up to its equals sign
  have hn : ((len : Int) - (pre.length : Nat)).toNat = len - pre.length := by omega
  have htag := @numberLoop_eq equalsSign (pre ++ (field.encode ++ post)) (len - pre.length)
    pre.length 0 (by simp only [List.length_append]; omega)
  have htext : ((pre ++ (field.encode ++ post)).drop pre.length).take (len - pre.length) =
      field.tag.digits ++ equalsSign :: (field.value ++ SOH :: post.take
        (len - pre.length - field.encode.length)) := by
    rw [drop_take_append (by omega)]
    simp [Field.encode]
  rw [htext, takeWhile_stop field.tag.isDigit_of_mem isDigit_equalsSign,
    dropWhile_stop field.tag.isDigit_of_mem isDigit_equalsSign] at htag
  have hval : wrap32 (decimalFrom 0 field.tag.digits : Nat) = (field.tag.value : Int) :=
    wrap32_natCast field.tag_le
  have hzero : wrap32 ((0 : Nat) : Int) = 0 := by decide
  simp only [if_true, hval, hzero] at htag
  -- the value, up to its SOH
  have hpre : pre ++ (field.encode ++ post) =
      (pre ++ field.tag.digits ++ [equalsSign]) ++ ((field.value ++ [SOH]) ++ post) := by
    simp [Field.encode]
  have hstart : (pre ++ field.tag.digits ++ [equalsSign]).length =
      pre.length + field.tag.digits.length + 1 := by simp; omega
  have hn' : ((len : Int) - (pre.length + field.tag.digits.length + 1 : Nat)).toNat =
      len - (pre.length + field.tag.digits.length + 1) := by omega
  have hvalue := @valueLoop_eq (pre ++ (field.encode ++ post))
    (len - (pre.length + field.tag.digits.length + 1))
    (pre.length + field.tag.digits.length + 1) (by simp only [List.length_append]; omega)
  have hvtext :
      ((pre ++ (field.encode ++ post)).drop (pre.length + field.tag.digits.length + 1)).take
      (len - (pre.length + field.tag.digits.length + 1)) =
      field.value ++ SOH :: post.take (len - pre.length - field.encode.length) := by
    rw [hpre, ← hstart, drop_take_append (by simp; omega)]
    have : len - (pre ++ field.tag.digits ++ [equalsSign]).length - (field.value ++ [SOH]).length =
        len - pre.length - field.encode.length := by simp; omega
    rw [this]
    simp
  have hvs : ∀ x ∈ field.value, (decide (x ≠ SOH)) = true := by
    intro x hx
    exact decide_eq_true fun h => field.no_soh (h ▸ hx)
  rw [hvtext, takeWhile_stop hvs (by simp), dropWhile_stop hvs (by simp)] at hvalue
  have hnext : pre.length + field.tag.digits.length + 1 + field.value.length + 1 =
      pre.length + field.encode.length := by omega
  have hwidth : pre.length + field.encode.length - 1 - (pre.length + field.tag.digits.length + 1) =
      field.value.length := by omega
  simp only [hnext] at hvalue
  simp only [fieldRound, tagLoop, hn, htag, ok_bind, hn', hvalue, hwidth, fieldValue]
  split <;> rfl

/-! ## All fields -/

/-- The field loop on encoded fields that end at `len` reports all of them. -/
theorem fieldLoop_encodeFields {pre post : List UInt8} {fields : List Field} (hne : fields ≠ [])
    {fuel : Nat} (hfuel : fields.length ≤ fuel) :
    fieldLoop (pre ++ (encodeFields fields ++ post))
        ((pre.length + (encodeFields fields).length : Nat) : Int) options calculated fuel pre.length =
      .ok (.ok, fieldCalls options calculated pre.length fields) := by
  induction fields generalizing pre fuel with
  | nil => exact (hne rfl).elim
  | cons field fields ih =>
      obtain ⟨fuel, rfl⟩ : ∃ k, fuel = k + 1 := ⟨fuel - 1, by simp at hfuel; omega⟩
      have hround := @fieldRound_encode options calculated pre (encodeFields fields ++ post)
        field (pre.length + (encodeFields (field :: fields)).length) (by simp) (by simp)
      simp only [encodeFields_cons, List.append_assoc] at hround ⊢
      simp only [fieldLoop, hround, ok_bind]
      cases fields with
      | nil => simp [fieldCalls]
      | cons next fields =>
          have hmore := @ih (pre ++ field.encode) (by simp) fuel
            (by simpa using hfuel)
          have hlt : ((pre.length + field.encode.length : Nat) : Int) <
              ((pre.length + (field.encode ++ encodeFields (next :: fields)).length : Nat) : Int) := by
            have := next.encode_length
            simp only [encodeFields_cons, List.length_append]
            omega
          rw [if_pos hlt]
          simp only [List.append_assoc, List.length_append] at hmore
          rw [List.length_append, ← Nat.add_assoc, hmore]
          simp [fieldCalls]

/-- Every field has at least one byte. -/
theorem length_le_encodeFields (fields : List Field) :
    fields.length ≤ (encodeFields fields).length := by
  induction fields with
  | nil => simp
  | cons field fields ih =>
      have := field.encode_length
      simp only [encodeFields_cons, List.length_append, List.length_cons]
      omega

/-! ## Header and BodyLength -/

/-- The two comparisons with a header tell the versions apart. -/
theorem FixVersion.header_prefix_iff {v : FixVersion} {rest : List UInt8} :
    (initialHeader42 <+: v.header ++ rest ↔ v = .fix42) ∧
    (initialHeader44 <+: v.header ++ rest ↔ v = .fix44) := by
  cases v with
  | fix42 => exact ⟨by simp [FixVersion.header], by simp [FixVersion.header, initialHeader42,
      initialHeader44, ascii]⟩
  | fix44 => exact ⟨by simp [FixVersion.header, initialHeader42, initialHeader44, ascii],
      by simp [FixVersion.header]⟩

/-- On a buffer that starts with a header the parser goes on to BodyLength. -/
theorem vmarsFixParseMsg_header {v : FixVersion} {rest : List UInt8} {len : Nat}
    (hlo : initialHeaderLen ≤ len) :
    vmarsFixParseMsg (v.header ++ rest) len options =
      (do
        match ← bodyLengthLoop (v.header ++ rest) (len - initialHeaderLen) initialHeaderLen with
        | none => .ok (rejected .tagInvalid len)
        | some (msgLen, position) =>
            parseBody (v.header ++ rest) len v.fixType options msgLen position) := by
  have h42 : initialHeader42.length = 12 := rfl
  have h44 : initialHeader44.length = 12 := rfl
  have hlen : initialHeaderLen ≤ (v.header ++ rest).length := by
    simp [v.header_length]
  have hguard : ¬ (initialHeaderLen : Int) > len := by omega
  have hn : ((len : Int) - (initialHeaderLen : Nat)).toNat = len - initialHeaderLen := by omega
  unfold initialHeaderLen at hlen
  have hcmp42 := @strncmpEq_eq (v.header ++ rest) initialHeader42 0 (by omega)
  have hcmp44 := @strncmpEq_eq (v.header ++ rest) initialHeader44 0 (by omega)
  simp only [List.drop_zero, v.header_prefix_iff.1] at hcmp42
  simp only [List.drop_zero, v.header_prefix_iff.2] at hcmp44
  simp only [vmarsFixParseMsg, if_neg hguard, hn, hcmp42, hcmp44, ok_bind]
  cases v with
  | fix42 => rfl
  | fix44 => rfl

/-- The scan of BodyLength on a buffer with the whole numeral and its SOH. -/
theorem bodyLengthLoop_complete (m : FixMessage) {rest : List UInt8} {len : Nat}
    (hlo : m.bodyStart ≤ len)
    (hhi : len ≤ (m.version.header ++ (m.bodyLength.digits ++ SOH :: rest)).length)
    (hfit : m.bodyLength.value ≤ intMax) :
    bodyLengthLoop (m.version.header ++ (m.bodyLength.digits ++ SOH :: rest))
        (len - initialHeaderLen) initialHeaderLen =
      .ok (some ((m.bodyLength.value : Int), m.bodyStart)) := by
  unfold FixMessage.bodyStart at hlo
  have hloop := @numberLoop_eq SOH (m.version.header ++ (m.bodyLength.digits ++ SOH :: rest))
    (len - initialHeaderLen) initialHeaderLen 0 (by omega)
  have htext : ((m.version.header ++ (m.bodyLength.digits ++ SOH :: rest)).drop
      initialHeaderLen).take (len - initialHeaderLen) =
      m.bodyLength.digits ++
        SOH :: rest.take (len - initialHeaderLen - m.bodyLength.digits.length - 1) := by
    rw [← m.version.header_length, List.drop_left, List.take_append,
      List.take_of_length_le (by rw [m.version.header_length]; omega)]
    rw [show len - m.version.header.length - m.bodyLength.digits.length =
      (len - m.version.header.length - m.bodyLength.digits.length - 1) + 1 by
        rw [m.version.header_length]; omega, List.take_succ_cons]
    simp
  rw [htext, takeWhile_stop m.bodyLength.isDigit_of_mem isDigit_SOH,
    dropWhile_stop m.bodyLength.isDigit_of_mem isDigit_SOH] at hloop
  have hzero : wrap32 ((0 : Nat) : Int) = 0 := by decide
  have hval : wrap32 (decimalFrom 0 m.bodyLength.digits : Nat) = (m.bodyLength.value : Int) :=
    wrap32_natCast hfit
  simp only [if_true, hval, hzero] at hloop
  exact hloop

/-! ## Complete messages -/

/-- The checksum that the parser reads is the one that was written. -/
theorem suppliedValue_threeDigits {n : Nat} (hn : n < 1000) :
    ∀ {b0 b1 b2 : UInt8}, threeDigits n = [b0, b1, b2] → suppliedValue b0 b1 b2 = n := by
  intro b0 b1 b2 h
  simp only [threeDigits, List.map_cons, List.map_nil, List.cons.injEq, and_true] at h
  obtain ⟨rfl, rfl, rfl⟩ := h
  have hchar : ∀ d : Nat, d < 10 → charToInt (48 + d).toUInt8 = 48 + d := by
    intro d hd
    rw [charToInt, digit_toNat hd, if_pos (by omega)]
    omega
  rw [suppliedValue, hchar _ (by omega), hchar _ (by omega), hchar _ (by omega)]
  omega

/-- The supplied checksum is what the three characters of the trailer denote. -/
theorem suppliedChecksum_trailer (m : FixMessage) {trailer : Field} {suffix : List UInt8}
    {b0 b1 b2 : UInt8} (hten : trailer.tag.digits = ascii "10")
    (hvalue : trailer.value = [b0, b1, b2]) :
    suppliedChecksum (m.head ++ trailer.encode ++ suffix)
        ((m.bodyStart + m.bodyLength.value + 3 : Nat) : Int) =
      .ok (suppliedValue b0 b1 b2) := by
  have hsplit : m.head ++ trailer.encode ++ suffix =
      (m.head ++ ascii "10=") ++ b0 :: b1 :: b2 :: SOH :: suffix := by
    simp [Field.encode, hten, hvalue, ascii, equalsSign]
  have hpos : m.bodyStart + m.bodyLength.value + 3 = (m.head ++ ascii "10=").length := by
    simp [m.head_length, ascii]
  rw [hsplit, hpos, suppliedChecksum_append]

/-- **Messages with a trailer are accepted.**  On the head of a message, a trailer of
three characters and any bytes behind it, the parser reports the fields and consumes
exactly the message, if the characters are the checksum or need not be. -/
theorem vmarsFixParseMsg_trailer (m : FixMessage) {trailer : Field} {suffix : List UInt8}
    {len : Nat}
    (hten : trailer.tag.digits = ascii "10") (hthree : trailer.value.length = 3)
    (hsum : optValidateChecksum options = true → trailer.value = threeDigits m.checksum)
    (hlo : (m.head ++ trailer.encode).length ≤ len)
    (hhi : len ≤ (m.head ++ trailer.encode ++ suffix).length)
    (hfit : (m.head ++ trailer.encode).length ≤ intMax) :
    vmarsFixParseMsg (m.head ++ trailer.encode ++ suffix) len options =
      .ok { ret := { result := .ok, bytesConsumed := (m.head ++ trailer.encode).length }
            calls := .startp m.bodyLength.value m.version.fixType ::
              fieldCalls options m.checksum m.bodyStart (m.fields ++ [trailer]) ++ [.endp] } := by
  have htrailer : trailer.encode.length = checkSumLen := by
    rw [trailer.encode_length, hten, hthree]
    rfl
  have hlen : (m.head ++ trailer.encode).length =
      m.bodyStart + m.bodyLength.value + checkSumLen := by
    rw [List.length_append, m.head_length, htrailer]
  have hencode : m.head ++ trailer.encode = (m.version.header ++ m.bodyLength.digits ++ [SOH]) ++
      encodeFields (m.fields ++ [trailer]) := by
    simp [FixMessage.head, encodeFields_append]
  generalize hbytes : m.head ++ trailer.encode = bytes at *
  have hstart : m.bodyStart = initialHeaderLen + m.bodyLength.digits.length + 1 := rfl
  have hpos := m.bodyLength_pos
  have hshape : bytes ++ suffix = m.version.header ++ (m.bodyLength.digits ++ SOH ::
      (encodeFields (m.fields ++ [trailer]) ++ suffix)) := by
    simp [hencode]
  have hscan : bodyLengthLoop (bytes ++ suffix) (len - initialHeaderLen) initialHeaderLen =
      .ok (some ((m.bodyLength.value : Int), m.bodyStart)) := by
    rw [hshape] at hhi ⊢
    exact bodyLengthLoop_complete m (by omega) hhi (by omega)
  have hparse := @vmarsFixParseMsg_header options m.version
    (m.bodyLength.digits ++ SOH :: (encodeFields (m.fields ++ [trailer]) ++ suffix)) len
    (by omega)
  rw [← hshape, hscan] at hparse
  rw [hparse, ok_bind]
  -- the guard holds
  have hguard : ¬ ((m.bodyLength.value : Int) = 0 ∨
      (m.bodyLength.value : Int) > len - (m.bodyStart : Nat) - (checkSumLen : Nat)) := by omega
  have hcalculated : calculateChecksum (bytes ++ suffix)
      ((m.bodyLength.value : Int) + (m.bodyStart : Nat)) = .ok (m.checksum : Int) := by
    rw [show (m.bodyLength.value : Int) + (m.bodyStart : Nat) =
        ((m.head.length : Nat) : Int) by rw [m.head_length]; omega,
      calculateChecksum_natCast (by simp [← hbytes])]
    simp [← hbytes, FixMessage.checksum, List.append_assoc]
  -- the two checksums agree, or are not compared
  obtain ⟨b0, b1, b2, hvalue⟩ := List.length_eq_three.mp hthree
  have hsupplied : suppliedChecksum (bytes ++ suffix)
      ((m.bodyStart : Nat) + (m.bodyLength.value : Int) + 3) = .ok (suppliedValue b0 b1 b2) := by
    have := @suppliedChecksum_trailer m trailer suffix b0 b1 b2 hten hvalue
    rwa [hbytes, show ((m.bodyStart + m.bodyLength.value + 3 : Nat) : Int) =
      (m.bodyStart : Nat) + (m.bodyLength.value : Int) + 3 by omega] at this
  have hvalid : ¬ (optValidateChecksum options = true ∧
      (m.checksum : Int) ≠ suppliedValue b0 b1 b2) := by
    rintro ⟨hvalidate, hne⟩
    have hlt := m.checksum_lt
    exact hne (suppliedValue_threeDigits (by omega) ((hsum hvalidate).symm.trans hvalue)).symm
  -- the rest of the message is its fields and the trailer
  have hend : (m.bodyLength.value : Int) + (m.bodyStart : Nat) + (checkSumLen : Nat) =
      ((bytes.length : Nat) : Int) := by omega
  have hbody : bytes ++ suffix = (m.version.header ++ m.bodyLength.digits ++ [SOH]) ++
      (encodeFields (m.fields ++ [trailer]) ++ suffix) := by
    simp [hencode]
  have hprelen : (m.version.header ++ m.bodyLength.digits ++ [SOH]).length = m.bodyStart := by
    simp [m.version.header_length, hstart]; omega
  have hfields : bytes.length = m.bodyStart + (encodeFields (m.fields ++ [trailer])).length := by
    rw [hencode, List.length_append, hprelen]
  have hloop : fieldLoop (bytes ++ suffix) ((bytes.length : Nat) : Int) options
      (m.checksum : Int) (((bytes.length : Int) - (m.bodyStart : Nat)).toNat + 1) m.bodyStart =
      .ok (.ok, fieldCalls options m.checksum m.bodyStart (m.fields ++ [trailer])) := by
    have hc := length_le_encodeFields (m.fields ++ [trailer])
    have := @fieldLoop_encodeFields options (m.checksum : Int)
      (m.version.header ++ m.bodyLength.digits ++ [SOH]) suffix (m.fields ++ [trailer])
      (by simp) (((bytes.length : Int) - (m.bodyStart : Nat)).toNat + 1) (by omega)
    rwa [← hbody, hprelen, ← hfields] at this
  simp only [parseBody, if_neg hguard, hcalculated, ok_bind, hsupplied, hend, hloop, if_neg hvalid,
    if_true]

/-- **Complete messages are accepted.**  On the encoding of a message, with any
bytes behind it, the parser reports the fields and consumes exactly the
encoding. -/
theorem vmarsFixParseMsg_encode (m : FixMessage) {suffix : List UInt8} {len : Nat}
    (hlo : m.encode.length ≤ len) (hhi : len ≤ (m.encode ++ suffix).length)
    (hfit : m.encode.length ≤ intMax) :
    vmarsFixParseMsg (m.encode ++ suffix) len options =
      .ok { ret := { result := .ok, bytesConsumed := m.encode.length }
            calls := .startp m.bodyLength.value m.version.fixType ::
              fieldCalls options m.checksum m.bodyStart (m.fields ++ [m.trailerField]) ++ [.endp] } := by
  have hencode : m.encode = m.head ++ m.trailerField.encode := by
    rw [FixMessage.encode, m.trailer_eq]
  rw [hencode] at hlo hhi hfit ⊢
  exact vmarsFixParseMsg_trailer m rfl rfl (fun _ => rfl) hlo hhi hfit

/-! ## Incomplete messages -/

/-- The numeral of BodyLength, cut short, denotes no more than the whole. -/
theorem decimal_take_le (digits : List UInt8) (k : Nat) :
    decimal (digits.take k) ≤ decimal digits := by
  have h := le_decimalFrom (decimal (digits.take k)) (digits.drop k)
  rwa [decimal, ← decimalFrom_append, List.take_append_drop] at h

/-- The scan of BodyLength on a buffer that ends inside the numeral. -/
theorem bodyLengthLoop_cut (m : FixMessage) {buf : List UInt8} {k : Nat}
    (hbuf : initialHeaderLen + k ≤ buf.length)
    (htext : (buf.drop initialHeaderLen).take k = m.bodyLength.digits.take k)
    (hfit : m.bodyLength.value ≤ intMax) :
    ∃ number : Nat, bodyLengthLoop buf k initialHeaderLen =
      .ok (some ((number : Int), initialHeaderLen + k)) := by
  have hall : ∀ b ∈ m.bodyLength.digits.take k, isDigit b = true :=
    fun b hb => m.bodyLength.isDigit_of_mem b (List.mem_of_mem_take hb)
  have hloop := @numberLoop_eq SOH buf k initialHeaderLen 0 hbuf
  rw [htext, List.dropWhile_eq_nil_iff.mpr hall, List.takeWhile_eq_self_iff.mpr hall] at hloop
  have hval : wrap32 (decimalFrom 0 (m.bodyLength.digits.take k) : Nat) =
      (decimal (m.bodyLength.digits.take k) : Int) :=
    wrap32_natCast (Nat.le_trans (decimal_take_le _ _) hfit)
  have hzero : wrap32 ((0 : Nat) : Int) = 0 := by decide
  rw [hval, hzero] at hloop
  exact ⟨_, hloop⟩

/-- With fewer bytes than BodyLength says the parser asks for more. -/
theorem parseBody_tooShort {buf : List UInt8} {len fixType msgLen : Int} {position : Nat}
    (h : msgLen > len - position - checkSumLen) :
    parseBody buf len fixType options msgLen position = .ok (rejected .messageTooShort len) := by
  rw [parseBody, if_pos (Or.inr h)]

/-- **Incomplete messages are too short.**  When the `len` bytes are a proper
prefix of the encoding of a message, the parser says so and calls nobody. -/
theorem vmarsFixParseMsg_incomplete (m : FixMessage) {buf : List UInt8} {len : Nat}
    (hlt : len < m.encode.length) (hbuf : len ≤ buf.length)
    (hpre : buf.take len = m.encode.take len) (hfit : m.bodyLength.value ≤ intMax) :
    vmarsFixParseMsg buf len options = .ok (rejected .messageTooShort len) := by
  by_cases hshort : len < initialHeaderLen
  · have hguard : (initialHeaderLen : Int) > len := by omega
    rw [vmarsFixParseMsg, if_pos hguard]
  have hencode : m.encode = m.version.header ++ (m.bodyLength.digits ++ SOH ::
      encodeFields (m.fields ++ [m.trailerField])) := by
    simp [m.encode_eq]
  have hheader : buf = m.version.header ++ buf.drop initialHeaderLen := by
    have h := congrArg (List.take initialHeaderLen) hpre
    rw [List.take_take, List.take_take, Nat.min_eq_left (by omega), hencode,
      ← m.version.header_length, List.take_left, m.version.header_length] at h
    rw [← h, List.take_append_drop]
  -- what the scan of BodyLength sees
  have htext : (buf.drop initialHeaderLen).take (len - initialHeaderLen) =
      (m.bodyLength.digits ++ SOH :: encodeFields (m.fields ++ [m.trailerField])).take
        (len - initialHeaderLen) := by
    rw [← List.drop_take, hpre, List.drop_take, hencode, ← m.version.header_length, List.drop_left]
  have hparse := @vmarsFixParseMsg_header options m.version (buf.drop initialHeaderLen) len
    (by omega)
  rw [← hheader] at hparse
  rw [hparse]
  have hlen := m.encode_length
  have hstart : m.bodyStart = initialHeaderLen + m.bodyLength.digits.length + 1 := rfl
  by_cases hdigits : len - initialHeaderLen ≤ m.bodyLength.digits.length
  · -- cut inside BodyLength: only digits follow, and no byte of a body
    rw [List.take_append_of_le_length hdigits] at htext
    obtain ⟨number, hscan⟩ := bodyLengthLoop_cut m (by omega) htext hfit
    rw [hscan, ok_bind]
    exact parseBody_tooShort (by unfold checkSumLen; omega)
  · -- cut behind BodyLength: the guard sees that the body does not fit
    have hrest : buf =
        m.version.header ++ (m.bodyLength.digits ++ SOH :: buf.drop m.bodyStart) := by
      have hk : m.bodyLength.digits.length + 1 ≤ len - initialHeaderLen := by omega
      have h := congrArg (List.take (m.bodyLength.digits.length + 1)) htext
      rw [List.take_take, List.take_take, Nat.min_eq_left hk] at h
      have hcut : (m.bodyLength.digits ++ SOH :: encodeFields (m.fields ++ [m.trailerField])).take
          (m.bodyLength.digits.length + 1) = m.bodyLength.digits ++ [SOH] := by
        rw [List.take_length_add_append]
        rfl
      rw [hcut] at h
      have hd : buf.drop initialHeaderLen =
          (m.bodyLength.digits ++ [SOH]) ++ buf.drop m.bodyStart := by
        rw [← h, hstart, show initialHeaderLen + m.bodyLength.digits.length + 1 =
          initialHeaderLen + (m.bodyLength.digits.length + 1) by omega, ← List.drop_drop,
          List.take_append_drop]
      rw [hd] at hheader
      simpa using hheader
    have hscan : bodyLengthLoop buf (len - initialHeaderLen) initialHeaderLen =
        .ok (some ((m.bodyLength.value : Int), m.bodyStart)) := by
      rw [hrest] at hbuf ⊢
      exact bodyLengthLoop_complete m (by omega) hbuf hfit
    rw [hscan, ok_bind]
    exact parseBody_tooShort (by omega)

/-! ## What the callbacks observe -/

/-- A call together with the characters it can read. -/
inductive Event where
  | startp (msgLen fixType : Int)
  | tagp (tag : Int) (value : List UInt8)
  | endp
  deriving DecidableEq, Repr

/-- The event of a call on a buffer. -/
def Callback.event (buf : List UInt8) : Callback → Event
  | .startp msgLen fixType => .startp msgLen fixType
  | .tagp tag value => .tagp tag (value.bytes buf)
  | .endp => .endp

/-- Where no value is replaced by the checksum every call shows the bytes of its field. -/
theorem fieldCalls_event {pre post : List UInt8} {fields : List Field}
    (hopt : ∀ field ∈ fields,
      ¬ (optReportCalculatedChecksum options = true ∧ (field.tag.value : Int) = 10)) :
    (fieldCalls options calculated pre.length fields).map
        (Callback.event (pre ++ (encodeFields fields ++ post))) =
      fields.map fun field => .tagp field.tag.value field.value := by
  induction fields generalizing pre with
  | nil => rfl
  | cons field fields ih =>
      have hbytes : (fieldValue options calculated pre.length field).bytes
          (pre ++ (encodeFields (field :: fields) ++ post)) = field.value := by
        have hsplit : pre ++ (encodeFields (field :: fields) ++ post) =
            (pre ++ field.tag.digits ++ [equalsSign]) ++
              (field.value ++ ([SOH] ++ encodeFields fields ++ post)) := by
          simp [Field.encode]
        have hstart : pre.length + field.tag.digits.length + 1 =
            (pre ++ field.tag.digits ++ [equalsSign]).length := by simp; omega
        rw [fieldValue, if_neg (hopt field (List.mem_cons_self ..)), TagValue.bytes, hsplit, hstart,
          List.drop_left, List.take_left]
      have hrest := @ih (pre ++ field.encode) (fun f hf => hopt f (List.mem_cons_of_mem _ hf))
      simp only [List.append_assoc, List.length_append] at hrest
      simp only [fieldCalls, List.map_cons, Callback.event, hbytes]
      simp only [encodeFields_cons, List.append_assoc, hrest]

/-- The calls for fields, one after the other. -/
theorem fieldCalls_append (start : Nat) (xs ys : List Field) :
    fieldCalls options calculated start (xs ++ ys) = fieldCalls options calculated start xs ++
      fieldCalls options calculated (start + (encodeFields xs).length) ys := by
  induction xs generalizing start with
  | nil => rfl
  | cons field xs ih =>
      rw [List.cons_append, fieldCalls, ih, fieldCalls, encodeFields_cons, List.length_append,
        Nat.add_assoc]
      rfl

/-- The characters of the calculated checksum are the digits of the trailer. -/
theorem checksumStr_natCast (n : Nat) : checksumStr n = threeDigits n := by
  have hdigit : ∀ d : Nat, ((48 : Int) + d).toNat = 48 + d := by
    intro d
    omega
  have h1 : ((n : Int) / 100) = (n / 100 : Nat) := rfl
  have h2 : ((n : Int) / 10 % 10) = (n / 10 % 10 : Nat) := rfl
  have h3 : ((n : Int) % 10) = (n % 10 : Nat) := rfl
  rw [checksumStr, threeDigits, h1, h2, h3]
  simp only [List.map_cons, List.map_nil, hdigit]

/-- What the callbacks observe of a message with a trailer: its fields in order, and
for the trailer its characters or, with the option for tag 10, the checksum. -/
theorem events_trailer (m : FixMessage) {trailer : Field} {suffix : List UInt8}
    (hten : trailer.tag.digits = ascii "10")
    (hopt : ∀ field ∈ m.fields,
      ¬ (optReportCalculatedChecksum options = true ∧ (field.tag.value : Int) = 10)) :
    (Callback.startp m.bodyLength.value m.version.fixType ::
        fieldCalls options m.checksum m.bodyStart (m.fields ++ [trailer]) ++ [Callback.endp]).map
        (Callback.event (m.head ++ trailer.encode ++ suffix)) =
      .startp (encodeFields m.fields).length m.version.fixType ::
        m.fields.map (fun field => .tagp field.tag.value field.value) ++
        [.tagp 10 (if optReportCalculatedChecksum options = true then threeDigits m.checksum
          else trailer.value), .endp] := by
  have htag : (trailer.tag.value : Int) = 10 := by
    rw [Numeral.value, hten]
    decide
  have hstart : m.bodyStart = (m.version.header ++ m.bodyLength.digits ++ [SOH]).length := by
    simp only [FixMessage.bodyStart, List.length_append, m.version.header_length,
      List.length_singleton]
  have hfields := @fieldCalls_event options (m.checksum : Int)
    (m.version.header ++ m.bodyLength.digits ++ [SOH]) (trailer.encode ++ suffix) m.fields hopt
  have hsplit : m.head ++ trailer.encode ++ suffix =
      (m.version.header ++ m.bodyLength.digits ++ [SOH]) ++
        (encodeFields m.fields ++ (trailer.encode ++ suffix)) := by
    simp [FixMessage.head]
  rw [← hsplit, ← hstart] at hfields
  -- the trailer stands behind the head
  have hvalue : (fieldValue options m.checksum (m.bodyStart + (encodeFields m.fields).length)
      trailer).bytes (m.head ++ trailer.encode ++ suffix) =
      if optReportCalculatedChecksum options = true then threeDigits m.checksum
      else trailer.value := by
    unfold fieldValue
    split
    · next hreport =>
      rw [if_pos hreport.1]
      exact checksumStr_natCast m.checksum
    · next hreport =>
      rw [if_neg fun hoption => hreport ⟨hoption, htag⟩]
      have hhead : m.bodyStart + (encodeFields m.fields).length + trailer.tag.digits.length + 1 =
          (m.head ++ trailer.tag.digits ++ [equalsSign]).length := by
        simp only [List.length_append, m.head_length, m.bodyLength_eq, List.length_singleton]
      have hchars : m.head ++ trailer.encode ++ suffix =
          (m.head ++ trailer.tag.digits ++ [equalsSign]) ++ (trailer.value ++ (SOH :: suffix)) := by
        simp [Field.encode]
      rw [TagValue.bytes, hhead, hchars, List.drop_left, List.take_left]
  generalize m.head ++ trailer.encode ++ suffix = bytes at hfields hvalue
  rw [fieldCalls_append, List.map_append, List.map_cons, List.map_append, hfields]
  simp [fieldCalls, Callback.event, hvalue, htag, m.bodyLength_eq]

/-- **Decode undoes encode.**  Whatever bytes follow the encoding of a message,
the parser with options 0 returns 0, consumes exactly the encoding, and reports
the BodyLength and version, the fields in order and the trailer. -/
theorem decode_encode (m : FixMessage) (suffix : List UInt8)
    (hfit : (m.encode ++ suffix).length ≤ intMax) :
    ∃ run, vmarsFixParseMsg (m.encode ++ suffix) (m.encode ++ suffix).length 0 = .ok run ∧
      run.ret = { result := .ok, bytesConsumed := m.encode.length } ∧
      run.calls.map (Callback.event (m.encode ++ suffix)) =
        .startp (encodeFields m.fields).length m.version.fixType ::
          m.fields.map (fun field => .tagp field.tag.value field.value) ++
          [.tagp 10 (threeDigits m.checksum), .endp] := by
  have hle : m.encode.length ≤ (m.encode ++ suffix).length := by simp
  refine ⟨_, vmarsFixParseMsg_encode m hle (Nat.le_refl _) (by omega), rfl, ?_⟩
  have hoption : optReportCalculatedChecksum 0 = false := by decide
  have hevents := @events_trailer 0 m m.trailerField suffix rfl (by simp [hoption])
  rw [hoption] at hevents
  rw [FixMessage.encode, m.trailer_eq]
  exact hevents

theorem msgTypeNumeral_le : (Numeral.ofNat 35).value ≤ intMax := by decide

theorem senderCompIdNumeral_le : (Numeral.ofNat 49).value ≤ intMax := by decide

theorem targetCompIdNumeral_le : (Numeral.ofNat 56).value ≤ intMax := by decide

theorem newOrder_no_soh : SOH ∉ ascii "D" := by decide

/-- The new order of one field `35=D`, with its canonical BodyLength `5`. -/
def newOrderExample : FixMessage :=
  .ofFields .fix42 [⟨.ofNat 35, ascii "D", msgTypeNumeral_le, newOrder_no_soh⟩] (by simp)

/-- A new order, followed by the start of the next message. -/
theorem decode_encode_newOrder :
    ∃ run, vmarsFixParseMsg (newOrderExample.encode ++ ascii "8=FI") 30 0 = .ok run ∧
      run.ret = { result := .ok, bytesConsumed := newOrderExample.encode.length } ∧
      run.calls.map (Callback.event (newOrderExample.encode ++ ascii "8=FI")) =
        [.startp 5 42, .tagp 35 (ascii "D"), .tagp 10 (ascii "181"), .endp] :=
  decode_encode newOrderExample (ascii "8=FI") (by decide)

end Vmars
