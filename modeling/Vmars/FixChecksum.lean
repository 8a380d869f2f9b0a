import Vmars.FixDecode
import Vmars.FixParserSafety

/-!
# The checksum of a message

What the checksum is, what it protects and how it is repaired.

* `calculateChecksum_plain`: the blocks of eight bytes and the signed rest add up to
  the plain sum of the bytes, modulo 256;
* `corruption_detected`: a message with one changed byte before its trailer, outside
  the digits of BodyLength, is not accepted;
* `checksum_repaired`: the three characters that are reported for tag 10 in place of
  a wrong checksum make the message acceptable.
-/

namespace Vmars

open CMemory

/-! ## The plain sum -/

/-- **The blocked checksum is the plain one.**  The blocks give the sum of their
unsigned bytes, the rest is congruent to the sum of its own, and no partial sum leaves
the range of a `long`. -/
theorem calculateChecksum_plain {buf : List UInt8} {n : Nat} (hbuf : n ≤ buf.length)
    (hn : n ≤ intMax) :
    (∃ blocks total : Int, checksumBlocks buf (n / 8) 0 0 = .ok blocks ∧
      blocks = byteSum (buf.take (8 * (n / 8))) ∧
      checksumTail buf (n % 8) (8 * (n / 8) : Nat) blocks = .ok total ∧
      total % 256 = (blocks + byteSum ((buf.drop (8 * (n / 8))).take (n % 8))) % 256 ∧
      wrap64 blocks = blocks ∧ wrap64 total = total) ∧
    calculateChecksum buf n = .ok (byteSum (buf.take n) % 256 : Nat) := by
  have hblocks := @checksumBlocks_eq buf (n / 8) 0 0 (by omega)
  rw [List.drop_zero, Int.zero_add] at hblocks
  obtain ⟨total, htail, hmod, hlo, hhi⟩ := @checksumTail_eq buf (n % 8) (8 * (n / 8))
    (byteSum (buf.take (8 * (n / 8)))) (by omega)
  have hsum := byteSum_le (buf.take (8 * (n / 8)))
  rw [List.length_take] at hsum
  unfold intMax at hn
  refine ⟨⟨_, total, hblocks, rfl, htail, hmod, ?_, ?_⟩, calculateChecksum_natCast hbuf⟩
  · apply wrap64_of_range
    · omega
    · omega
  · apply wrap64_of_range
    · omega
    · omega

/-- Eleven bytes, the last three of which are negative characters. -/
theorem calculateChecksum_plain_negative :
    (∃ blocks total : Int, checksumBlocks (List.replicate 11 200) 1 0 0 = .ok blocks ∧
      blocks = byteSum ((List.replicate 11 200).take 8) ∧
      checksumTail (List.replicate 11 200) 3 8 blocks = .ok total ∧
      total % 256 = (blocks + byteSum (((List.replicate 11 200).drop 8).take 3)) % 256 ∧
      wrap64 blocks = blocks ∧ wrap64 total = total) ∧
    calculateChecksum (List.replicate 11 200) 11 =
      .ok (byteSum ((List.replicate 11 200).take 11) % 256 : Nat) :=
  @calculateChecksum_plain (List.replicate 11 200) 11 (by decide) (by decide)

/-! ## A changed byte -/

/-- A changed byte changes the sum by the difference. -/
theorem byteSum_set {bytes : List UInt8} {i : Nat} {old : UInt8} (h : bytes[i]? = some old)
    (b : UInt8) : byteSum (bytes.set i b) + old.toNat = byteSum bytes + b.toNat := by
  induction bytes generalizing i with
  | nil => cases h
  | cons c bytes ih =>
      cases i with
      | zero =>
          obtain rfl := Option.some.inj h
          rw [List.set_cons_zero, byteSum_cons, byteSum_cons]
          omega
      | succ i =>
          have hrest := ih (i := i) (by simpa using h)
          rw [List.set_cons_succ, byteSum_cons, byteSum_cons]
          omega

/-- Another byte in one place is another sum, also modulo 256. -/
theorem byteSum_set_ne {bytes : List UInt8} {i : Nat} {b : UInt8} (hi : i < bytes.length)
    (hb : bytes[i]? ≠ some b) : byteSum (bytes.set i b) % 256 ≠ byteSum bytes % 256 := by
  rw [List.getElem?_eq_getElem hi] at hb
  have hset := byteSum_set (List.getElem?_eq_getElem hi) b
  have hne : bytes[i].toNat ≠ b.toNat := by
    intro heq
    exact hb (congrArg some (UInt8.toNat_inj.mp heq))
  have hold := bytes[i].toNat_lt
  have hnew := b.toNat_lt
  omega

/-- What the scan of BodyLength sees behind the header. -/
theorem bodyOffset_of_drop {buf digits rest : List UInt8} {c : UInt8}
    (hdigits : ∀ b ∈ digits, isDigit b = true) (hc : isDigit c = false)
    (h : buf.drop initialHeaderLen = digits ++ c :: rest) :
    bodyLengthDigits buf = digits ∧
      bodyOffset buf = if c = SOH then some (initialHeaderLen + digits.length + 1) else none := by
  have htake : bodyLengthDigits buf = digits := by
    rw [bodyLengthDigits, h, takeWhile_stop hdigits hc]
  refine ⟨htake, ?_⟩
  unfold bodyOffset
  rw [htake, h, dropWhile_stop hdigits hc]

/-- Without the SOH behind the digits of BodyLength nothing is accepted. -/
theorem not_accepted_of_bodyOffset {buf : List UInt8} (h : bodyOffset buf = none) :
    ∃ run, vmarsFixParseMsg buf buf.length 0 = .ok run ∧ run.ret.result ≠ .ok := by
  rw [vmarsFixParseMsg_eq (Nat.le_refl _), List.take_length]
  split
  · exact ⟨_, rfl, by simp [rejected]⟩
  split
  · rw [h]
    exact ⟨_, rfl, by simp [rejected]⟩
  · exact ⟨_, rfl, by simp [rejected]⟩

/-- With the digits of BodyLength and the trailer in place, the bytes before the
trailer must have the checksum of the message. -/
theorem not_accepted_of_byteSum (m : FixMessage) {head suffix rest : List UInt8}
    (hfit : m.head.length ≤ intMax) (hlength : head.length = m.head.length)
    (hdrop : (head ++ (m.trailer ++ suffix)).drop initialHeaderLen =
      m.bodyLength.digits ++ SOH :: rest)
    (hsum : byteSum head % 256 ≠ m.checksum) :
    ∃ run,
      vmarsFixParseMsg (head ++ (m.trailer ++ suffix)) (head ++ (m.trailer ++ suffix)).length 0 =
      .ok run ∧ run.ret.result ≠ .ok := by
  obtain ⟨hdigits, hoffset⟩ := bodyOffset_of_drop m.bodyLength.isDigit_of_mem isDigit_SOH hdrop
  rw [if_pos rfl] at hoffset
  have hhead := m.head_length
  have hvalue : wrap32 (decimal (bodyLengthDigits (head ++ (m.trailer ++ suffix)))) =
      m.bodyLength.value := by
    rw [hdigits]
    exact wrap32_natCast (by unfold Numeral.value at hhead; omega)
  have hrange : BodyLengthInRange
      ((head ++ (m.trailer ++ suffix)).take (head ++ (m.trailer ++ suffix)).length) := by
    rw [List.take_length]
    intro _ p _
    rw [hvalue]
    omega
  obtain ⟨run, hrun, -⟩ := @vmarsFixParseMsg_isOk _ _ 0 (Nat.le_refl _) hrange
  refine ⟨run, hrun, ?_⟩
  intro hok
  obtain ⟨p, k, fields, haccepted⟩ := vmarsFixParseMsg_accepted (Nat.le_refl _) hrun hok
  -- the body ends where it does in the message
  have hp := haccepted.offset
  have hbody := haccepted.bodyLength
  rw [List.take_length, hoffset] at hp
  rw [List.take_length, hvalue] at hbody
  have hk : k = head.length := by
    obtain rfl := Option.some.inj hp
    unfold FixMessage.bodyStart at hhead
    omega
  -- so the supplied checksum is that of the message
  obtain ⟨b0, b1, b2, h0, h1, h2, hsupplied⟩ := haccepted.checksum (by decide)
  have hread : ∀ j : Nat, (head ++ (m.trailer ++ suffix))[k + j]? = (m.trailer ++ suffix)[j]? := by
    intro j
    rw [hk, List.getElem?_append_right (Nat.le_add_right _ _), Nat.add_sub_cancel_left]
  have hthree : threeDigits m.checksum = [b0, b1, b2] := by
    rw [hread] at h0 h1 h2
    simp only [FixMessage.trailer, threeDigits, ascii] at h0 h1 h2 ⊢
    simp at h0 h1 h2 ⊢
    exact ⟨h0, h1, h2⟩
  have hlt := m.checksum_lt
  rw [suppliedValue_threeDigits (by omega) hthree, hk, List.take_left] at hsupplied
  exact hsum (Int.ofNat.inj hsupplied).symm

/-- With another byte in place of the SOH behind BodyLength, the scan finds none: it
stops at this byte or, if it is a digit, at the first `'='`. -/
theorem bodyOffset_without_SOH (m : FixMessage) (rest : List UInt8) {b : UInt8} (hb : b ≠ SOH) :
    bodyOffset (m.version.header ++
      (m.bodyLength.digits ++ (b :: encodeFields m.fields ++ rest))) = none := by
  have hheader := m.version.header_length
  by_cases hdigit : isDigit b = true
  · obtain ⟨field, fields, hfields⟩ := List.exists_cons_of_ne_nil m.fields_ne
    have hnumeral : ∀ c ∈ m.bodyLength.digits ++ b :: field.tag.digits, isDigit c = true := by
      intro c hc
      rcases List.mem_append.mp hc with hc | hc
      · exact m.bodyLength.isDigit_of_mem c hc
      · rcases List.mem_cons.mp hc with rfl | hc
        · exact hdigit
        · exact field.tag.isDigit_of_mem c hc
    obtain ⟨-, hoffset⟩ := @bodyOffset_of_drop
      (m.version.header ++ (m.bodyLength.digits ++ (b :: encodeFields m.fields ++ rest)))
      _ (field.value ++ SOH :: (encodeFields fields ++ rest)) _ hnumeral isDigit_equalsSign
      (by rw [List.drop_left' hheader, hfields]; simp [Field.encode])
    rw [hoffset, if_neg (by decide)]
  · obtain ⟨-, hoffset⟩ := @bodyOffset_of_drop
      (m.version.header ++ (m.bodyLength.digits ++ (b :: encodeFields m.fields ++ rest)))
      _ (encodeFields m.fields ++ rest) _ m.bodyLength.isDigit_of_mem
      (Bool.eq_false_iff.mpr hdigit) (by rw [List.drop_left' hheader]; rfl)
    rw [hoffset, if_neg hb]

/-- **Corruption is detected.**  A message in which one byte before the trailer is
replaced by another, other than a digit of BodyLength, is not accepted. -/
theorem corruption_detected (m : FixMessage) (suffix : List UInt8) {i : Nat} {b : UInt8}
    (hfit : (m.encode ++ suffix).length ≤ intMax) (hi : i < m.head.length)
    (hdigit : ¬ (initialHeaderLen ≤ i ∧ i < initialHeaderLen + m.bodyLength.digits.length))
    (hb : m.encode[i]? ≠ some b) :
    ∃ run, vmarsFixParseMsg ((m.encode ++ suffix).set i b) ((m.encode ++ suffix).set i b).length 0 =
      .ok run ∧ run.ret.result ≠ .ok := by
  have hsplit : (m.encode ++ suffix).set i b = m.head.set i b ++ (m.trailer ++ suffix) := by
    rw [FixMessage.encode, List.append_assoc, List.set_append_left _ _ hi]
  have hb' : m.head[i]? ≠ some b := by
    rwa [FixMessage.encode, List.getElem?_append_left hi] at hb
  have hheader := m.version.header_length
  have hhead : m.head =
      m.version.header ++ (m.bodyLength.digits ++ SOH :: encodeFields m.fields) := by
    simp [FixMessage.head]
  have hsum := byteSum_set_ne hi hb'
  have hshort : m.head.length ≤ intMax := by
    simp only [FixMessage.encode, List.length_append] at hfit
    omega
  rw [hsplit]
  by_cases hbefore : i < initialHeaderLen
  · -- in the header
    refine @not_accepted_of_byteSum m _ suffix (encodeFields m.fields ++ (m.trailer ++ suffix))
      hshort (List.length_set ..) ?_ hsum
    rw [hhead, List.set_append_left _ _ (by omega), List.append_assoc,
      List.drop_left' (by rw [List.length_set, hheader])]
    simp
  have hset : m.head.set i b = m.version.header ++
      (m.bodyLength.digits ++ (SOH :: encodeFields m.fields).set
        (i - initialHeaderLen - m.bodyLength.digits.length) b) := by
    rw [hhead, List.set_append_right _ _ (by omega), List.set_append_right _ _ (by omega), hheader]
  by_cases hsoh : i = initialHeaderLen + m.bodyLength.digits.length
  · -- the SOH behind BodyLength
    rw [hset, show i - initialHeaderLen - m.bodyLength.digits.length = 0 by omega,
      List.set_cons_zero, List.append_assoc, List.append_assoc]
    have hne : b ≠ SOH := by
      intro heq
      subst heq
      apply hb'
      rw [hhead, List.getElem?_append_right (by omega), List.getElem?_append_right (by omega),
        hheader, show i - initialHeaderLen - m.bodyLength.digits.length = 0 by omega]
      rfl
    exact not_accepted_of_bodyOffset (bodyOffset_without_SOH m (m.trailer ++ suffix) hne)
  · -- in a field
    refine @not_accepted_of_byteSum m _ suffix ((encodeFields m.fields).set
        (i - initialHeaderLen - m.bodyLength.digits.length - 1) b ++ (m.trailer ++ suffix))
      hshort (List.length_set ..) ?_ hsum
    obtain ⟨j, hj⟩ : ∃ j, i - initialHeaderLen - m.bodyLength.digits.length = j + 1 :=
      ⟨i - initialHeaderLen - m.bodyLength.digits.length - 1, by omega⟩
    rw [hset, List.append_assoc, List.drop_left' hheader, hj, List.set_cons_succ]
    simp

/-- The version digit of the order becomes the one of the other version. -/
theorem corruption_detected_version :
    ∃ run, vmarsFixParseMsg ((newOrderExample.encode ++ ascii "8=").set 8 52)
        ((newOrderExample.encode ++ ascii "8=").set 8 52).length 0 = .ok run ∧
      run.ret.result ≠ .ok :=
  corruption_detected newOrderExample (ascii "8=") (by decide) (by decide) (by decide) (by decide)

/-! ## Repair -/

/-- `FIX_OPT_SKIP_VERIFY_CHECKSUM`. -/
def fixOptSkipVerifyChecksum : Int32 := 1

/-- `FIX_OPT_REPORT_CALCULATED_CHECKSUM_FOR_TAG_10`. -/
def fixOptReportCalculatedChecksumForTag10 : Int32 := 2

/-- A message with these characters in place of its trailer digits. -/
def FixMessage.encodeWith (m : FixMessage) (digits : List UInt8) : List UInt8 :=
  m.head ++ ascii "10=" ++ digits ++ [SOH]

theorem FixMessage.encodeWith_checksum (m : FixMessage) :
    m.encodeWith (threeDigits m.checksum) = m.encode := by
  simp [encodeWith, encode, trailer]

/-- Without another field of tag 10, the trailer alone is reported for it. -/
theorem tagp_ten_mem_iff {m : FixMessage} {chars value : List UInt8} {start : Event}
    (hstart : ∀ value, start ≠ .tagp 10 value)
    (hten : ∀ field ∈ m.fields, field.tag.value ≠ 10) :
    .tagp 10 value ∈ start :: m.fields.map (fun field => .tagp field.tag.value field.value) ++
        [.tagp 10 chars, .endp] ↔ value = chars := by
  constructor
  · intro hmem
    rcases List.mem_append.mp hmem with hmem | hmem
    · -- a field, whose tag is another one
      rcases List.mem_cons.mp hmem with hmem | hmem
      · exact absurd hmem.symm (hstart value)
      obtain ⟨field, hfield, heq⟩ := List.mem_map.mp hmem
      have htag : (field.tag.value : Int) = 10 := by
        injection heq
      exact absurd (Int.ofNat.inj htag) (hten field hfield)
    · simpa using hmem
  · intro hvalue
    rw [hvalue]
    exact List.mem_append_right _ (List.mem_cons_self ..)

/-- **Checksum repair.**  Whatever three characters stand in the trailer, a parse that
skips the comparison and reports the calculated checksum succeeds, and the characters
that it reports for tag 10 are those with which the default parse does: with the same
result, the same number of bytes and the same calls. -/
theorem checksum_repaired (m : FixMessage) (digits suffix : List UInt8)
    (hthree : digits.length = 3) (hsoh : SOH ∉ digits)
    (hten : ∀ field ∈ m.fields, field.tag.value ≠ 10)
    (hfit : (m.encodeWith digits ++ suffix).length ≤ intMax) :
    ∃ chars run repaired,
      vmarsFixParseMsg (m.encodeWith digits ++ suffix) (m.encodeWith digits ++ suffix).length
        (fixOptSkipVerifyChecksum ||| fixOptReportCalculatedChecksumForTag10) = .ok run ∧
      run.ret.result = .ok ∧ chars.length = 3 ∧
      (∀ value, .tagp 10 value ∈ run.calls.map (Callback.event (m.encodeWith digits ++ suffix)) ↔
        value = chars) ∧
      vmarsFixParseMsg (m.encodeWith chars ++ suffix) (m.encodeWith chars ++ suffix).length 0 =
        .ok repaired ∧
      repaired.ret = run.ret ∧
      repaired.calls.map (Callback.event (m.encodeWith chars ++ suffix)) =
        run.calls.map (Callback.event (m.encodeWith digits ++ suffix)) := by
  let trailer : Field := ⟨⟨ascii "10", by decide, isDigit_of_mem_ten⟩, digits, by decide, hsoh⟩
  have htrailer : m.encodeWith digits = m.head ++ trailer.encode := by
    simp [FixMessage.encodeWith, trailer, Field.encode, ascii, equalsSign]
  have hlength : (m.head ++ trailer.encode).length = m.encode.length := by
    rw [FixMessage.encode, m.trailer_eq, List.length_append, List.length_append,
      trailer.encode_length, m.trailerField.encode_length]
    simp [trailer, hthree, FixMessage.trailerField, threeDigits]
  rw [htrailer] at hfit ⊢
  generalize hoptions :
    fixOptSkipVerifyChecksum ||| fixOptReportCalculatedChecksumForTag10 = options
  have hvalidate : optValidateChecksum options = false := by
    rw [← hoptions]
    decide
  have hreport : optReportCalculatedChecksum options = true := by
    rw [← hoptions]
    decide
  have hreport0 : optReportCalculatedChecksum 0 = false := by decide
  have hle : ∀ bytes : List UInt8, bytes.length ≤ (bytes ++ suffix).length := by
    intro bytes
    rw [List.length_append]
    omega
  -- both runs report the fields and, for the trailer, the checksum
  have hrun := @vmarsFixParseMsg_trailer options m trailer suffix _ rfl hthree
    (fun hyes => absurd (hvalidate.symm.trans hyes) (by decide)) (hle _) (Nat.le_refl _)
    (Nat.le_trans (hle _) hfit)
  have hevents := @events_trailer options m trailer suffix rfl (fun field hfield hten' =>
    hten field hfield (Int.ofNat.inj hten'.2))
  have hrepaired := @vmarsFixParseMsg_encode 0 m suffix _ (hle _) (Nat.le_refl _)
    (by rw [← hlength]; exact Nat.le_trans (hle _) hfit)
  have hevents0 := @events_trailer 0 m m.trailerField suffix rfl (by simp [hreport0])
  rw [hreport, if_pos rfl] at hevents
  rw [hreport0, if_neg (by decide), ← m.trailer_eq] at hevents0
  have hagain : vmarsFixParseMsg (m.encodeWith (threeDigits m.checksum) ++ suffix)
      (m.encodeWith (threeDigits m.checksum) ++ suffix).length 0 =
      .ok { ret := { result := .ok, bytesConsumed := m.encode.length }
            calls := .startp m.bodyLength.value m.version.fixType ::
              fieldCalls 0 m.checksum m.bodyStart (m.fields ++ [m.trailerField]) ++ [.endp] } := by
    rw [m.encodeWith_checksum]
    exact hrepaired
  refine ⟨threeDigits m.checksum, _, _, hrun, rfl, rfl, ?_, hagain, ?_, ?_⟩
  · intro value
    rw [hevents]
    exact tagp_ten_mem_iff (fun _ => Event.noConfusion) hten
  · rw [hlength]
  · rw [m.encodeWith_checksum, hevents]
    exact hevents0

/-- The order with letters for its checksum. -/
theorem checksum_repaired_newOrder :
    ∃ chars run repaired,
      vmarsFixParseMsg (newOrderExample.encodeWith (ascii "abc") ++ [])
        (newOrderExample.encodeWith (ascii "abc") ++ []).length
        (fixOptSkipVerifyChecksum ||| fixOptReportCalculatedChecksumForTag10) = .ok run ∧
      run.ret.result = .ok ∧ chars.length = 3 ∧
      (∀ value, .tagp 10 value ∈
          run.calls.map (Callback.event (newOrderExample.encodeWith (ascii "abc") ++ [])) ↔
        value = chars) ∧
      vmarsFixParseMsg (newOrderExample.encodeWith chars ++ [])
        (newOrderExample.encodeWith chars ++ []).length 0 = .ok repaired ∧
      repaired.ret = run.ret ∧
      repaired.calls.map (Callback.event (newOrderExample.encodeWith chars ++ [])) =
        run.calls.map (Callback.event (newOrderExample.encodeWith (ascii "abc") ++ [])) :=
  checksum_repaired newOrderExample (ascii "abc") [] (by decide) (by decide) (by decide) (by decide)

end Vmars
