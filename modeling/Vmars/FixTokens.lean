import Vmars.FixParserSafety

/-!
# The fields of an accepted message

A buffer that the parser accepts is cut into fields from behind the SOH of its
BodyLength to the end of its trailer, without a gap, and every field is reported once
and in order.  The tag is accumulated in an `int`, so a numeral that is too large for
one is reported as another tag: `4294967331` as `35`.

* `tagsFit_iff`: a numeral stands at the start of one of the fields;
* `faithfulTokens_iff`: the reports are faithful exactly when all these numerals fit.
-/

namespace Vmars

open CMemory

/-! ## Numerals at the start of a field -/

/-- Every numeral before an `'='` at the start of a field fits an `int`; a field
starts where the bytes do and behind every SOH. -/
def TagsFit (bytes : List UInt8) : Prop :=
  ∀ pre digits post, bytes = pre ++ digits ++ equalsSign :: post →
    (pre = [] ∨ pre.getLast? = some SOH) → (∀ b ∈ digits, isDigit b = true) →
      decimal digits ≤ intMax

/-- What stands before the SOH of a field has none. -/
theorem RawField.IsRead.no_soh_before {field : RawField} (h : field.IsRead) :
    SOH ∉ field.digits ++ equalsSign :: field.chars := by
  intro hmem
  rcases List.mem_append.mp hmem with hdigit | hmem
  · exact absurd (h.isDigit_of_mem SOH hdigit) (by decide)
  · rcases List.mem_cons.mp hmem with hsign | hchar
    · exact absurd hsign (by decide)
    · exact h.no_soh hchar

/-- Up to the first `'='` two spellings of a field agree. -/
theorem digits_unique {xs ys post post' : List UInt8} (hx : ∀ b ∈ xs, isDigit b = true)
    (hy : ∀ b ∈ ys, isDigit b = true) (h : xs ++ equalsSign :: post = ys ++ equalsSign :: post') :
    xs = ys := by
  have hsign : isDigit equalsSign = false := by decide
  have hspan : ∀ {zs rest : List UInt8}, (∀ b ∈ zs, isDigit b = true) →
      (zs ++ equalsSign :: rest).takeWhile isDigit = zs := by
    intro zs rest hz
    rw [List.takeWhile_append_of_pos hz, List.takeWhile_cons_of_neg (by simp [hsign]),
      List.append_nil]
  rw [← hspan hx, h, hspan hy]

/-- Bytes that end with SOH and start like a field go at least to its end. -/
theorem field_isPrefix {field : RawField} (hread : field.IsRead) {pre rest post : List UInt8}
    (h : field.encode ++ rest = pre ++ post) (hlast : pre.getLast? = some SOH) :
    ∃ pre', pre = field.encode ++ pre' ∧ rest = pre' ++ post ∧
      (pre' = [] ∨ pre'.getLast? = some SOH) := by
  obtain ⟨init, hinit⟩ := List.getLast?_eq_some_iff.mp hlast
  have hshape : field.encode = (field.digits ++ equalsSign :: field.chars) ++ [SOH] := rfl
  rcases List.append_eq_append_iff.mp h with ⟨pre', hpre, hrest⟩ | ⟨tail, hfield, -⟩
  · refine ⟨pre', hpre, hrest, ?_⟩
    rcases pre'.eq_nil_or_concat with hnil | ⟨xs, b, hb⟩
    · exact .inl hnil
    · refine .inr ?_
      rw [hpre, hb, List.concat_eq_append, ← List.append_assoc, List.getLast?_concat] at hlast
      rw [hb, List.concat_eq_append, List.getLast?_concat, hlast]
  · -- the SOH that ends `pre` is the one that ends the field
    have hend : tail = [] := by
      rcases tail.eq_nil_or_concat with hnil | ⟨xs, b, hb⟩
      · exact hnil
      · have hinside : field.digits ++ equalsSign :: field.chars = pre ++ xs := by
          rw [hshape, hb, List.concat_eq_append, ← List.append_assoc] at hfield
          exact (List.append_inj' hfield rfl).1
        refine (hread.no_soh_before ?_).elim
        rw [hinside, hinit]
        simp
    refine ⟨[], ?_, ?_, .inl rfl⟩
    · rw [hfield, hend]
      simp
    · rw [hfield, hend, List.append_nil] at h
      exact List.append_cancel_left h

/-- A numeral at the start of a field is the one of a field. -/
theorem exists_field_of_numeral {fields : List RawField} (hread : ∀ field ∈ fields, field.IsRead)
    {pre digits post : List UInt8}
    (h : fields.flatMap RawField.encode = pre ++ digits ++ equalsSign :: post)
    (hpre : pre = [] ∨ pre.getLast? = some SOH) (hdigits : ∀ b ∈ digits, isDigit b = true) :
    ∃ field ∈ fields, field.digits = digits := by
  induction fields generalizing pre with
  | nil => simp at h
  | cons field fields ih =>
      have hfirst := hread field (List.mem_cons_self ..)
      rw [List.flatMap_cons] at h
      rcases hpre with rfl | hlast
      · have hspelling : field.digits ++ equalsSign ::
            (field.chars ++ SOH :: fields.flatMap RawField.encode) =
            digits ++ equalsSign :: post := by
          rw [List.nil_append] at h
          rw [← h, RawField.encode]
          simp
        exact ⟨field, List.mem_cons_self ..,
          digits_unique hfirst.isDigit_of_mem hdigits hspelling⟩
      · rw [List.append_assoc] at h
        obtain ⟨pre', -, hrest, hpre'⟩ := field_isPrefix hfirst h hlast
        rw [← List.append_assoc] at hrest
        obtain ⟨other, hmem, hother⟩ :=
          ih (fun f hf => hread f (List.mem_cons_of_mem _ hf)) hrest hpre'
        exact ⟨other, List.mem_cons_of_mem _ hmem, hother⟩

/-- Only the numerals of the fields have to fit. -/
theorem tagsFit_iff {fields : List RawField} (hread : ∀ field ∈ fields, field.IsRead) :
    TagsFit (fields.flatMap RawField.encode) ↔
      ∀ field ∈ fields, decimal field.digits ≤ intMax := by
  constructor
  · intro hfit field hfield
    obtain ⟨before, after, rfl⟩ := List.append_of_mem hfield
    apply hfit (before.flatMap RawField.encode) field.digits
      (field.chars ++ SOH :: after.flatMap RawField.encode)
    · simp [RawField.encode]
    · by_cases hnil : before = []
      · exact .inl (by rw [hnil]; rfl)
      · exact .inr (getLast?_fields hnil)
    · exact (hread field hfield).isDigit_of_mem
  · intro hfields pre digits post hsplit hpre hdigits
    obtain ⟨field, hmem, rfl⟩ := exists_field_of_numeral hread hsplit hpre hdigits
    exact hfields field hmem

/-! ## What is reported -/

/-- The calls of `tagp`, with the tag and the range of the value. -/
def tagCalls (calls : List Callback) : List (Int × TagValue) :=
  calls.filterMap fun call =>
    match call with
    | .tagp tag value => some (tag, value)
    | _ => none

/-- The faithful reports of fields of which the first starts at `start`. -/
def faithfulCalls : Nat → List RawField → List (Int × TagValue)
  | _, [] => []
  | start, field :: fields =>
      ((decimal field.digits : Nat),
          .inBuffer (start + field.digits.length + 1) field.chars.length) ::
        faithfulCalls (start + field.encode.length) fields

/-- The bytes from behind the SOH of BodyLength to `bytes_consumed` are fields, and
these are what `tagp` is called with. -/
def FaithfulTokens (buf : List UInt8) (len : Nat) (run : ParseRun) : Prop :=
  ∃ p fields, bodyOffset (buf.take len) = some p ∧ (buf.take p).getLast? = some SOH ∧
    (∀ field ∈ fields, field.IsRead) ∧
    (buf.take run.ret.bytesConsumed.toNat).drop p = fields.flatMap RawField.encode ∧
    tagCalls run.calls = faithfulCalls p fields

/-- The bytes that an accepted message has behind the SOH of BodyLength: as many as
BodyLength says, and its trailer. -/
def bodyBytes (message : List UInt8) : List UInt8 :=
  match bodyOffset message with
  | none => []
  | some p =>
      (message.take
        ((wrap32 (decimal (bodyLengthDigits message)) + p).toNat + checkSumLen)).drop p

/-- The parser reports the numbers of the fields as `int`s. -/
theorem tagCalls_rawCalls (calculated : Int) (start : Nat) (fields : List RawField) :
    tagCalls (rawCalls 0 calculated start fields) =
      (faithfulCalls start fields).map fun call => (wrap32 call.1, call.2) := by
  induction fields generalizing start with
  | nil => rfl
  | cons field fields ih =>
      have hoption : ¬ (optReportCalculatedChecksum 0 = true ∧ field.tag = 10) := by
        rintro ⟨hoption, -⟩
        exact absurd hoption (by decide)
      rw [rawCalls, if_neg hoption, faithfulCalls, List.map_cons, ← ih]
      rfl

/-- A number survives that exactly when it fits. -/
theorem wrap32_eq_self_iff (n : Nat) : wrap32 n = n ↔ n ≤ intMax := by
  unfold wrap32 intMax
  omega

/-- A wrapped report is the faithful one when its numeral fits. -/
theorem map_wrap32_eq_iff {start : Nat} {fields : List RawField} :
    ((faithfulCalls start fields).map fun call => (wrap32 call.1, call.2)) =
        faithfulCalls start fields ↔ ∀ field ∈ fields, decimal field.digits ≤ intMax := by
  induction fields generalizing start with
  | nil => simp [faithfulCalls]
  | cons field fields ih =>
      rw [faithfulCalls, List.map_cons, List.cons.injEq, ih, List.forall_mem_cons, Prod.mk.injEq,
        wrap32_eq_self_iff]
      simp

/-- Every field is among the faithful calls. -/
theorem mem_faithfulCalls {start : Nat} {fields : List RawField} {field : RawField}
    (h : field ∈ fields) :
    ∃ value, ((decimal field.digits : Int), value) ∈ faithfulCalls start fields := by
  induction fields generalizing start with
  | nil => cases h
  | cons first fields ih =>
      rcases List.mem_cons.mp h with rfl | h
      · exact ⟨_, List.mem_cons_self ..⟩
      · obtain ⟨value, hvalue⟩ := @ih (start + first.encode.length) h
        exact ⟨value, List.mem_cons_of_mem _ hvalue⟩

/-- What is reported is an `int`. -/
theorem numerals_le_of_calls {start start' : Nat} {fields fields' : List RawField}
    (h : faithfulCalls start fields =
      (faithfulCalls start' fields').map fun call => (wrap32 call.1, call.2)) :
    ∀ field ∈ fields, decimal field.digits ≤ intMax := by
  intro field hfield
  obtain ⟨value, hmem⟩ := @mem_faithfulCalls start _ _ hfield
  rw [h] at hmem
  obtain ⟨call, -, heq⟩ := List.mem_map.mp hmem
  have hrange := wrap32_range call.1
  have htag : wrap32 call.1 = (decimal field.digits : Nat) := congrArg Prod.fst heq
  unfold intMax
  omega

/-! ## The reports of an accepted message -/

section Accepted

variable {buf : List UInt8} {len : Nat} {run : ParseRun}

/-- The calls for the fields stand between those of `startp` and `endp`. -/
theorem AcceptedAt.tagCalls_eq {p k : Nat} {fields : List RawField}
    (h : AcceptedAt buf len 0 p k fields run) :
    tagCalls run.calls = (faithfulCalls p fields).map fun call => (wrap32 call.1, call.2) := by
  rw [h.run_eq, ← tagCalls_rawCalls (byteSum (buf.take k) % 256 : Nat)]
  simp [tagCalls]

/-- The body of an accepted message is its fields. -/
theorem AcceptedAt.bodyBytes_eq {p k : Nat} {fields : List RawField}
    (h : AcceptedAt buf len 0 p k fields run) :
    bodyBytes (buf.take len) = fields.flatMap RawField.encode := by
  unfold bodyBytes
  rw [h.offset]
  simp only [h.bodyLength, Int.toNat_natCast]
  rw [List.take_take, Nat.min_eq_left h.le_len, h.fields_eq]

/-- The body of an accepted message starts behind an SOH: digits up to the end of the
buffer leave no room for a trailer. -/
theorem AcceptedAt.bodyStart_soh {p k : Nat} {fields : List RawField} (hlen : len ≤ buf.length)
    (h : AcceptedAt buf len 0 p k fields run) : (buf.take p).getLast? = some SOH := by
  have hheader := h.header.le_length
  have hfits := h.le_len
  have hoffset := h.offset
  rw [List.length_take, Nat.min_eq_left hlen] at hheader
  have hsplit := List.takeWhile_append_dropWhile (p := isDigit)
    (l := (buf.take len).drop initialHeaderLen)
  unfold bodyOffset at hoffset
  split at hoffset
  · -- there are fields behind `p`, so `p` is not the end of the buffer
    obtain rfl := Option.some.inj hoffset
    have hfields := h.fields_eq
    rw [List.drop_eq_nil_of_le (by simp only [List.length_take]; omega)] at hfields
    have hlast := getLast?_fields h.ne_nil
    rw [← hfields] at hlast
    cases hlast
  · next b tail hb =>
    split at hoffset
    · next hsoh =>
      obtain rfl := Option.some.inj hoffset
      rw [hb, hsoh] at hsplit
      rw [bodyLengthDigits]
      generalize ((buf.take len).drop initialHeaderLen).takeWhile isDigit = digits at hsplit
      have hbytes : buf.take len = (buf.take initialHeaderLen ++ digits ++ [SOH]) ++ tail := by
        have hhead := List.take_append_drop initialHeaderLen (buf.take len)
        rw [← hsplit, List.take_take, Nat.min_eq_left hheader] at hhead
        simpa using hhead.symm
      have hlength := congrArg List.length hbytes
      have hwhole : (buf.take len).take (initialHeaderLen + digits.length + 1) =
          buf.take initialHeaderLen ++ digits ++ [SOH] := by
        rw [hbytes]
        apply List.take_left'
        simp only [List.length_append, List.length_take, List.length_singleton]
        omega
      simp only [List.length_append, List.length_take, List.length_singleton] at hlength
      rw [List.take_take, Nat.min_eq_left (by omega)] at hwhole
      rw [hwhole, List.getLast?_concat]
    · cases hoffset

/-- Faithful reports are those of numerals that fit. -/
theorem tagsFit_of_faithful (hlen : len ≤ buf.length)
    (hrun : vmarsFixParseMsg buf len 0 = .ok run) (hok : run.ret.result = .ok)
    (hfaithful : FaithfulTokens buf len run) : TagsFit (bodyBytes (buf.take len)) := by
  obtain ⟨p, k, fields, h⟩ := vmarsFixParseMsg_accepted hlen hrun hok
  obtain ⟨p', fields', hoffset, -, hread, hbytes, hcalls⟩ := hfaithful
  obtain rfl : p = p' := Option.some.inj (h.offset.symm.trans hoffset)
  rw [h.tagCalls_eq] at hcalls
  rw [h.run_eq, Int.toNat_natCast, h.fields_eq] at hbytes
  rw [h.bodyBytes_eq, hbytes, tagsFit_iff hread]
  exact numerals_le_of_calls hcalls.symm

/-- **Faithful tokenisation.**  Every accepted message is cut into fields and reported
faithfully exactly when all numerals at the start of a field fit an `int`. -/
theorem faithfulTokens_iff (hlen : len ≤ buf.length)
    (hrun : vmarsFixParseMsg buf len 0 = .ok run) (hok : run.ret.result = .ok) :
    FaithfulTokens buf len run ↔ TagsFit (bodyBytes (buf.take len)) := by
  obtain ⟨p, k, fields, h⟩ := vmarsFixParseMsg_accepted hlen hrun hok
  constructor
  · exact tagsFit_of_faithful hlen hrun hok
  · intro hfit
    rw [h.bodyBytes_eq, tagsFit_iff h.isRead] at hfit
    refine ⟨p, fields, h.offset, h.bodyStart_soh hlen, h.isRead, ?_, ?_⟩
    · rw [h.run_eq, ← h.fields_eq, Int.toNat_natCast]
    · rw [h.tagCalls_eq]
      exact map_wrap32_eq_iff.mpr hfit

end Accepted

/-- A new order with its two fields. -/
theorem faithfulTokens_iff_newOrder :
    FaithfulTokens newOrderBytes 26
        { ret := { result := .ok, bytesConsumed := 26 }
          calls := [.startp 5 42, .tagp 35 (.inBuffer 17 1), .tagp 10 (.inBuffer 22 3), .endp] } ↔
      TagsFit (bodyBytes (newOrderBytes.take 26)) :=
  faithfulTokens_iff (by decide) (by decide +kernel) rfl

/-- A message of one field, whose tag is `2 ^ 32 + 35`. -/
def aliasedTag : List UInt8 :=
  ascii "8=FIX.4.2" ++ SOH :: ascii "9=13" ++ SOH :: ascii "4294967331=D" ++ SOH ::
    ascii "10=140" ++ [SOH]

/-- It is reported as the message type. -/
theorem not_faithfulTokens_aliasedTag :
    ∃ run, vmarsFixParseMsg aliasedTag aliasedTag.length 0 = .ok run ∧ run.ret.result = .ok ∧
      tagCalls run.calls = [(35, .inBuffer 26 1), (10, .inBuffer 31 3)] ∧
      ¬ FaithfulTokens aliasedTag aliasedTag.length run := by
  have hrun : vmarsFixParseMsg aliasedTag aliasedTag.length 0 =
      .ok { ret := { result := .ok, bytesConsumed := 35 }
            calls :=
              [.startp 13 42, .tagp 35 (.inBuffer 26 1), .tagp 10 (.inBuffer 31 3), .endp] } := by
    decide +kernel
  refine ⟨_, hrun, rfl, rfl, ?_⟩
  intro hfaithful
  have hfit := tagsFit_of_faithful (Nat.le_refl _) hrun rfl hfaithful
  have hbytes : bodyBytes (aliasedTag.take aliasedTag.length) =
      [] ++ ascii "4294967331" ++ equalsSign :: (ascii "D" ++ SOH :: ascii "10=140" ++ [SOH]) := by
    decide +kernel
  have hle := hfit _ _ _ hbytes (.inl rfl) (by decide +kernel)
  revert hle
  decide +kernel

end Vmars
