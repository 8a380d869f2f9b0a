import Vmars.FixParser

/-!
# What each loop of the parser computes

One lemma for each function of `fixparser.c`, on a range that lies inside the
buffer: the header test, the two number scans, the value scan, the checksum and
one round of the field loop.  Later modules use these and never unfold the loops.
-/

namespace Vmars

open CMemory

/-! ## The header -/

/-- The header test compares the bytes of the buffer with the header. -/
theorem strncmpEq_eq {buf header : List UInt8} {i : Nat} (h : i + header.length ≤ buf.length) :
    strncmpEq buf header i = .ok (decide (header <+: buf.drop i)) := by
  induction header generalizing i with
  | nil => simp [strncmpEq]
  | cons c cs ih =>
      have hi : i < buf.length := by simp at h; omega
      have hdrop : buf.drop i = buf[i] :: buf.drop (i + 1) := List.drop_eq_getElem_cons hi
      simp only [strncmpEq, readAt_natCast hi, ok_bind, hdrop, List.cons_prefix_cons]
      by_cases hb : buf[i] = c
      · simp [hb, ih (i := i + 1) (by simp at h; omega)]
      · simp [hb, Ne.symm hb]

/-! ## Number and value scans -/

/-- The scan of a number never goes back. -/
theorem numberLoop_le {terminator : UInt8} {buf : List UInt8} {n position : Nat} {number : Int}
    {scan : Int × Nat} (h : numberLoop terminator buf n position number = .ok (some scan)) :
    position ≤ scan.2 := by
  induction n generalizing position number with
  | zero =>
      cases h
      exact Nat.le_refl _
  | succ n ih =>
      obtain ⟨b, -, h⟩ := bind_eq_ok.mp h
      split at h
      · exact Nat.le_of_succ_le (ih h)
      · split at h
        · cases h
          exact Nat.le_succ _
        · cases h

/-- The scan of a number reads the run of digits and looks at the byte after it. -/
theorem numberLoop_eq {terminator : UInt8} {buf : List UInt8} {n position acc : Nat}
    (h : position + n ≤ buf.length) :
    numberLoop terminator buf n position (wrap32 acc) =
      .ok (match ((buf.drop position).take n).dropWhile isDigit with
        | [] => some (wrap32 (decimalFrom acc (((buf.drop position).take n).takeWhile isDigit)),
            position + n)
        | b :: _ =>
            if b = terminator then
              some (wrap32 (decimalFrom acc (((buf.drop position).take n).takeWhile isDigit)),
                position + (((buf.drop position).take n).takeWhile isDigit).length + 1)
            else none) := by
  induction n generalizing position acc with
  | zero => simp [numberLoop]
  | succ n ih =>
      have hi : position < buf.length := by omega
      have htake : (buf.drop position).take (n + 1) =
          buf[position] :: (buf.drop (position + 1)).take n := by
        rw [List.drop_eq_getElem_cons hi, List.take_succ_cons]
      simp only [numberLoop, readAt_natCast hi, ok_bind, htake]
      by_cases hd : isDigit buf[position]
      · have hacc : wrap32 (wrap32 (acc : Int) * 10 + digitValue buf[position]) =
            wrap32 ((acc * 10 + digitValue buf[position] : Nat) : Int) := by
          rw [wrap32_horner]; norm_cast
        rw [if_pos hd, hacc, ih (by omega), List.takeWhile_cons_of_pos hd,
          List.dropWhile_cons_of_pos hd]
        simp only [decimalFrom_cons, List.length_cons]
        have h1 : position + 1 + n = position + (n + 1) := by omega
        have h2 : ∀ k, position + 1 + k + 1 = position + (k + 1) + 1 := fun k => by omega
        simp only [h1, h2]
      · rw [if_neg hd, List.takeWhile_cons_of_neg hd, List.dropWhile_cons_of_neg hd]
        by_cases hb : buf[position] = terminator
        · simp [hb]
        · simp [hb]

/-- The scan of a value looks for the next SOH. -/
theorem valueLoop_eq {buf : List UInt8} {n position : Nat} (h : position + n ≤ buf.length) :
    valueLoop buf n position =
      .ok (match ((buf.drop position).take n).dropWhile (· ≠ SOH) with
        | [] => none
        | _ :: _ =>
            some (position + (((buf.drop position).take n).takeWhile (· ≠ SOH)).length + 1)) := by
  induction n generalizing position with
  | zero => simp [valueLoop]
  | succ n ih =>
      have hi : position < buf.length := by omega
      have htake : (buf.drop position).take (n + 1) =
          buf[position] :: (buf.drop (position + 1)).take n := by
        rw [List.drop_eq_getElem_cons hi, List.take_succ_cons]
      simp only [valueLoop, readAt_natCast hi, ok_bind, htake]
      by_cases hb : buf[position] = SOH
      · simp [hb]
      · rw [if_neg hb, ih (by omega), List.takeWhile_cons_of_pos (by simpa using hb),
          List.dropWhile_cons_of_pos (by simpa using hb)]
        have h2 : ∀ k, position + 1 + k + 1 = position + (k + 1) + 1 := fun k => by omega
        simp only [List.length_cons, h2]

/-! ## The checksum -/

/-- The sum of the bytes as unsigned numbers. -/
def byteSum (bytes : List UInt8) : Nat := (bytes.map UInt8.toNat).sum

@[simp] theorem byteSum_nil : byteSum [] = 0 := rfl

@[simp] theorem byteSum_cons (b : UInt8) (bs : List UInt8) :
    byteSum (b :: bs) = b.toNat + byteSum bs := by simp [byteSum]

@[simp] theorem byteSum_append (xs ys : List UInt8) :
    byteSum (xs ++ ys) = byteSum xs + byteSum ys := by simp [byteSum]

/-- A byte adds at most 255. -/
theorem byteSum_le (bytes : List UInt8) : byteSum bytes ≤ 255 * bytes.length := by
  induction bytes with
  | nil => exact Nat.le_refl _
  | cons b bytes ih =>
      have hb := b.toNat_lt
      rw [byteSum_cons, List.length_cons]
      omega

/-- `psadbw` adds the bytes from the pointer on. -/
theorem psadbw_eq {buf : List UInt8} {n pointer : Nat} (h : pointer + n ≤ buf.length) :
    psadbw buf n pointer = .ok (byteSum ((buf.drop pointer).take n)) := by
  induction n generalizing pointer with
  | zero => simp [psadbw]
  | succ n ih =>
      have hi : pointer < buf.length := by omega
      rw [List.drop_eq_getElem_cons hi, List.take_succ_cons]
      simp [psadbw, readAt_natCast hi, @ih (pointer + 1) (by omega)]

/-- The loop over the blocks adds theirs. -/
theorem checksumBlocks_eq {buf : List UInt8} {ii pointer : Nat} {sum : Int}
    (h : pointer + 8 * ii ≤ buf.length) :
    checksumBlocks buf ii pointer sum =
      .ok (sum + byteSum ((buf.drop pointer).take (8 * ii))) := by
  induction ii generalizing pointer sum with
  | zero => simp [checksumBlocks]
  | succ ii ih =>
      have hsplit : (buf.drop pointer).take (8 * (ii + 1)) =
          (buf.drop pointer).take 8 ++ (buf.drop (pointer + 8)).take (8 * ii) := by
        rw [show 8 * (ii + 1) = 8 + 8 * ii by omega, List.take_add, List.drop_drop]
      -- eight bytes sum up to less than 16 bits can hold
      have hblock := byteSum_le ((buf.drop pointer).take 8)
      rw [List.length_take] at hblock
      have hextract : mmExtractPi16 (byteSum ((buf.drop pointer).take 8)) =
          byteSum ((buf.drop pointer).take 8) := by
        unfold mmExtractPi16
        omega
      simp only [checksumBlocks, psadbw_eq (show pointer + 8 ≤ buf.length by omega), ok_bind,
        hextract]
      rw [ih (by omega), hsplit, byteSum_append]
      congr 1
      omega

/-- Modulo 256 the signed characters of the tail sum up like unsigned ones. -/
theorem checksumTail_eq {buf : List UInt8} {n ii : Nat} {sum : Int}
    (h : ii + n ≤ buf.length) :
    ∃ total, checksumTail buf n ii sum = .ok total ∧
      total % 256 = (sum + byteSum ((buf.drop ii).take n)) % 256 ∧
      sum - 128 * n ≤ total ∧ total ≤ sum + 127 * n := by
  induction n generalizing ii sum with
  | zero => exact ⟨sum, rfl, by simp, by omega, by omega⟩
  | succ n ih =>
      have hi : ii < buf.length := by omega
      obtain ⟨total, hrun, hmod, hlo, hhi⟩ := @ih (ii + 1) (sum + charToInt buf[ii]) (by omega)
      have hchar := charToInt_range buf[ii]
      refine ⟨total, ?_, ?_, by omega, by omega⟩
      · simpa [checksumTail, readAt_natCast hi] using hrun
      · rw [hmod, List.drop_eq_getElem_cons hi, List.take_succ_cons, byteSum_cons]
        have := charToInt_emod buf[ii]
        omega

/-- **The blocked checksum is the plain one.** -/
theorem calculateChecksum_natCast {buf : List UInt8} {n : Nat} (h : n ≤ buf.length) :
    calculateChecksum buf n = .ok (byteSum (buf.take n) % 256 : Nat) := by
  have hblocks : ((n : Int) / 8).toNat = n / 8 := by omega
  have hextra : ((n : Int) % 8).toNat = n % 8 := by omega
  have hstart : (n : Int) - (n : Int) % 8 = ((8 * (n / 8) : Nat) : Int) := by omega
  obtain ⟨total, hrun, hmod, -, -⟩ := @checksumTail_eq buf (n % 8) (8 * (n / 8))
    (0 + byteSum ((buf.drop 0).take (8 * (n / 8)))) (by omega)
  have hsplit : buf.take n = buf.take (8 * (n / 8)) ++ (buf.drop (8 * (n / 8))).take (n % 8) := by
    rw [← List.take_add]; congr 1; omega
  simp only [calculateChecksum, hblocks, hextra, hstart,
    checksumBlocks_eq (show 0 + 8 * (n / 8) ≤ buf.length by omega), ok_bind, hrun]
  rw [hmod, hsplit, byteSum_append]
  simp

/-- The number that three characters denote when they are read as digits. -/
def suppliedValue (b0 b1 b2 : UInt8) : Int :=
  (charToInt b0 - 48) * 100 + (charToInt b1 - 48) * 10 + (charToInt b2 - 48)

/-- The three characters are read one after the other. -/
theorem suppliedChecksum_append {pre post : List UInt8} {b0 b1 b2 : UInt8} :
    suppliedChecksum (pre ++ b0 :: b1 :: b2 :: post) pre.length = .ok (suppliedValue b0 b1 b2) := by
  have h1 : (pre.length : Int) + 1 = (pre.length + 1 : Nat) := by omega
  have h2 : (pre.length : Int) + 2 = (pre.length + 2 : Nat) := by omega
  have hlen : (pre ++ b0 :: b1 :: b2 :: post).length = pre.length + (post.length + 3) := by simp
  simp only [suppliedChecksum, h1, h2,
    readAt_natCast (show pre.length < (pre ++ b0 :: b1 :: b2 :: post).length by omega),
    readAt_natCast (show pre.length + 1 < (pre ++ b0 :: b1 :: b2 :: post).length by omega),
    readAt_natCast (show pre.length + 2 < (pre ++ b0 :: b1 :: b2 :: post).length by omega), ok_bind]
  simp [suppliedValue]

/-- The supplied checksum is read from three bytes. -/
theorem suppliedChecksum_natCast {buf : List UInt8} {n : Nat} (h : n + 2 < buf.length) :
    suppliedChecksum buf n = .ok (suppliedValue buf[n] buf[n + 1] buf[n + 2]) := by
  have h1 : (n : Int) + 1 = (n + 1 : Nat) := by omega
  have h2 : (n : Int) + 2 = (n + 2 : Nat) := by omega
  simp only [suppliedChecksum, h1, h2, readAt_natCast (show n < buf.length by omega),
    readAt_natCast (show n + 1 < buf.length by omega), readAt_natCast h, ok_bind, suppliedValue]

/-! ## One round of the field loop -/

/-- What a round of the field loop makes of the bytes `rest` before `len`. -/
def fieldStep (options : Int32) (calculated : Int) (position : Nat) (rest : List UInt8) :
    FieldRound :=
  match rest.dropWhile isDigit with
  | [] => .stop .emptyValue
  | b :: after =>
      if b = equalsSign then
        match after.dropWhile (· ≠ SOH) with
        | [] => .stop .emptyValue
        | _ :: _ =>
            let tag := wrap32 (decimal (rest.takeWhile isDigit))
            let valueStart := position + (rest.takeWhile isDigit).length + 1
            let width := (after.takeWhile (· ≠ SOH)).length
            .call tag
              (if optReportCalculatedChecksum options ∧ tag = 10 then
                .calculatedChecksumStr (checksumStr calculated)
              else .inBuffer valueStart width)
              (valueStart + width + 1)
      else .stop .tagInvalid

/-- A list is its longest prefix of a kind, then the rest. -/
theorem drop_takeWhile_length {α : Type} (p : α → Bool) (xs : List α) :
    xs.drop (xs.takeWhile p).length = xs.dropWhile p := by
  conv => lhs; arg 2; rw [← List.takeWhile_append_dropWhile (p := p) (l := xs)]
  rw [List.drop_left]

/-- A round reads only below `len` and depends on nothing else. -/
theorem fieldRound_eq {buf : List UInt8} {len position : Nat} {options : Int32}
    {calculated : Int} (h : len ≤ buf.length) :
    fieldRound buf len options calculated position =
      .ok (fieldStep options calculated position ((buf.take len).drop position)) := by
  have hn : ∀ p : Nat, ((len : Int) - p).toNat = len - p := fun p => by omega
  have hrest : ∀ p : Nat, (buf.drop p).take (len - p) = (buf.take len).drop p := fun p =>
    List.drop_take.symm
  by_cases hp : len ≤ position
  · -- past the end both loops run no round
    have hzero : len - position = 0 := by omega
    simp only [fieldRound, tagLoop, hn, hzero, numberLoop, ok_bind, valueLoop]
    rw [List.drop_eq_nil_of_le (by simp; omega)]
    rfl
  have htag := @numberLoop_eq equalsSign buf (len - position) position 0 (by omega)
  have hzero : wrap32 ((0 : Nat) : Int) = 0 := by decide
  have hdecimal : ∀ digits, decimalFrom 0 digits = decimal digits := fun _ => rfl
  rw [hrest, hzero] at htag
  simp only [hdecimal] at htag
  simp only [fieldRound, tagLoop, hn, htag, ok_bind, fieldStep]
  generalize hR : (buf.take len).drop position = rest
  have hlen : rest.length = len - position := by rw [← hR]; simp; omega
  cases hdrop : rest.dropWhile isDigit with
  | nil =>
      have hend : len - (position + (len - position)) = 0 := by omega
      simp only [hend, valueLoop, ok_bind]
  | cons b after =>
      have hdlen : (rest.takeWhile isDigit).length + (after.length + 1) = rest.length := by
        have := congrArg List.length (List.takeWhile_append_dropWhile (p := isDigit) (l := rest))
        rwa [List.length_append, hdrop, List.length_cons] at this
      by_cases hb : b = equalsSign
      · have hvalue := @valueLoop_eq buf
          (len - (position + (rest.takeWhile isDigit).length + 1))
          (position + (rest.takeWhile isDigit).length + 1) (by omega)
        have hafter :
            (buf.take len).drop (position + (rest.takeWhile isDigit).length + 1) = after := by
          rw [Nat.add_assoc, ← List.drop_drop, hR, ← List.drop_drop, drop_takeWhile_length, hdrop]
          rfl
        rw [hrest, hafter] at hvalue
        simp only [hb, if_true, hvalue, ok_bind]
        cases after.dropWhile (· ≠ SOH) with
        | nil => rfl
        | cons c tail =>
            have hwidth : ∀ w, position + (rest.takeWhile isDigit).length + 1 + w + 1 - 1 -
                (position + (rest.takeWhile isDigit).length + 1) = w := fun w => by omega
            simp only [hwidth]
            by_cases hten : optReportCalculatedChecksum options ∧
                wrap32 (decimal (rest.takeWhile isDigit)) = 10
            · simp only [if_pos hten]
            · simp only [if_neg hten]
      · simp only [hb, if_false]

/-- A round that calls `tagp` has read one field: digits, `'='`, a value, SOH. -/
theorem fieldStep_call {options : Int32} {calculated tag : Int} {position next : Nat}
    {rest : List UInt8} {value : TagValue}
    (h : fieldStep options calculated position rest = .call tag value next) :
    ∃ digits chars post, rest = digits ++ equalsSign :: chars ++ SOH :: post ∧
      (∀ b ∈ digits, isDigit b = true) ∧ SOH ∉ chars ∧
      tag = wrap32 (decimal digits) ∧ next = position + digits.length + 1 + chars.length + 1 ∧
      value = if optReportCalculatedChecksum options ∧ tag = 10 then
          .calculatedChecksumStr (checksumStr calculated)
        else .inBuffer (position + digits.length + 1) chars.length := by
  unfold fieldStep at h
  split at h
  · cases h
  next b after hdrop =>
  split at h
  case isFalse => cases h
  next hb =>
  split at h
  · cases h
  next c post hdrop' =>
  have hc : c = SOH := by
    have := List.head_dropWhile_not (fun b : UInt8 => decide (b ≠ SOH)) (l := after)
      (by rw [hdrop']; exact List.cons_ne_nil c post)
    simp only [hdrop', List.head_cons] at this
    simpa using this
  have hrest := List.takeWhile_append_dropWhile (p := isDigit) (l := rest)
  have hafter := List.takeWhile_append_dropWhile (p := fun b : UInt8 => decide (b ≠ SOH))
    (l := after)
  rw [hdrop', hc] at hafter
  rw [hdrop, hb, ← hafter] at hrest
  simp only [FieldRound.call.injEq] at h
  obtain ⟨htag, hvalue, hnext⟩ := h
  refine ⟨rest.takeWhile isDigit, after.takeWhile (· ≠ SOH), post, ?_, ?_, ?_, htag.symm,
    hnext.symm, ?_⟩
  · rw [List.append_assoc, List.cons_append]
    exact hrest.symm
  · exact fun b hb => List.mem_takeWhile_imp hb
  · intro hm
    simpa using List.mem_takeWhile_imp hm
  · rw [← htag]
    exact hvalue.symm

end Vmars
