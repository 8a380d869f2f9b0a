import Mathlib

/-!
# Checked C memory: bytes, bounds faults, 32-bit integers, C strings

A small library for shallow embeddings of C code that walks over byte buffers.
It names nothing of a particular program.

A buffer is the list of the bytes that may be read through a pointer.  A read
outside it does not return a default: it is a `Fault`, and every function that
reads is a computation in `Except Fault`.  "The function never reads out of
bounds" is then the statement that it returns `Except.ok`.

The C type `int` is `Int` with an explicit `wrap32` wherever a value can leave
the 32-bit range.
-/

namespace CMemory

/-- The ways in which a modelled C function can leave its defined behaviour. -/
inductive Fault where
  /-- A read through an index outside the readable bytes. -/
  | outOfBounds (index : Int)
  /-- A copy that writes past the end of the destination. -/
  | overflow (length : Int)
  /-- A loop that used up its bound on the number of rounds. -/
  | diverged
  deriving DecidableEq, Repr

/-- A computation that reads memory. -/
abbrev Checked (α : Type) := Except Fault α

section Checked

variable {α β : Type}

/-- A successful sequence exposes both of its successful parts. -/
theorem bind_eq_ok {x : Checked α} {f : α → Checked β} {r : β} :
    x >>= f = .ok r ↔ ∃ a, x = .ok a ∧ f a = .ok r := by
  cases x with
  | error e => simp [bind, Except.bind]
  | ok a => simp [bind, Except.bind]

@[simp] theorem ok_bind (a : α) (f : α → Checked β) :
    ((Except.ok a : Checked α) >>= f) = f a := rfl

@[simp] theorem error_bind (e : Fault) (f : α → Checked β) :
    ((Except.error e : Checked α) >>= f) = .error e := rfl

@[simp] theorem pure_eq_ok (a : α) : (pure a : Checked α) = .ok a := rfl

/-- A computation that returns something returns it. -/
theorem eq_ok_get {x : Checked α} (h : x.toOption.isSome) : x = .ok (x.toOption.get h) := by
  cases x with
  | error fault => cases h
  | ok a => rfl

/-- The computation writes nothing past the end of a destination. -/
def NoOverflow (x : Checked α) : Prop := ∀ n, x ≠ .error (.overflow n)

theorem noOverflow_ok (a : α) : NoOverflow (.ok a : Checked α) := fun _ h => by cases h

theorem noOverflow_outOfBounds (i : Int) : NoOverflow (.error (.outOfBounds i) : Checked α) :=
  fun _ h => by cases h

theorem noOverflow_diverged : NoOverflow (.error .diverged : Checked α) := fun _ h => by cases h

/-- A sequence inherits the property from its two parts. -/
theorem NoOverflow.bind {x : Checked α} {f : α → Checked β} (hx : NoOverflow x)
    (hf : ∀ a, x = .ok a → NoOverflow (f a)) : NoOverflow (x >>= f) := by
  intro n h
  cases x with
  | error fault =>
      rw [error_bind] at h
      exact hx n (congrArg Except.error (Except.error.inj h))
  | ok a => exact hf a rfl n h

end Checked

section Related

variable {α α' β β' : Type} {R : α → α' → Prop} {S : β → β' → Prop}

/-- Two computations that fail alike or both succeed, with related results. -/
inductive Related (R : α → α' → Prop) : Checked α → Checked α' → Prop where
  | ok {a : α} {a' : α'} (h : R a a') : Related R (.ok a) (.ok a')
  | error (fault : Fault) : Related R (.error fault) (.error fault)

/-- The same computation on both sides. -/
theorem related_self (x : Checked α) : Related (fun a a' => a = a') x x := by
  cases x with
  | error fault => exact .error fault
  | ok a => exact .ok rfl

/-- Sequences are related when their two parts are. -/
theorem Related.bind {x : Checked α} {x' : Checked α'} {f : α → Checked β} {f' : α' → Checked β'}
    (h : Related R x x') (hf : ∀ a a', R a a' → Related S (f a) (f' a')) :
    Related S (x >>= f) (x' >>= f') := by
  cases h with
  | ok h => exact hf _ _ h
  | error fault => exact .error fault

/-- Both sides begin with the same computation. -/
theorem Related.bind_self {x : Checked α} {f : α → Checked β} {f' : α → Checked β'}
    (hf : ∀ a, Related S (f a) (f' a)) : Related S (x >>= f) (x >>= f') := by
  apply (related_self x).bind
  intro a a' heq
  subst heq
  exact hf a

/-- Two results that begin with related values and go on alike. -/
def Along {γ : Type} (R : α → α' → Prop) (r : α × γ) (r' : α' × γ) : Prop :=
  R r.1 r'.1 ∧ r.2 = r'.2

/-- Sequences of results that go on alike. -/
theorem Related.bind_along {γ : Type} {x : Checked (α × γ)} {x' : Checked (α' × γ)}
    {f : α × γ → Checked β} {f' : α' × γ → Checked β'} (h : Related (Along R) x x')
    (hf : ∀ a a' rest, R a a' → Related S (f (a, rest)) (f' (a', rest))) :
    Related S (x >>= f) (x' >>= f') := by
  apply h.bind
  intro r r' hr
  obtain ⟨a, rest⟩ := r
  obtain ⟨a', rest'⟩ := r'
  obtain ⟨hvalue, hrest⟩ := hr
  cases hrest
  exact hf a a' rest hvalue

/-- The second of two related computations follows the first one. -/
theorem Related.ok_right {x : Checked α} {x' : Checked α'} {a : α} (h : Related R x x')
    (hx : x = .ok a) : ∃ a', x' = .ok a' ∧ R a a' := by
  subst hx
  cases h with
  | ok h => exact ⟨_, rfl, h⟩

end Related

section Extends

variable {α β : Type} {x y : Checked α} {f g : α → Checked β}

/-- The second computation is the first one, but may go on where that reads out of bounds. -/
inductive Extends : Checked α → Checked α → Prop where
  | same (x : Checked α) : Extends x x
  | read (i : Int) (y : Checked α) : Extends (.error (.outOfBounds i)) y

/-- Sequences extend each other when their two parts do. -/
theorem Extends.bind (h : Extends x y) (hf : ∀ a, Extends (f a) (g a)) :
    Extends (x >>= f) (y >>= g) := by
  cases h with
  | same =>
      cases x with
      | error fault => exact .same _
      | ok a => exact hf a
  | read i y => exact .read i _

/-- Both sides begin with the same computation. -/
theorem Extends.bind_self (hf : ∀ a, x = .ok a → Extends (f a) (g a)) :
    Extends (x >>= f) (x >>= g) := by
  cases x with
  | error fault => exact .same _
  | ok a => exact hf a rfl

/-- A result stays. -/
theorem Extends.eq_ok (h : Extends x y) {a : α} (hx : x = .ok a) : y = .ok a := by
  subst hx
  cases h with
  | same => rfl

/-- A copy past the end stays. -/
theorem Extends.eq_overflow (h : Extends x y) {n : Int} (hx : x = .error (.overflow n)) :
    y = .error (.overflow n) := by
  subst hx
  cases h with
  | same => rfl

end Extends

/-! ## Reading -/

/-- The byte `p[i]` of the buffer that `p` points to. -/
def readAt (buf : List UInt8) (i : Int) : Checked UInt8 :=
  if 0 ≤ i then
    match buf[i.toNat]? with
    | some b => .ok b
    | none => .error (.outOfBounds i)
  else .error (.outOfBounds i)

/-- A read inside the buffer returns the byte stored there. -/
theorem readAt_natCast {buf : List UInt8} {n : Nat} (h : n < buf.length) :
    readAt buf n = .ok buf[n] := by
  simp [readAt, h]

/-- A read succeeds exactly inside the buffer. -/
theorem readAt_isOk_iff {buf : List UInt8} {i : Int} :
    (∃ b, readAt buf i = .ok b) ↔ 0 ≤ i ∧ i < buf.length := by
  constructor
  · rintro ⟨b, h⟩
    unfold readAt at h
    split at h
    · next h0 =>
      split at h
      · next hb =>
        have := (List.getElem?_eq_some_iff.mp hb).1
        omega
      · cases h
    · cases h
  · rintro ⟨h0, hlt⟩
    obtain ⟨n, rfl⟩ := Int.eq_ofNat_of_zero_le h0
    exact ⟨_, readAt_natCast (by omega)⟩

/-- A read before the start of the buffer is a fault. -/
theorem readAt_of_neg {buf : List UInt8} {i : Int} (h : i < 0) :
    readAt buf i = .error (.outOfBounds i) := by
  simp [readAt, Int.not_le.mpr h]

/-- A read behind a pointer into a buffer is one of the buffer. -/
theorem readAt_extends (buf : List UInt8) (c : Nat) (i : Int) :
    Extends (readAt (buf.drop c) i) (readAt buf (c + i)) := by
  by_cases hi : 0 ≤ i
  · obtain ⟨n, rfl⟩ := Int.eq_ofNat_of_zero_le hi
    by_cases hn : n < (buf.drop c).length
    · have hlen : c + n < buf.length := by
        rw [List.length_drop] at hn
        omega
      have hwhere : (c : Int) + (n : Int) = ((c + n : Nat) : Int) := rfl
      rw [hwhere, readAt_natCast hn, readAt_natCast hlen, List.getElem_drop]
      exact .same _
    · have hnone : (buf.drop c)[n]? = none := List.getElem?_eq_none (Nat.not_lt.mp hn)
      have hread : readAt (buf.drop c) n = .error (.outOfBounds n) := by
        simp only [readAt, Int.natCast_nonneg, if_true, Int.toNat_natCast, hnone]
      rw [hread]
      exact .read _ _
  · rw [readAt_of_neg (by omega)]
    exact .read _ _

/-- The bytes that can be read through `&p[i]`, a pointer into the buffer or
right behind it. -/
def pointerAt (buf : List UInt8) (i : Int) : Checked (List UInt8) :=
  if 0 ≤ i ∧ i ≤ buf.length then .ok (buf.drop i.toNat) else .error (.outOfBounds i)

theorem pointerAt_natCast {buf : List UInt8} {n : Nat} (h : n ≤ buf.length) :
    pointerAt buf n = .ok (buf.drop n) := by
  rw [pointerAt, if_pos (by omega), Int.toNat_natCast]

/-- Where such a pointer goes. -/
theorem pointerAt_eq_ok {buf rest : List UInt8} {n : Nat} (h : pointerAt buf n = .ok rest) :
    n ≤ buf.length ∧ rest = buf.drop n := by
  unfold pointerAt at h
  split at h
  · next hin =>
    exact ⟨by omega, (Except.ok.inj h).symm⟩
  · cases h

/-- Reading writes nothing. -/
theorem readAt_noOverflow {buf : List UInt8} {i : Int} : NoOverflow (readAt buf i) := by
  unfold readAt
  split
  · split
    · exact noOverflow_ok _
    · exact noOverflow_outOfBounds _
  · exact noOverflow_outOfBounds _

theorem pointerAt_noOverflow {buf : List UInt8} {i : Int} : NoOverflow (pointerAt buf i) := by
  unfold pointerAt
  split
  · exact noOverflow_ok _
  · exact noOverflow_outOfBounds _

/-! ## Integers and characters -/

/-- The value of an `int` after two's complement wrap-around. -/
def wrap32 (x : Int) : Int := (x + 2147483648) % 4294967296 - 2147483648

/-- The largest `int`. -/
def intMax : Nat := 2147483647

/-- An `int` keeps every value of its range. -/
theorem wrap32_of_range {x : Int} (hlo : -2147483648 ≤ x) (hhi : x < 2147483648) :
    wrap32 x = x := by
  unfold wrap32
  omega

theorem wrap32_range (x : Int) : -2147483648 ≤ wrap32 x ∧ wrap32 x < 2147483648 := by
  unfold wrap32
  omega

/-- Wrapping may be postponed in a Horner step of a decimal accumulation. -/
theorem wrap32_horner (x d : Int) : wrap32 (wrap32 x * 10 + d) = wrap32 (x * 10 + d) := by
  unfold wrap32
  omega

/-- An `int` agrees with the number it wraps modulo 2^32. -/
theorem wrap32_emod (x : Int) : wrap32 x % 4294967296 = x % 4294967296 := by
  unfold wrap32
  omega

/-- The value of an `int64_t` after two's complement wrap-around. -/
def wrap64 (x : Int) : Int :=
  (x + 9223372036854775808) % 18446744073709551616 - 9223372036854775808

/-- Wrapping changes a value by a multiple of `2 ^ 64`. -/
theorem wrap64_emod (x : Int) : wrap64 x % 18446744073709551616 = x % 18446744073709551616 := by
  unfold wrap64
  omega

/-- An `int64_t` keeps every value of its range. -/
theorem wrap64_of_range {x : Int} (hlo : -9223372036854775808 ≤ x)
    (hhi : x < 9223372036854775808) : wrap64 x = x := by
  unfold wrap64
  omega

/-- The distance of two wrapped counters is the true one while it is small. -/
theorem wrap64_sub {x y : Int} (hlo : -9223372036854775808 ≤ x - y)
    (hhi : x - y < 9223372036854775808) : wrap64 (wrap64 x - wrap64 y) = x - y := by
  unfold wrap64
  omega

/-- Wrapping may be postponed in a sum. -/
theorem wrap64_add (x y : Int) : wrap64 (wrap64 x + y) = wrap64 (x + y) := by
  unfold wrap64
  omega

/-- The conversion to `size_t`. -/
def toSize (x : Int) : Nat := (x % 18446744073709551616).toNat

theorem toSize_natCast (n : Nat) : toSize n = n % 18446744073709551616 := by
  unfold toSize
  omega

/-- A difference that is not negative is a `size_t` as it is. -/
theorem toSize_sub {a b : Nat} (hle : b ≤ a) (ha : a < 18446744073709551616) :
    toSize ((a : Int) - b) = a - b := by
  unfold toSize
  omega

/-- Masking with a power of two less one is the remainder by the power. -/
theorem toSize_and_mask {x : Int} {n k : Nat} (hk : k ≤ 64)
    (hx : x % 18446744073709551616 = (n : Int) % 18446744073709551616) :
    toSize x &&& (2 ^ k - 1) = n % 2 ^ k := by
  have hdvd : 2 ^ k ∣ 18446744073709551616 := Nat.pow_dvd_pow 2 hk
  rw [toSize, hx, Nat.and_two_pow_sub_one_eq_mod]
  rw [show ((n : Int) % 18446744073709551616).toNat = n % 18446744073709551616 by omega,
    Nat.mod_mod_of_dvd _ hdvd]

/-- Up to `2 ^ 32` it is enough that the lower halves agree. -/
theorem toSize_and_mask32 {x : Int} {n k : Nat} (hk : k ≤ 32)
    (hx : x % 4294967296 = (n : Int) % 4294967296) : toSize x &&& (2 ^ k - 1) = n % 2 ^ k := by
  have hdvd : 2 ^ k ∣ 4294967296 := Nat.pow_dvd_pow 2 hk
  have hlow : toSize x % 4294967296 = n % 4294967296 := by
    unfold toSize
    omega
  rw [Nat.and_two_pow_sub_one_eq_mod, ← Nat.mod_mod_of_dvd _ hdvd, hlow, Nat.mod_mod_of_dvd _ hdvd]

/-- The value of a `char`, which is signed. -/
def charToInt (b : UInt8) : Int := if b.toNat < 128 then b.toNat else b.toNat - 256

/-- A signed character and its unsigned byte agree modulo 256. -/
theorem charToInt_emod (b : UInt8) : charToInt b % 256 = b.toNat := by
  have hb := b.toNat_lt
  unfold charToInt
  split <;> omega

/-- The range of a signed `char`. -/
theorem charToInt_range (b : UInt8) : -128 ≤ charToInt b ∧ charToInt b ≤ 127 := by
  have hb := b.toNat_lt
  unfold charToInt
  split <;> omega

/-- The bytes of an ASCII text. -/
def ascii (text : String) : List UInt8 := text.toList.map fun c => c.toNat.toUInt8

/-! ## Integers in memory -/

/-- The `n` bytes of an integer, the least significant first. -/
def leBytes : Nat → Int → List UInt8
  | 0, _ => []
  | n + 1, x => (x % 256).toNat.toUInt8 :: leBytes n (x / 256)

/-- The number that bytes denote, the least significant first. -/
def leValue : List UInt8 → Nat
  | [] => 0
  | b :: bs => b.toNat + 256 * leValue bs

@[simp] theorem leBytes_length (n : Nat) (x : Int) : (leBytes n x).length = n := by
  induction n generalizing x with
  | zero => rfl
  | succ n ih => simp [leBytes, ih]

/-- A remainder by `256 * m`, its last byte first. -/
theorem emod_byte_mul (x m : Int) : x % (256 * m) = x % 256 + 256 * (x / 256 % m) := by
  have hdiv : x / (256 * m) = x / 256 / m := (Int.ediv_ediv_of_nonneg (by decide)).symm
  rw [Int.emod_def, hdiv, Int.emod_def (x / 256), Int.mul_sub, Int.mul_assoc]
  omega

/-- Reading an integer back gives it modulo the size of its field. -/
theorem leValue_leBytes (n : Nat) (x : Int) : (leValue (leBytes n x) : Int) = x % 256 ^ n := by
  induction n generalizing x with
  | zero => simp [leBytes, leValue]
  | succ n ih =>
      have hbyte : ((x % 256).toNat.toUInt8.toNat : Int) = x % 256 := by
        simp only [Nat.toUInt8, UInt8.toNat_ofNat']
        omega
      have hpow : (256 : Int) ^ (n + 1) = 256 * 256 ^ n := by rw [Int.pow_succ, Int.mul_comm]
      simp only [leBytes, leValue, Int.natCast_add, Int.natCast_mul, ih, hbyte]
      rw [hpow, emod_byte_mul]
      rfl

/-! ## Decimal digits -/

/-- The test `'0' <= c && c <= '9'`. -/
def isDigit (b : UInt8) : Bool := 48 ≤ b && b ≤ 57

theorem isDigit_iff {b : UInt8} : isDigit b = true ↔ 48 ≤ b.toNat ∧ b.toNat ≤ 57 := by
  simp [isDigit, UInt8.le_iff_toNat_le]

/-- The value of a digit, `c - '0'`. -/
def digitValue (b : UInt8) : Nat := b.toNat - 48

/-- The number that a run of digits denotes when it follows the number `acc`. -/
def decimalFrom (acc : Nat) (digits : List UInt8) : Nat :=
  digits.foldl (fun n b => n * 10 + digitValue b) acc

/-- The number that a run of digits denotes. -/
def decimal (digits : List UInt8) : Nat := decimalFrom 0 digits

@[simp] theorem decimalFrom_nil (acc : Nat) : decimalFrom acc [] = acc := rfl

@[simp] theorem decimalFrom_cons (acc : Nat) (b : UInt8) (bs : List UInt8) :
    decimalFrom acc (b :: bs) = decimalFrom (acc * 10 + digitValue b) bs :=
  List.foldl_cons ..

theorem decimalFrom_append (acc : Nat) (xs ys : List UInt8) :
    decimalFrom acc (xs ++ ys) = decimalFrom (decimalFrom acc xs) ys :=
  List.foldl_append

/-- Reading further digits never makes the number smaller. -/
theorem le_decimalFrom (acc : Nat) (digits : List UInt8) : acc ≤ decimalFrom acc digits := by
  induction digits generalizing acc with
  | nil => exact Nat.le_refl _
  | cons b bs ih =>
      have := ih (acc * 10 + digitValue b)
      simp only [decimalFrom_cons]
      omega

/-! ## C strings -/

/-- The C string at the start of a buffer: its bytes before the first NUL. -/
def cstr (bytes : List UInt8) : List UInt8 := bytes.takeWhile (· ≠ 0)

/-- Bytes without a NUL are a C string as they are. -/
theorem cstr_of_nul_free {bytes : List UInt8} (h : (0 : UInt8) ∉ bytes) : cstr bytes = bytes := by
  induction bytes with
  | nil => rfl
  | cons b bs ih =>
      simp only [List.mem_cons, not_or] at h
      have hb : b ≠ 0 := fun h0 => h.1 h0.symm
      simpa [cstr, hb] using ih h.2

/-- The `n` bytes that `strncpy(dst, src, n)` leaves in `dst`: the source up to
its first NUL, then zeros.  The source is read no further than that NUL. -/
def strncpy : List UInt8 → Nat → Checked (List UInt8)
  | _, 0 => .ok []
  | [], n + 1 => .error (.outOfBounds (n + 1))
  | b :: src, n + 1 =>
      if b = 0 then .ok (List.replicate (n + 1) 0)
      else do
        let rest ← strncpy src n
        .ok (b :: rest)

/-- What `strncpy` copies always fills the requested length. -/
theorem strncpy_length {src out : List UInt8} {n : Nat} (h : strncpy src n = .ok out) :
    out.length = n := by
  induction n generalizing src out with
  | zero =>
      simp only [strncpy, Except.ok.injEq] at h
      simp [← h]
  | succ n ih =>
      cases src with
      | nil => simp [strncpy] at h
      | cons b src =>
          simp only [strncpy] at h
          split at h
          · cases h; simp
          · obtain ⟨rest, hrest, hout⟩ := bind_eq_ok.mp h
            cases hout
            simp [ih hrest]

/-- A copy of no more bytes than are readable succeeds. -/
theorem strncpy_isOk {src : List UInt8} {n : Nat} (h : n ≤ src.length) :
    ∃ out, strncpy src n = .ok out := by
  induction src generalizing n with
  | nil =>
      obtain rfl : n = 0 := by simpa using h
      exact ⟨[], rfl⟩
  | cons b src ih =>
      cases n with
      | zero => exact ⟨[], rfl⟩
      | succ n =>
          by_cases hb : b = 0
          · exact ⟨List.replicate (n + 1) 0, by simp [strncpy, hb]⟩
          · obtain ⟨out, hout⟩ := ih (n := n) (by simpa using h)
            exact ⟨b :: out, by simp [strncpy, hb, hout]⟩

/-- Without a NUL byte `strncpy` copies exactly. -/
theorem strncpy_of_nul_free {src : List UInt8} {n : Nat} (hn : n ≤ src.length)
    (h : (0 : UInt8) ∉ src.take n) : strncpy src n = .ok (src.take n) := by
  induction src generalizing n with
  | nil =>
      obtain rfl : n = 0 := by simpa using hn
      rfl
  | cons b src ih =>
      cases n with
      | zero => rfl
      | succ n =>
          simp only [List.take_succ_cons, List.mem_cons, not_or] at h
          have hb : b ≠ 0 := fun h0 => h.1 h0.symm
          simp [strncpy, hb, ih (by simpa using hn) h.2]

/-- The copy reads its source; where it is written to is for the caller to check. -/
theorem strncpy_noOverflow {src : List UInt8} {n : Nat} : NoOverflow (strncpy src n) := by
  induction n generalizing src with
  | zero => cases src <;> exact noOverflow_ok _
  | succ n ih =>
      cases src with
      | nil => exact noOverflow_outOfBounds _
      | cons b src =>
          rw [strncpy]
          split
          · exact noOverflow_ok _
          · exact ih.bind fun rest _ => noOverflow_ok _

/-- What a copy of all bytes of `src` leaves: those before a NUL, then zeros. -/
def ncopy : List UInt8 → List UInt8
  | [] => []
  | b :: src => if b = 0 then List.replicate (src.length + 1) 0 else b :: ncopy src

/-- Copying the bytes of a range reads nothing behind it. -/
theorem strncpy_append (src rest : List UInt8) :
    strncpy (src ++ rest) src.length = .ok (ncopy src) := by
  induction src with
  | nil => cases rest <;> rfl
  | cons b src ih =>
      rw [List.cons_append, List.length_cons, strncpy, ncopy]
      split
      · rfl
      · rw [ih, ok_bind]

theorem strncpy_self (src : List UInt8) : strncpy src src.length = .ok (ncopy src) := by
  have := strncpy_append src []
  rwa [List.append_nil] at this

/-- A copy of the first bytes of a longer source. -/
theorem strncpy_take {src : List UInt8} {n : Nat} (h : n ≤ src.length) :
    strncpy src n = .ok (ncopy (src.take n)) := by
  have := strncpy_append (src.take n) (src.drop n)
  rwa [List.take_append_drop, List.length_take, Nat.min_eq_left h] at this

/-- A copy starts like its source, up to the first NUL. -/
theorem strncpy_isPrefix {text src out : List UInt8} {n : Nat} (htext : text <+: src)
    (hnul : (0 : UInt8) ∉ text) (hn : text.length ≤ n) (h : strncpy src n = .ok out) :
    text <+: out := by
  induction text generalizing src out n with
  | nil => exact List.nil_prefix
  | cons b text ih =>
      obtain ⟨rest, rfl⟩ := htext
      cases n with
      | zero => simp at hn
      | succ n =>
          simp only [List.mem_cons, not_or] at hnul
          have hb : b ≠ 0 := fun h0 => hnul.1 h0.symm
          rw [List.cons_append, strncpy, if_neg hb] at h
          obtain ⟨copy, hcopy, hout⟩ := bind_eq_ok.mp h
          cases hout
          exact List.cons_prefix_cons.mpr
            ⟨rfl, ih (List.prefix_append _ _) hnul.2 (by simpa using hn) hcopy⟩

@[simp] theorem ncopy_length (src : List UInt8) : (ncopy src).length = src.length :=
  strncpy_length (strncpy_self src)

/-- Bytes without a NUL are copied as they are. -/
theorem ncopy_of_nul_free {src : List UInt8} (h : (0 : UInt8) ∉ src) : ncopy src = src := by
  have := strncpy_of_nul_free (Nat.le_refl src.length) (by rwa [List.take_length])
  rw [strncpy_self, List.take_length] at this
  exact Except.ok.inj this

/-- A copy is the same C string as its source. -/
@[simp] theorem cstr_ncopy (src : List UInt8) : cstr (ncopy src) = cstr src := by
  induction src with
  | nil => rfl
  | cons b src ih =>
      rw [ncopy]
      split
      · next hb => simp [cstr, hb, List.replicate_succ]
      · next hb => simpa [cstr, hb] using ih

end CMemory
