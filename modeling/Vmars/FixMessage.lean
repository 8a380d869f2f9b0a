import Vmars.FixParserLoops

/-!
# FIX messages and their encoding

A `FixMessage` is what a counterparty means to send: a version, a list of
fields and a BodyLength numeral that states the length of the encoded fields.
`FixMessage.encode` is its byte form.  A byte string is well formed when it is
the encoding of a message.

The decoder undoes the encoder: `vmarsFixParseMsg` accepts every encoding,
whatever follows it, and reports exactly the fields that were encoded.
-/

namespace Vmars

open CMemory

/-- A decimal numeral: a non-empty run of digits. -/
structure Numeral where
  digits : List UInt8
  ne_nil : digits ≠ []
  isDigit_of_mem : ∀ b ∈ digits, isDigit b = true

/-- The number that a numeral denotes. -/
def Numeral.value (numeral : Numeral) : Nat := decimal numeral.digits

/-- A field: a tag that fits a non-negative `int` and a value without SOH. -/
structure Field where
  tag : Numeral
  value : List UInt8
  tag_le : tag.value ≤ intMax
  no_soh : SOH ∉ value

/-- `tag '=' value SOH`. -/
def Field.encode (field : Field) : List UInt8 :=
  field.tag.digits ++ equalsSign :: field.value ++ [SOH]

/-- The encoded fields, one after the other. -/
def encodeFields (fields : List Field) : List UInt8 := fields.flatMap Field.encode

@[simp] theorem encodeFields_nil : encodeFields [] = [] := rfl

@[simp] theorem encodeFields_cons (field : Field) (fields : List Field) :
    encodeFields (field :: fields) = field.encode ++ encodeFields fields := rfl

theorem encodeFields_append (xs ys : List Field) :
    encodeFields (xs ++ ys) = encodeFields xs ++ encodeFields ys := by
  simp [encodeFields]

/-- The two versions that the parser knows. -/
inductive FixVersion where
  | fix42
  | fix44
  deriving DecidableEq, Repr

/-- The first bytes of a message, up to and including `9=`. -/
def FixVersion.header : FixVersion → List UInt8
  | .fix42 => initialHeader42
  | .fix44 => initialHeader44

/-- The version as `startp` receives it. -/
def FixVersion.fixType : FixVersion → Int
  | .fix42 => 42
  | .fix44 => 44

/-- Three decimal digits of a number below 1000. -/
def threeDigits (n : Nat) : List UInt8 :=
  [n / 100, n / 10 % 10, n % 10].map fun d => (48 + d).toUInt8

/-- A FIX message whose BodyLength states the length of its encoded fields. -/
structure FixMessage where
  version : FixVersion
  bodyLength : Numeral
  fields : List Field
  fields_ne : fields ≠ []
  bodyLength_eq : bodyLength.value = (encodeFields fields).length

namespace FixMessage

variable (m : FixMessage)

/-- Everything before the trailer. -/
def head : List UInt8 :=
  m.version.header ++ m.bodyLength.digits ++ SOH :: encodeFields m.fields

/-- The checksum of the message, modulo 256. -/
def checksum : Nat := byteSum m.head % 256

/-- `10=ddd` SOH. -/
def trailer : List UInt8 := ascii "10=" ++ threeDigits m.checksum ++ [SOH]

/-- The byte form of the message. -/
def encode : List UInt8 := m.head ++ m.trailer

end FixMessage

/-! ## Canonical messages -/

/-- The digits of a number, for at most `fuel` digits after the first. -/
def decimalDigitsAux : Nat → Nat → List UInt8
  | 0, n => [(48 + n % 10).toUInt8]
  | fuel + 1, n =>
      if n < 10 then [(48 + n % 10).toUInt8]
      else decimalDigitsAux fuel (n / 10) ++ [(48 + n % 10).toUInt8]

/-- The digits of a number, without leading zeros. -/
def decimalDigits (n : Nat) : List UInt8 := decimalDigitsAux n n

theorem digit_toNat {d : Nat} (h : d < 10) : (48 + d).toUInt8.toNat = 48 + d := by
  simp only [Nat.toUInt8, UInt8.toNat_ofNat']
  omega

theorem isDigit_digit {d : Nat} (h : d < 10) : isDigit (48 + d).toUInt8 = true := by
  rw [isDigit_iff, digit_toNat h]
  omega

theorem digitValue_digit {d : Nat} (h : d < 10) : digitValue (48 + d).toUInt8 = d := by
  rw [digitValue, digit_toNat h]
  omega

/-- A written number consists of digits. -/
theorem decimalDigitsAux_isDigit (fuel n : Nat) :
    ∀ b ∈ decimalDigitsAux fuel n, isDigit b = true := by
  have hlast : isDigit (48 + n % 10).toUInt8 = true := isDigit_digit (Nat.mod_lt _ (by decide))
  induction fuel generalizing n with
  | zero =>
      intro b hb
      obtain rfl := List.mem_singleton.mp hb
      exact hlast
  | succ fuel ih =>
      intro b hb
      unfold decimalDigitsAux at hb
      split at hb
      · obtain rfl := List.mem_singleton.mp hb
        exact hlast
      · rcases List.mem_append.mp hb with hb | hb
        · exact ih (n / 10) (isDigit_digit (Nat.mod_lt _ (by decide))) b hb
        · obtain rfl := List.mem_singleton.mp hb
          exact hlast

/-- **A written number reads back**, by induction on the digits that remain. -/
theorem decimal_decimalDigitsAux {fuel n : Nat} (h : n ≤ fuel) :
    decimal (decimalDigitsAux fuel n) = n := by
  have hmod : n % 10 < 10 := Nat.mod_lt _ (by decide)
  induction fuel generalizing n with
  | zero =>
      rw [decimalDigitsAux, decimal, decimalFrom_cons, decimalFrom_nil, digitValue_digit hmod]
      omega
  | succ fuel ih =>
      unfold decimalDigitsAux
      split
      · rw [decimal, decimalFrom_cons, decimalFrom_nil, digitValue_digit hmod]
        omega
      · have ih := ih (n := n / 10) (by omega) (Nat.mod_lt _ (by decide))
        rw [decimal] at ih
        rw [decimal, decimalFrom_append, ih, decimalFrom_cons, decimalFrom_nil,
          digitValue_digit hmod]
        omega

/-- Every number has a digit. -/
theorem decimalDigits_ne_nil (n : Nat) : decimalDigits n ≠ [] := by
  unfold decimalDigits
  cases n with
  | zero => simp [decimalDigitsAux]
  | succ n =>
      unfold decimalDigitsAux
      split <;> simp

/-- The numeral of a number, without leading zeros. -/
def Numeral.ofNat (n : Nat) : Numeral :=
  ⟨decimalDigits n, decimalDigits_ne_nil n, decimalDigitsAux_isDigit n n⟩

/-- The message of a version and a non-empty list of fields, whose BodyLength
is written without leading zeros. -/
def FixMessage.ofFields (version : FixVersion) (fields : List Field) (hne : fields ≠ []) :
    FixMessage where
  version := version
  bodyLength := .ofNat (encodeFields fields).length
  fields := fields
  fields_ne := hne
  bodyLength_eq := decimal_decimalDigitsAux (Nat.le_refl _)

/-! ## Shape of the encoding -/

/-- A checksum is written with digits. -/
theorem isDigit_of_mem_threeDigits {n : Nat} (hn : n < 1000) {b : UInt8}
    (hb : b ∈ threeDigits n) : isDigit b = true := by
  simp only [threeDigits, List.map_cons, List.map_nil, List.mem_cons, List.not_mem_nil,
    or_false] at hb
  rcases hb with rfl | rfl | rfl
  · exact isDigit_digit (by omega)
  · exact isDigit_digit (by omega)
  · exact isDigit_digit (by omega)

theorem FixMessage.checksum_lt (m : FixMessage) : m.checksum < 256 :=
  Nat.mod_lt _ (by decide)

theorem isDigit_of_mem_ten : ∀ b ∈ ascii "10", isDigit b = true := by
  simp [ascii, isDigit]

/-- The trailer, seen as a field. -/
def FixMessage.trailerField (m : FixMessage) : Field where
  tag := ⟨ascii "10", by decide, isDigit_of_mem_ten⟩
  value := threeDigits m.checksum
  tag_le := by decide
  no_soh := by
    intro h
    have := m.checksum_lt
    have hsoh := isDigit_of_mem_threeDigits (by omega) h
    exact absurd hsoh (by decide)

theorem FixMessage.trailer_eq (m : FixMessage) : m.trailer = m.trailerField.encode := by
  simp [trailer, trailerField, Field.encode, ascii, equalsSign]

theorem FixMessage.trailer_length (m : FixMessage) : m.trailer.length = 7 := by
  simp [trailer, threeDigits, ascii]

theorem FixVersion.header_length (v : FixVersion) : v.header.length = initialHeaderLen := by
  cases v <;> rfl

/-- A field has its tag, its value, `=` and SOH. -/
theorem Field.encode_length (field : Field) :
    field.encode.length = field.tag.digits.length + field.value.length + 2 := by
  simp [Field.encode]
  omega

/-- The offset of the first field, right after the SOH of BodyLength. -/
def FixMessage.bodyStart (m : FixMessage) : Nat :=
  initialHeaderLen + m.bodyLength.digits.length + 1

/-- BodyLength counts the bytes between itself and the trailer. -/
theorem FixMessage.head_length (m : FixMessage) :
    m.head.length = m.bodyStart + m.bodyLength.value := by
  simp [head, bodyStart, m.version.header_length, m.bodyLength_eq]
  omega

theorem FixMessage.encode_length (m : FixMessage) :
    m.encode.length = m.bodyStart + m.bodyLength.value + checkSumLen := by
  rw [encode, List.length_append, m.head_length, m.trailer_length, checkSumLen]

/-- A message has at least one field, so its body is not empty. -/
theorem FixMessage.bodyLength_pos (m : FixMessage) : 0 < m.bodyLength.value := by
  rw [m.bodyLength_eq]
  cases h : m.fields with
  | nil => exact (m.fields_ne h).elim
  | cons field fields =>
      have := field.encode_length
      simp only [encodeFields_cons, List.length_append]
      omega

/-- The fields and the trailer together are a list of fields after the header. -/
theorem FixMessage.encode_eq (m : FixMessage) :
    m.encode = (m.version.header ++ m.bodyLength.digits ++ [SOH]) ++
      encodeFields (m.fields ++ [m.trailerField]) := by
  simp [encode, head, encodeFields_append, m.trailer_eq]

end Vmars
