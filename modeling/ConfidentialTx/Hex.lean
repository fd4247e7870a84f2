import ConfidentialTx.Bytes

/-! # Hexadecimal text

A byte string is written with two lower-case digits per byte and read in either case.  Reading
works on the bytes of the text: an odd length is refused first, then the first byte that is no
digit is named with its offset.

* `Hex.decode_encode`: reading a written byte string gives it back. -/

namespace ConfidentialTx

/-- Why a text is no hexadecimal text. -/
inductive HexError where
  | oddLength
  | invalidCharacter (byte : UInt8) (position : Nat)
deriving DecidableEq, Repr

namespace Hex

/-- The digit, as a byte of text, with the given value below sixteen. -/
def digit (n : UInt8) : UInt8 := if n < 10 then 48 + n else 87 + n

/-- The value of a digit in either case. -/
def digitValue (c : UInt8) : Option UInt8 :=
  if 48 ≤ c ∧ c ≤ 57 then some (c - 48)
  else if 97 ≤ c ∧ c ≤ 102 then some (c - 87)
  else if 65 ≤ c ∧ c ≤ 70 then some (c - 55)
  else none

/-- The text of a byte string, as bytes: the high digit of each byte first. -/
def encode (bs : Bytes) : Bytes :=
  bs.flatMap fun (b : UInt8) => [digit (b >>> 4), digit (b &&& 15)]

/-- The text of a byte string. -/
def text (bs : Bytes) : String :=
  String.ofList ((encode bs).map fun c => Char.ofNat c.toNat)

/-- Reads pairs of digits from the given offset on. -/
def decodeFrom (position : Nat) : Bytes → Except HexError Bytes
  | [] => .ok []
  | [_] => .error .oddLength
  | hi :: lo :: rest =>
    match digitValue hi, digitValue lo with
    | none, _ => .error (.invalidCharacter hi position)
    | some _, none => .error (.invalidCharacter lo (position + 1))
    | some h, some l => (decodeFrom (position + 2) rest).map fun bs => ((h <<< 4) ||| l) :: bs

/-- Reads the bytes of a hexadecimal text. -/
def decode (digits : Bytes) : Except HexError Bytes :=
  if digits.length % 2 = 1 then .error .oddLength else decodeFrom 0 digits

/-- Reads a hexadecimal text. -/
def decodeText (digits : String) : Except HexError Bytes := decode (Bytes.ofString digits)

/-! ### Round trip -/

/-- What holds of the 256 byte values holds of every byte. -/
private theorem forall_byte {p : UInt8 → Prop} (h : ∀ n : Fin 256, p (UInt8.ofNat n)) (b : UInt8) :
    p b := by
  have := h ⟨b.toNat, b.toNat_lt⟩
  rwa [UInt8.ofNat_toNat] at this

set_option maxRecDepth 4000 in
private theorem digitValue_digit_high (b : UInt8) :
    digitValue (digit (b >>> 4)) = some (b >>> 4) :=
  forall_byte (p := fun b => digitValue (digit (b >>> 4)) = some (b >>> 4)) (by decide) b

set_option maxRecDepth 4000 in
private theorem digitValue_digit_low (b : UInt8) :
    digitValue (digit (b &&& 15)) = some (b &&& 15) :=
  forall_byte (p := fun b => digitValue (digit (b &&& 15)) = some (b &&& 15)) (by decide) b

set_option maxRecDepth 4000 in
private theorem high_or_low (b : UInt8) : ((b >>> 4) <<< 4) ||| (b &&& 15) = b :=
  forall_byte (p := fun b => ((b >>> 4) <<< 4) ||| (b &&& 15) = b) (by decide) b

@[simp] theorem length_encode (bs : Bytes) : (encode bs).length = 2 * bs.length := by
  induction bs with
  | nil => rfl
  | cons b bs ih =>
    have : encode (b :: bs) = digit (b >>> 4) :: digit (b &&& 15) :: encode bs := rfl
    rw [this, List.length_cons, List.length_cons, ih, List.length_cons]
    omega

theorem decodeFrom_encode (position : Nat) (bs : Bytes) :
    decodeFrom position (encode bs) = .ok bs := by
  induction bs generalizing position with
  | nil => rfl
  | cons b bs ih =>
    have : encode (b :: bs) = digit (b >>> 4) :: digit (b &&& 15) :: encode bs := rfl
    simp [this, decodeFrom, digitValue_digit_high, digitValue_digit_low, ih, Except.map,
      high_or_low]

theorem decode_encode (bs : Bytes) : decode (encode bs) = .ok bs := by
  simp [decode, decodeFrom_encode]

end Hex

namespace HexError

/-- A byte as a quoted character, with escapes for what does not print. -/
def quoted (byte : UInt8) : String :=
  let body :=
    if byte = 0 then "\\0"
    else if byte = 9 then "\\t"
    else if byte = 10 then "\\n"
    else if byte = 13 then "\\r"
    else if byte = 39 then "\\'"
    else if byte = 92 then "\\\\"
    else if byte < 32 ∨ (127 ≤ byte ∧ byte ≤ 160) ∨ byte = 173 then
      "\\u\x7b" ++ String.ofList (Nat.toDigits 16 byte.toNat) ++ "\x7d"
    else String.singleton (Char.ofNat byte.toNat)
  "'" ++ body ++ "'"

/-- The wording of a refusal. -/
def message : HexError → String
  | oddLength => "Odd number of digits"
  | invalidCharacter byte position =>
    "Invalid character " ++ quoted byte ++ " at position " ++ toString position

end HexError
end ConfidentialTx
