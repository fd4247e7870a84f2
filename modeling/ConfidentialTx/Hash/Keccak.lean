import ConfidentialTx.Bytes

/-! # The Keccak permutation and its sponges

The state is a five by five grid of 64-bit lanes, kept as five rows.  A byte string is laid over
the grid row by row, eight little-endian bytes a lane.

* `Keccak.permute`: the 24 rounds.
* `Keccak.sponge`: absorbs a padded message in blocks of `rate` bytes, then reads as many bytes as
  asked for.
* `sha3` and `shake`: the two sponges the library uses, a digest of 64 bytes and a stream. -/

namespace ConfidentialTx

namespace Keccak

/-- One row of five lanes. -/
structure Row where
  (a b c d e : UInt64)

/-- The permutation state. -/
structure State where
  (v w x y z : Row)

/-- Left rotation of a lane; the amount lies strictly between 0 and 64. -/
@[inline] def rotate (lane amount : UInt64) : UInt64 :=
  (lane <<< amount) ||| (lane >>> (64 - amount))

namespace Row

/-- The row of zeros. -/
def zero : Row := ⟨0, 0, 0, 0, 0⟩

/-- Lanewise exclusive or. -/
@[inline] def xor (p q : Row) : Row :=
  ⟨p.a ^^^ q.a, p.b ^^^ q.b, p.c ^^^ q.c, p.d ^^^ q.d, p.e ^^^ q.e⟩

/-- The correction of each column, from the parities of all columns. -/
@[inline] def spread (p : Row) : Row :=
  ⟨p.e ^^^ rotate p.b 1, p.a ^^^ rotate p.c 1, p.b ^^^ rotate p.d 1,
    p.c ^^^ rotate p.e 1, p.d ^^^ rotate p.a 1⟩

/-- The nonlinear step: a lane flips where its right neighbour is off and the next one is on. -/
@[inline] def chi (p : Row) : Row :=
  ⟨p.a ^^^ (~~~p.b &&& p.c), p.b ^^^ (~~~p.c &&& p.d), p.c ^^^ (~~~p.d &&& p.e),
    p.d ^^^ (~~~p.e &&& p.a), p.e ^^^ (~~~p.a &&& p.b)⟩

/-- The row laid out by the first forty bytes; missing bytes count as zero. -/
def ofBytes (bs : Bytes) : Row :=
  ⟨bs.toWord, Bytes.toWord (bs.drop 8), Bytes.toWord (bs.drop 16), Bytes.toWord (bs.drop 24),
    Bytes.toWord (bs.drop 32)⟩

/-- The forty bytes of a row. -/
def toBytes (p : Row) : Bytes :=
  Bytes.ofWord p.a ++ Bytes.ofWord p.b ++ Bytes.ofWord p.c ++ Bytes.ofWord p.d ++ Bytes.ofWord p.e

end Row

namespace State

/-- The state of zeros. -/
def zero : State := ⟨.zero, .zero, .zero, .zero, .zero⟩

/-- The state laid out by the first two hundred bytes; missing bytes count as zero. -/
def ofBytes (bs : Bytes) : State :=
  ⟨.ofBytes bs, .ofBytes (bs.drop 40), .ofBytes (bs.drop 80), .ofBytes (bs.drop 120),
    .ofBytes (bs.drop 160)⟩

/-- The two hundred bytes of a state. -/
def toBytes (s : State) : Bytes :=
  s.v.toBytes ++ (s.w.toBytes ++ (s.x.toBytes ++ (s.y.toBytes ++ s.z.toBytes)))

/-- Lanewise exclusive or. -/
def xor (s t : State) : State :=
  ⟨s.v.xor t.v, s.w.xor t.w, s.x.xor t.x, s.y.xor t.y, s.z.xor t.z⟩

/-- One round: parities, rotations and transposition, the nonlinear step, the round constant. -/
def round (s : State) (constant : UInt64) : State :=
  let parity := (((s.v.xor s.w).xor s.x).xor s.y).xor s.z
  let fix := parity.spread
  let v := s.v.xor fix
  let w := s.w.xor fix
  let x := s.x.xor fix
  let y := s.y.xor fix
  let z := s.z.xor fix
  let v₁ : Row := ⟨v.a, rotate w.b 44, rotate x.c 43, rotate y.d 21, rotate z.e 14⟩
  let w₁ : Row := ⟨rotate v.d 28, rotate w.e 20, rotate x.a 3, rotate y.b 45, rotate z.c 61⟩
  let x₁ : Row := ⟨rotate v.b 1, rotate w.c 6, rotate x.d 25, rotate y.e 8, rotate z.a 18⟩
  let y₁ : Row := ⟨rotate v.e 27, rotate w.a 36, rotate x.b 10, rotate y.c 15, rotate z.d 56⟩
  let z₁ : Row := ⟨rotate v.c 62, rotate w.d 55, rotate x.e 39, rotate y.a 41, rotate z.b 2⟩
  let v₂ := v₁.chi
  ⟨⟨v₂.a ^^^ constant, v₂.b, v₂.c, v₂.d, v₂.e⟩, w₁.chi, x₁.chi, y₁.chi, z₁.chi⟩

end State

/-- The constants of the 24 rounds. -/
def roundConstants : List UInt64 :=
  [0x0000000000000001, 0x0000000000008082, 0x800000000000808a, 0x8000000080008000,
    0x000000000000808b, 0x0000000080000001, 0x8000000080008081, 0x8000000000008009,
    0x000000000000008a, 0x0000000000000088, 0x0000000080008009, 0x000000008000000a,
    0x000000008000808b, 0x800000000000008b, 0x8000000000008089, 0x8000000000008003,
    0x8000000000008002, 0x8000000000000080, 0x000000000000800a, 0x800000008000000a,
    0x8000000080008081, 0x8000000000008080, 0x0000000080000001, 0x8000000080008008]

/-- The permutation. -/
def permute (s : State) : State := roundConstants.foldl State.round s

/-- The state after a message of `full` blocks of `rate` bytes and a shorter rest, which is padded.
-/
def absorb (rate : Nat) (suffix : UInt8) : (full : Nat) → State → Bytes → State
  | 0, s, rest =>
    let ending := List.replicate (rate - 1) 0 ++ [0x80]
    permute ((s.xor (.ofBytes (rest ++ [suffix]))).xor (.ofBytes ending))
  | full + 1, s, message =>
    absorb rate suffix full (permute (s.xor (.ofBytes (message.take rate)))) (message.drop rate)

/-- The first `blocks` blocks of `rate` bytes read from a state. -/
def squeeze (rate : Nat) : (blocks : Nat) → State → Bytes
  | 0, _ => []
  | blocks + 1, s => s.toBytes.take rate ++ squeeze rate blocks (permute s)

/-- The first `count` bytes of the sponge of a message. -/
def sponge (rate : Nat) (suffix : UInt8) (message : Bytes) (count : Nat) : Bytes :=
  let state := absorb rate suffix (message.length / rate) .zero message
  (squeeze rate ((count + rate - 1) / rate) state).take count

@[simp] theorem State.length_toBytes (s : State) : s.toBytes.length = 200 := by
  simp [State.toBytes, Row.toBytes]

end Keccak

/-- The SHA3 digest of 64 bytes. -/
def sha3 (message : Bytes) : Bytes := Keccak.sponge 72 0x06 message 64

/-- The first `count` bytes of the SHAKE stream of 256-bit strength keyed by a message. -/
def shake (key : Bytes) (count : Nat) : Bytes := Keccak.sponge 136 0x1f key count

end ConfidentialTx
