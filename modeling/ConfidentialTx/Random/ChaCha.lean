import ConfidentialTx.Bytes

/-! # The ChaCha12 keystream

A block of 64 bytes is a function of a key of 32 bytes and a 64-bit block number; the nonce is zero.
The state is four rows of four words, and a double round works on the columns and then on the
diagonals.

* `ChaCha.read`: any stretch of the keystream. -/

namespace ConfidentialTx.ChaCha

/-- A row of four words. -/
structure Row where
  (a b c d : UInt32)

/-- Left rotation of a word; the amount lies strictly between 0 and 32. -/
@[inline] def rotate (word amount : UInt32) : UInt32 :=
  (word <<< amount) ||| (word >>> (32 - amount))

/-- The four bytes of a word. -/
def wordBytes (w : UInt32) : Bytes :=
  [w.toUInt8, (w >>> 8).toUInt8, (w >>> 16).toUInt8, (w >>> 24).toUInt8]

namespace Row

/-- Wordwise sum. -/
@[inline] def add (p q : Row) : Row := ⟨p.a + q.a, p.b + q.b, p.c + q.c, p.d + q.d⟩

/-- Exclusive or with another row, then left rotation of every word. -/
@[inline] def turn (p q : Row) (n : UInt32) : Row :=
  ⟨rotate (p.a ^^^ q.a) n, rotate (p.b ^^^ q.b) n, rotate (p.c ^^^ q.c) n, rotate (p.d ^^^ q.d) n⟩

/-- The row moved left by one, two and three places. -/
@[inline] def left₁ (p : Row) : Row := ⟨p.b, p.c, p.d, p.a⟩
@[inline] def left₂ (p : Row) : Row := ⟨p.c, p.d, p.a, p.b⟩
@[inline] def left₃ (p : Row) : Row := ⟨p.d, p.a, p.b, p.c⟩

/-- The row laid out by sixteen bytes. -/
def ofBytes (bs : Bytes) : Row :=
  let word := fun i => UInt32.ofNat (Bytes.toNat (bs.slice (4 * i) 4))
  ⟨word 0, word 1, word 2, word 3⟩

/-- The sixteen bytes of a row. -/
def toBytes (p : Row) : Bytes :=
  wordBytes p.a ++ wordBytes p.b ++ wordBytes p.c ++ wordBytes p.d

end Row

/-- The block state. -/
structure State where
  (p q r s : Row)

namespace State

/-- Four quarter rounds, one a column. -/
def columns (x : State) : State :=
  let p := x.p.add x.q
  let s := x.s.turn p 16
  let r := x.r.add s
  let q := x.q.turn r 12
  let p := p.add q
  let s := s.turn p 8
  let r := r.add s
  let q := q.turn r 7
  ⟨p, q, r, s⟩

/-- The columns, then the diagonals. -/
def doubleRound (x : State) : State :=
  let x := x.columns
  let x := columns ⟨x.p, x.q.left₁, x.r.left₂, x.s.left₃⟩
  ⟨x.p, x.q.left₃, x.r.left₂, x.s.left₁⟩

/-- The start of block `counter` under a key. -/
def start (key : Bytes) (counter : Nat) : State :=
  ⟨⟨0x61707865, 0x3320646e, 0x79622d32, 0x6b206574⟩, .ofBytes key, .ofBytes (key.drop 16),
    ⟨UInt32.ofNat counter, UInt32.ofNat (counter >>> 32), 0, 0⟩⟩

end State

/-- The keystream block with number `counter`. -/
def block (key : Bytes) (counter : Nat) : Bytes :=
  let x := State.start key counter
  let y := x.doubleRound.doubleRound.doubleRound.doubleRound.doubleRound.doubleRound
  (x.p.add y.p).toBytes ++ (x.q.add y.q).toBytes ++ (x.r.add y.r).toBytes ++ (x.s.add y.s).toBytes

/-- The keystream bytes `offset`, …, `offset + count - 1`. -/
def read (key : Bytes) (offset count : Nat) : Bytes :=
  let first := offset / 64
  let last := (offset + count + 63) / 64
  let stream := (List.range (last - first)).flatMap fun i => block key (first + i)
  Bytes.slice stream (offset % 64) count

end ConfidentialTx.ChaCha
