import ConfidentialTx.Bytes

/-! # The BLAKE2b digest

The digest of 64 bytes, without a key.  The working state is four rows of four words; a round mixes
the columns, then the diagonals, which are the columns of the rotated rows.

* `blake`: the digest of a byte string. -/

namespace ConfidentialTx

namespace Blake

/-- A row of four words. -/
structure Row where
  (a b c d : UInt64)

/-- Right rotation of a word; the amount lies strictly between 0 and 64. -/
@[inline] def rotate (word amount : UInt64) : UInt64 :=
  (word >>> amount) ||| (word <<< (64 - amount))

namespace Row

/-- Wordwise sum. -/
@[inline] def add (p q : Row) : Row := ⟨p.a + q.a, p.b + q.b, p.c + q.c, p.d + q.d⟩

/-- Wordwise exclusive or. -/
@[inline] def xor (p q : Row) : Row := ⟨p.a ^^^ q.a, p.b ^^^ q.b, p.c ^^^ q.c, p.d ^^^ q.d⟩

/-- Wordwise right rotation. -/
@[inline] def rotate (p : Row) (n : UInt64) : Row :=
  ⟨Blake.rotate p.a n, Blake.rotate p.b n, Blake.rotate p.c n, Blake.rotate p.d n⟩

/-- The row moved left by one, two and three places. -/
@[inline] def left₁ (p : Row) : Row := ⟨p.b, p.c, p.d, p.a⟩
@[inline] def left₂ (p : Row) : Row := ⟨p.c, p.d, p.a, p.b⟩
@[inline] def left₃ (p : Row) : Row := ⟨p.d, p.a, p.b, p.c⟩

/-- The thirty-two bytes of a row. -/
def toBytes (p : Row) : Bytes :=
  Bytes.ofWord p.a ++ Bytes.ofWord p.b ++ Bytes.ofWord p.c ++ Bytes.ofWord p.d

end Row

/-- The working state. -/
structure Working where
  (p q r s : Row)

/-- Mixes the four columns with one pair of message words each. -/
def Working.mix (w : Working) (m n : Row) : Working :=
  let p := (w.p.add w.q).add m
  let s := (w.s.xor p).rotate 32
  let r := w.r.add s
  let q := (w.q.xor r).rotate 24
  let p := (p.add q).add n
  let s := (s.xor p).rotate 16
  let r := r.add s
  let q := (q.xor r).rotate 63
  ⟨p, q, r, s⟩

/-- The words of a message block in the order of one round. -/
structure Schedule where
  (i₀ i₁ i₂ i₃ i₄ i₅ i₆ i₇ i₈ i₉ i₁₀ i₁₁ i₁₂ i₁₃ i₁₄ i₁₅ : Nat)

/-- The ten schedules. -/
def schedules : List Schedule :=
  [⟨0, 1, 2, 3, 4, 5, 6, 7, 8, 9, 10, 11, 12, 13, 14, 15⟩,
    ⟨14, 10, 4, 8, 9, 15, 13, 6, 1, 12, 0, 2, 11, 7, 5, 3⟩,
    ⟨11, 8, 12, 0, 5, 2, 15, 13, 10, 14, 3, 6, 7, 1, 9, 4⟩,
    ⟨7, 9, 3, 1, 13, 12, 11, 14, 2, 6, 5, 10, 4, 0, 15, 8⟩,
    ⟨9, 0, 5, 7, 2, 4, 10, 15, 14, 1, 11, 12, 6, 8, 3, 13⟩,
    ⟨2, 12, 6, 10, 0, 11, 8, 3, 4, 13, 7, 5, 15, 14, 1, 9⟩,
    ⟨12, 5, 1, 15, 14, 13, 4, 10, 0, 7, 6, 3, 9, 2, 8, 11⟩,
    ⟨13, 11, 7, 14, 12, 1, 3, 9, 5, 0, 15, 4, 8, 6, 2, 10⟩,
    ⟨6, 15, 14, 9, 11, 3, 0, 8, 12, 2, 13, 7, 1, 4, 10, 5⟩,
    ⟨10, 2, 8, 4, 7, 6, 1, 5, 15, 11, 9, 14, 3, 12, 13, 0⟩]

/-- One round over a message block: the columns, then the diagonals. -/
def round (m : Array UInt64) (w : Working) (k : Schedule) : Working :=
  let word := fun i => m.getD i 0
  let w := w.mix ⟨word k.i₀, word k.i₂, word k.i₄, word k.i₆⟩
    ⟨word k.i₁, word k.i₃, word k.i₅, word k.i₇⟩
  let w := Working.mix ⟨w.p, w.q.left₁, w.r.left₂, w.s.left₃⟩
    ⟨word k.i₈, word k.i₁₀, word k.i₁₂, word k.i₁₄⟩
    ⟨word k.i₉, word k.i₁₁, word k.i₁₃, word k.i₁₅⟩
  ⟨w.p, w.q.left₃, w.r.left₂, w.s.left₁⟩

/-- The initial words. -/
def iv₀ : Row :=
  ⟨0x6a09e667f3bcc908, 0xbb67ae8584caa73b, 0x3c6ef372fe94f82b, 0xa54ff53a5f1d36f1⟩
def iv₁ : Row :=
  ⟨0x510e527fade682d1, 0x9b05688c2b3e6c1f, 0x1f83d9abfb41bd6b, 0x5be0cd19137e2179⟩

/-- The chaining value between blocks. -/
structure State where
  (p q : Row)

/-- The chaining value of an unkeyed digest of 64 bytes. -/
def State.initial : State := ⟨iv₀.xor ⟨0x01010040, 0, 0, 0⟩, iv₁⟩

/-- Absorbs one block of 128 bytes; `total` counts the bytes absorbed with it. -/
def compress (h : State) (block : Bytes) (total : Nat) (last : Bool) : State :=
  let words := (Bytes.blocks 8 16 block).map Bytes.toWord |>.toArray
  let control : Row := ⟨total.toUInt64, (total >>> 64).toUInt64, if last then ~~~0 else 0, 0⟩
  let start : Working := ⟨h.p, h.q, iv₀, iv₁.xor control⟩
  let done := (schedules ++ schedules.take 2).foldl (round words) start
  ⟨(h.p.xor done.p).xor done.r, (h.q.xor done.q).xor done.s⟩

/-- Absorbs what follows `total` bytes of a message: `full` blocks and a last one, which is full
only if no byte follows it. -/
def absorb : (full : Nat) → State → (total : Nat) → Bytes → State
  | 0, h, total, last => compress h last (total + last.length) true
  | full + 1, h, total, message =>
    absorb full (compress h (message.take 128) (total + 128) false) (total + 128) (message.drop 128)

end Blake

/-- The BLAKE2b digest of 64 bytes. -/
def blake (message : Bytes) : Bytes :=
  let h := Blake.absorb ((message.length - 1) / 128) .initial 0 message
  h.p.toBytes ++ h.q.toBytes

end ConfidentialTx
