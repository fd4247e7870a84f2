import ConfidentialTx.Group
import ConfidentialTx.Hex

/-! # Self-delimiting wire forms

A codec writes a value and reads one from the front of a byte string, leaving the rest.  Words are
eight little-endian bytes, points and scalars their thirty-two bytes, and lists and texts begin with
their count as a word.

* `Codec.both`, `Codec.list`, `Codec.iso`: codecs of pairs, lists and structures from those of their
  parts.
* `Codec.read`: reads a value and ignores what follows. -/

namespace ConfidentialTx

/-- A writer and a reader. -/
structure Codec (α : Type) where
  encode : α → Bytes
  decode : Bytes → Option (α × Bytes)

namespace Codec
variable {α β : Type}

/-- Reads a value from the front of a byte string. -/
def read (c : Codec α) (bs : Bytes) : Option α := (c.decode bs).map (·.1)

/-- Values written as exactly `width` bytes. -/
def fixed (width : Nat) (encode : α → Bytes) (decode : Bytes → Option α) : Codec α where
  encode := encode
  decode bs :=
    let front := bs.take width
    if front.length < width then none else (decode front).map fun a => (a, bs.drop width)

/-- A 64-bit word. -/
def word : Codec UInt64 := fixed 8 Bytes.ofWord fun bs => some bs.toWord

/-- The encoding of a scalar. -/
def scalar {F : Type} [ScalarEncoding F] : Codec F :=
  fixed 32 ScalarEncoding.encode ScalarEncoding.decode

/-- The encoding of a point. -/
def point {P : Type} [PointEncoding P] : Codec P :=
  fixed 32 PointEncoding.encode PointEncoding.decode

/-- One value after another. -/
def both (c : Codec α) (d : Codec β) : Codec (α × β) where
  encode p := c.encode p.1 ++ d.encode p.2
  decode bs := do
    let (a, bs) ← c.decode bs
    let (b, bs) ← d.decode bs
    pure ((a, b), bs)

/-- The values of a type through those of another one. -/
def iso (c : Codec α) (make : α → β) (parts : β → α) : Codec β where
  encode b := c.encode (parts b)
  decode bs := (c.decode bs).map fun (a, bs) => (make a, bs)

/-- A count. -/
def count : Codec Nat := word.iso UInt64.toNat Nat.toUInt64

/-- Reads `n` values. -/
def decodeMany (c : Codec α) : (n : Nat) → Bytes → Option (List α × Bytes)
  | 0, bs => some ([], bs)
  | n + 1, bs => do
    let (a, bs) ← c.decode bs
    let (as, bs) ← decodeMany c n bs
    pure (a :: as, bs)

/-- A counted list. -/
def list (c : Codec α) : Codec (List α) where
  encode as := count.encode as.length ++ as.flatMap c.encode
  decode bs := do
    let (n, bs) ← count.decode bs
    c.decodeMany n bs

/-- A byte string as a counted text of hexadecimal digits. -/
def hexText : Codec Bytes where
  encode bs := count.encode (2 * bs.length) ++ Hex.encode bs
  decode bs := do
    let (n, bs) ← count.decode bs
    if bs.length < n then none
    else
      match Hex.decode (bs.take n) with
      | .ok data => some (data, bs.drop n)
      | .error _ => none

end Codec
end ConfidentialTx
