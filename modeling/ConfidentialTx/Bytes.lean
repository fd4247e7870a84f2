/-! # Byte strings

Byte strings are lists of bytes.  Numbers travel in little-endian order with a fixed width,
so the pair `Bytes.ofNat` / `Bytes.toNat` is the only number layout of the library.

* `Bytes.toNat_ofNat`: reading a written number gives it back modulo `1 <<< (8 * width)`.
* `Bytes.ofNat_toNat`: writing a read number with its own width gives the same bytes. -/

namespace ConfidentialTx

/-- A byte string. -/
abbrev Bytes := List UInt8

namespace Bytes

/-- The UTF-8 bytes of a text. -/
def ofString (text : String) : Bytes := text.toUTF8.toList

/-- The `width` little-endian bytes of `n`; higher digits are dropped. -/
def ofNat : (width n : Nat) → Bytes
  | 0, _ => []
  | width + 1, n => UInt8.ofNat n :: ofNat width (n / 256)

/-- The number with the given little-endian bytes. -/
def toNat : Bytes → Nat
  | [] => 0
  | b :: bs => b.toNat + 256 * toNat bs

/-- The eight bytes of a 64-bit word. -/
def ofWord (w : UInt64) : Bytes :=
  [w.toUInt8, (w >>> 8).toUInt8, (w >>> 16).toUInt8, (w >>> 24).toUInt8,
    (w >>> 32).toUInt8, (w >>> 40).toUInt8, (w >>> 48).toUInt8, (w >>> 56).toUInt8]

/-- The 64-bit word made of the first eight bytes; missing bytes count as zero. -/
def toWord (bs : Bytes) : UInt64 :=
  (bs.take 8).foldr (fun b w => (w <<< 8) ||| b.toUInt64) 0

/-- The first `count` consecutive blocks of `width` bytes. -/
def blocks (width : Nat) : (count : Nat) → Bytes → List Bytes
  | 0, _ => []
  | count + 1, bs => bs.take width :: blocks width count (bs.drop width)

/-- The bytes `offset`, …, `offset + width - 1`. -/
def slice (bs : Bytes) (offset width : Nat) : Bytes := (bs.drop offset).take width

/-- Lexicographic order by unsigned bytes. -/
def le : Bytes → Bytes → Bool
  | [], _ => true
  | _ :: _, [] => false
  | a :: as, b :: bs => if a = b then le as bs else a < b

/-! ### Small laws -/

@[simp] theorem length_ofNat (width n : Nat) : (ofNat width n).length = width := by
  induction width generalizing n with
  | zero => rfl
  | succ width ih => simp [ofNat, ih]

theorem toNat_ofNat (width n : Nat) : toNat (ofNat width n) = n % (1 <<< (8 * width)) := by
  rw [Nat.one_shiftLeft, show 2 ^ (8 * width) = 256 ^ width from Nat.pow_mul 2 8 width]
  induction width generalizing n with
  | zero => simp [ofNat, toNat, Nat.mod_one]
  | succ width ih =>
    rw [ofNat, toNat, ih, Nat.pow_succ', Nat.mod_mul]
    simp

theorem toNat_lt (bs : Bytes) : toNat bs < 1 <<< (8 * bs.length) := by
  rw [Nat.one_shiftLeft, show 2 ^ (8 * bs.length) = 256 ^ bs.length from Nat.pow_mul 2 8 bs.length]
  induction bs with
  | nil => simp [toNat]
  | cons b bs ih =>
    have hb := b.toNat_lt
    rw [toNat, List.length_cons, Nat.pow_succ]
    omega

theorem ofNat_toNat (bs : Bytes) : ofNat bs.length (toNat bs) = bs := by
  induction bs with
  | nil => rfl
  | cons b bs ih =>
    have hb := b.toNat_lt
    have hdiv : toNat (b :: bs) / 256 = toNat bs := by rw [toNat]; omega
    have hmod : UInt8.ofNat (toNat (b :: bs)) = b := by
      apply UInt8.toNat_inj.mp
      rw [UInt8.toNat_ofNat', toNat]
      omega
    rw [List.length_cons, ofNat, hdiv, hmod, ih]

@[simp] theorem length_ofWord (w : UInt64) : (ofWord w).length = 8 := rfl

@[simp] theorem length_blocks (width count : Nat) (bs : Bytes) :
    (blocks width count bs).length = count := by
  induction count generalizing bs with
  | zero => rfl
  | succ count ih => simp [blocks, ih]

end Bytes
end ConfidentialTx
