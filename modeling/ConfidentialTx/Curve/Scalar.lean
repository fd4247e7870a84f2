import ConfidentialTx.Bytes

/-! # Scalars

Scalars are the residues modulo the prime group order.  A scalar is encoded by the thirty-two
little-endian bytes of its number, and only reduced numbers are read.

* `Scalar.decode_encode`, `Scalar.encode_of_decode`: the encoding is a bijection between the scalars
  and the byte strings that are read. -/

namespace ConfidentialTx

/-- The order of the group. -/
def groupOrder : Nat := 1 <<< 252 + 27742317777372353535851937790883648493

/-- A residue modulo the group order. -/
structure Scalar where
  /-- The reduced number. -/
  val : Nat
  isLt : val < groupOrder
deriving DecidableEq

namespace Scalar

/-- The residue of a number. -/
def ofNat (n : Nat) : Scalar := ⟨n % groupOrder, Nat.mod_lt _ (by decide)⟩

instance : Inhabited Scalar := ⟨ofNat 0⟩
instance : Zero Scalar := ⟨ofNat 0⟩
instance : One Scalar := ⟨ofNat 1⟩
instance : NatCast Scalar := ⟨ofNat⟩
instance : Add Scalar := ⟨fun x y => ofNat (x.val + y.val)⟩
instance : Sub Scalar := ⟨fun x y => ofNat (x.val + (groupOrder - y.val))⟩
instance : Neg Scalar := ⟨fun x => ofNat (groupOrder - x.val)⟩
instance : Mul Scalar := ⟨fun x y => ofNat (x.val * y.val)⟩

/-- The power of a scalar, by repeated squaring. -/
def pow (x : Scalar) (n : Nat) : Scalar :=
  if n = 0 then 1
  else
    let half := pow (x * x) (n / 2)
    if n % 2 = 1 then x * half else half
termination_by n

/-- The inverse, as a power with the exponent `groupOrder - 2`; the inverse of zero is zero. -/
instance : Inv Scalar := ⟨fun x => x.pow (groupOrder - 2)⟩

/-- The thirty-two bytes of a scalar. -/
def encode (x : Scalar) : Bytes := Bytes.ofNat 32 x.val

/-- Reads thirty-two bytes of a reduced number. -/
def decode (bs : Bytes) : Option Scalar :=
  if bs.length = 32 then
    if h : bs.toNat < groupOrder then some ⟨bs.toNat, h⟩ else none
  else none

/-- The residue of a byte string of any length. -/
def ofBytes (bs : Bytes) : Scalar := ofNat bs.toNat

/-- Thirty-two bytes with the top bit cleared. -/
def clearTopBit (bs : Bytes) : Bytes := bs.take 31 ++ (bs.drop 31).map (· &&& 127)

/-! ### The encoding -/

theorem decode_encode (x : Scalar) : decode (encode x) = some x := by
  have hx : x.val < 1 <<< (8 * 32) := Nat.lt_trans x.isLt (by decide)
  have hval : Bytes.toNat (encode x) = x.val := by
    rw [encode, Bytes.toNat_ofNat, Nat.mod_eq_of_lt hx]
  have hlen : (encode x).length = 32 := Bytes.length_ofNat 32 x.val
  simp [decode, hlen, hval, x.isLt]

theorem encode_of_decode {bs : Bytes} {x : Scalar} (h : decode bs = some x) : encode x = bs := by
  unfold decode at h
  split at h
  · rename_i hlen
    split at h
    · obtain rfl := Option.some.inj h
      rw [encode, ← hlen, Bytes.ofNat_toNat]
    · exact absurd h (by simp)
  · exact absurd h (by simp)

end Scalar
end ConfidentialTx
