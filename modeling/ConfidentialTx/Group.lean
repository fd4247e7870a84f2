import ConfidentialTx.Bytes
import ConfidentialTx.Random.Source

/-! # Scalars and points

The protocols are written over any type `F` of scalars and any type `P` of points.  They use the
ordinary signs of arithmetic (`+`, `-`, `*`, `⁻¹`, `•`, `==`) and the classes of this module:

* `ScalarEncoding`, `PointEncoding`: byte encodings, and the maps from uniform bytes;
* `ScalarHash`, `PointHash`: hashes under a domain tag;
* `BasePoint`: the generator of the group;
* `MultiScalar`: sums of products of scalars and points.

No protocol depends on how these are computed, so its laws can be stated over a field and a
module.  Lists of scalars and points are limited by memory alone, `fitsMemory`. -/

namespace ConfidentialTx

/-- Scalars with a canonical encoding. -/
class ScalarEncoding (F : Type) where
  encode : F → Bytes
  decode : Bytes → Option F
  /-- The residue of a byte string of any length. -/
  ofBytes : Bytes → F

/-- Points with a canonical encoding. -/
class PointEncoding (P : Type) where
  encode : P → Bytes
  decode : Bytes → Option P
  /-- The point of sixty-four uniform bytes. -/
  ofUniform : Bytes → P

/-- A hash to scalars under a domain tag. -/
class ScalarHash (F : Type) where
  hashToScalar : (tag : String) → (data : Bytes) → F

/-- A hash to points under a domain tag. -/
class PointHash (P : Type) where
  hashToPoint : (tag : String) → (data : Bytes) → P

/-- A distinguished generator. -/
class BasePoint (P : Type) where
  base : P

/-- Sums of products, `s₁ • p₁ + s₂ • p₂ + …`, over lists of one length. -/
class MultiScalar (F P : Type) where
  combine : List F → List P → P

export ScalarHash (hashToScalar)
export PointHash (hashToPoint)
export BasePoint (base)
export MultiScalar (combine)

/-- Whether some memory could hold `count` scalars or points at once. -/
def fitsMemory (count : Nat) : Bool := count < 1 <<< 55

/-- The point that a one-time key is raised on in its key image. -/
def imageBase {P : Type} [PointEncoding P] [PointHash P] (key : P) : P :=
  hashToPoint "mc_onetime_key_hash_to_point" (PointEncoding.encode key)

namespace RandomSource

/-- Draws a scalar: sixty-four bytes, reduced. -/
def scalar {F : Type} [ScalarEncoding F] : StateM RandomSource F := do
  let wide ← bytes 64
  pure (ScalarEncoding.ofBytes wide)

/-- Draws `count` scalars. -/
def scalars {F : Type} [ScalarEncoding F] (count : Nat) : StateM RandomSource (List F) :=
  times scalar count

end RandomSource
end ConfidentialTx
