import ConfidentialTx.Pedersen
import ConfidentialTx.Range.Generators
import ConfidentialTx.Range.Vector

/-! # Messages between the dealer and the parties

Every party commits to its bits, then to its polynomials, and at last opens them at the challenge
`x` in a share of the proof.

* `ProofShare.fits`: the size of a share.
* `ProofShare.audit`: whether a share agrees with what its party sent before. -/

namespace ConfidentialTx

/-- The commitments of a party to its value, its bits and its blinders. -/
structure BitCommitment (P : Type) where
  (V A S : P)

/-- The challenges after all bit commitments. -/
structure BitChallenge (F : Type) where
  (y z : F)

/-- The commitments of a party to the upper coefficients of its inner product. -/
structure PolyCommitment (P : Type) where
  (T₁ T₂ : P)

/-- A party's part of the proof: the value of its inner product, two blinding factors, and the
values of its vectors. -/
structure ProofShare (F : Type) where
  (tx txBlinding eBlinding : F)
  (l r : List F)

namespace ProofShare
variable {F P : Type}

/-- Whether both vectors have length `n` and party `j` has that many generators. -/
def fits (share : ProofShare F) (gens : Generators P) (n j : Nat) : Bool :=
  share.l.length == n && share.r.length == n && n ≤ gens.capacity && j < gens.parties

variable [Add F] [Sub F] [Neg F] [Mul F] [Inv F] [Zero F] [One F] [NatCast F]

/-- The scalars of `A`, `S`, the blinding point and the generators in the audit of the vectors. -/
def vectorScalars (share : ProofShare F) (ch : BitChallenge F) (x : F) (j : Nat) : List F :=
  let n := share.l.length
  let zz := ch.z * ch.z
  let zj := pow ch.z j
  let yInv := (pow ch.y (j * n))⁻¹
  let right := List.zipWith
    (fun r (two, y) => ch.z + y * yInv * (-r) + y * yInv * (zz * zj * two))
    share.r ((powers ((2 : Nat) : F) n).zip (powers ch.y⁻¹ n))
  [1, x, -share.eBlinding] ++ share.l.map (-ch.z - ·) ++ right

/-- The part of a party's `t(0)` that the challenges fix. -/
def delta (n j : Nat) (ch : BitChallenge F) : F :=
  (ch.z - ch.z * ch.z) * powerSum ch.y n * pow ch.y (j * n)
    - ch.z * (ch.z * ch.z) * powerSum ((2 : Nat) : F) n * pow ch.z j

/-- The scalars of `V`, `T₁`, `T₂` and the points of the key in the audit of the inner product. -/
def valueScalars (share : ProofShare F) (ch : BitChallenge F) (x : F) (j : Nat) : List F :=
  [ch.z * ch.z * pow ch.z j, x, x * x, delta share.l.length j ch - share.tx, -share.txBlinding]

/-- Whether the share of party `j` has a possible size, has the inner product of its vectors, and
agrees with the party's commitments under the challenges. -/
def audit [BEq F] [Zero P] [BEq P] [MultiScalar F P] (share : ProofShare F) (gens : Generators P)
    (key : CommitmentKey P) (j : Nat) (bits : BitCommitment P) (ch : BitChallenge F)
    (polys : PolyCommitment P) (x : F) : Bool :=
  let n := share.l.length
  match gens.row .G j n, gens.row .H j n with
  | some G, some H =>
    share.fits gens n j
      && share.tx == innerProduct share.l share.r
      && combine (share.vectorScalars ch x j) ([bits.A, bits.S, key.blinding] ++ G ++ H) == 0
      && combine (share.valueScalars ch x j)
        [bits.V, polys.T₁, polys.T₂, key.value, key.blinding] == 0
  | _, _ => false

end ProofShare
end ConfidentialTx
