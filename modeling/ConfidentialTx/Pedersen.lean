import ConfidentialTx.Group

/-! # Pedersen commitments

A commitment to `v` with blinding factor `r` is `v • B + r • B'`, with the two points of a
`CommitmentKey`.  Amounts on the ledger are committed under one fixed key, whose second point is the
base point: the difference of two commitments to one amount is then a multiple of the base point.

* `isBalanced`: inputs equal outputs plus a public amount, as an equation of points. -/

namespace ConfidentialTx

/-- Two independent points. -/
structure CommitmentKey (P : Type) where
  /-- The point of the committed value. -/
  value : P
  /-- The point of the blinding factor. -/
  blinding : P

instance {P : Type} [BEq P] : BEq (CommitmentKey P) where
  beq k k' := k.value == k'.value && k.blinding == k'.blinding

namespace CommitmentKey
variable {F P : Type} [MultiScalar F P]

/-- The commitment to `value` with blinding factor `blinding`. -/
def commit (key : CommitmentKey P) (value blinding : F) : P :=
  combine [value, blinding] [key.value, key.blinding]

/-- The key of the ledger. -/
def ledger [PointEncoding P] [PointHash P] [BasePoint P] : CommitmentKey P :=
  ⟨imageBase base, base⟩

end CommitmentKey

section Amount
variable {F P : Type} [NatCast F] [MultiScalar F P]
variable [PointEncoding P] [PointHash P] [BasePoint P]

/-- The ledger commitment to an amount. -/
def commitAmount (amount : UInt64) (blinding : F) : P :=
  CommitmentKey.ledger.commit (amount.toNat : F) blinding

variable (F) in
/-- Whether the inputs sum to the outputs and a public amount, committed without blinding. -/
def isBalanced [Zero F] [Add P] [Zero P] [BEq P] (inputs outputs : List P) (extra : UInt64) :
    Bool :=
  inputs.sum == (outputs ++ [commitAmount extra (0 : F)]).sum

end Amount
end ConfidentialTx
