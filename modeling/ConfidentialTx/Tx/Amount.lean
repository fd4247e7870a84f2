import ConfidentialTx.Codec
import ConfidentialTx.Error
import ConfidentialTx.Pedersen

/-! # Masked amounts

The amount of an output is committed, and masked for the recipient.  The mask and the blinding
factor are hashes of the secret that sender and recipient share.

* `MaskedAmount.create`, `MaskedAmount.unmask`: the two sides. -/

namespace ConfidentialTx

/-- A committed and masked amount. -/
structure MaskedAmount (P : Type) where
  commitment : P
  /-- The value, exclusive or its mask. -/
  masked : UInt64
deriving BEq

/-- A value and the blinding factor of its commitment. -/
structure Opening (F : Type) where
  value : UInt64
  blinding : F

namespace MaskedAmount
variable {F P : Type} [ScalarHash F] [PointEncoding P]

/-- The blinding factor of a shared secret. -/
def blindingOf (secret : P) : F :=
  hashToScalar "mc_amount_blinding" (PointEncoding.encode secret)

variable (F) [ScalarEncoding F]

/-- The value mask of a shared secret: the first eight bytes of a hashed scalar. -/
def maskOf (secret : P) : UInt64 :=
  Bytes.toWord (ScalarEncoding.encode
    (hashToScalar "mc_amount_value" (PointEncoding.encode secret) : F))

variable [NatCast F] [MultiScalar F P] [PointHash P] [BasePoint P]

/-- Commits to a value and masks it. -/
def create (value : UInt64) (secret : P) : MaskedAmount P where
  commitment := commitAmount value (blindingOf secret : F)
  masked := value ^^^ maskOf F secret

/-- Unmasks the value; refused unless the commitment opens to it. -/
def unmask [BEq P] (amount : MaskedAmount P) (secret : P) :
    Except TransactionError (Opening F) := do
  let value := amount.masked ^^^ maskOf F secret
  let blinding : F := blindingOf secret
  unless commitAmount value blinding == amount.commitment do throw .amountVerificationFailed
  pure ⟨value, blinding⟩

end MaskedAmount

/-- The wire form of a masked amount. -/
def MaskedAmount.codec {P : Type} [PointEncoding P] : Codec (MaskedAmount P) :=
  (Codec.point.both Codec.word).iso (fun (c, v) => ⟨c, v⟩) (fun a => (a.commitment, a.masked))

end ConfidentialTx
