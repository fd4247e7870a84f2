import ConfidentialTx.Address
import ConfidentialTx.Ring.Signature
import ConfidentialTx.Tx.Amount

/-! # Transaction outputs

* `Output.create`: the output of a value to an address.
* `Output.unmask`: its value, for the holder of the recipient's view key.
* `SentOutput`: an output with the sender's side of its secret. -/

namespace ConfidentialTx

/-- A transaction output. -/
structure Output (P : Type) where
  amount : MaskedAmount P
  /-- The one-time key that owns the output. -/
  targetKey : P
  /-- The public key from which the recipient derives the shared secret. -/
  publicKey : P
  /-- Bytes for the recipient's view server. -/
  hint : Bytes
deriving BEq

/-- An output that was just made. -/
structure SentOutput (P : Type) where
  output : Output P
  secret : P
  /-- The last block in which the recipient's server key is valid. -/
  expiry : Option UInt64 := none

namespace Output
variable {F P : Type}

/-- What a ring signature sees of an output. -/
def reduce (output : Output P) : RingMember P :=
  ⟨output.publicKey, output.targetKey, output.amount.commitment⟩

section
variable [ScalarEncoding F] [ScalarHash F] [NatCast F]
variable [PointEncoding P] [PointHash P] [BasePoint P] [SMul F P] [MultiScalar F P]

/-- The output of a value to an address, under the sender's private key `r`. -/
def create [Add P] (value : UInt64) (recipient : Address P) (r : F) (hint : Bytes) : Output P where
  amount := .create F value (recipient.secret r)
  targetKey := recipient.onetimePublicKey r
  publicKey := recipient.txPublicKey r
  hint := hint

/-- The value and blinding factor, for the holder of the view key. -/
def unmask [BEq P] (output : Output P) (viewKey : F) : Except TransactionError (Opening F) :=
  output.amount.unmask F (sharedSecret viewKey output.publicKey)

end

/-- The wire form. -/
def codec [PointEncoding P] : Codec (Output P) :=
  (MaskedAmount.codec.both (Codec.point.both (Codec.point.both Codec.hexText))).iso
    (fun (a, t, p, h) => ⟨a, t, p, h⟩) (fun o => (o.amount, o.targetKey, o.publicKey, o.hint))

end Output

namespace SentOutput
variable {F P : Type}
variable [ScalarEncoding F] [ScalarHash F] [NatCast F]
variable [PointEncoding P] [PointHash P] [BasePoint P] [SMul F P] [MultiScalar F P]

/-- Makes an output and keeps its secret. -/
def create [Add P] (value : UInt64) (recipient : Address P) (r : F) (hint : Bytes) :
    SentOutput P where
  output := .create value recipient r hint
  secret := recipient.secret r

variable (F) in
/-- The value and blinding factor, from the secret that was kept. -/
def unmask [BEq P] (sent : SentOutput P) : Except TransactionError (Opening F) :=
  sent.output.amount.unmask F sent.secret

end SentOutput
end ConfidentialTx
