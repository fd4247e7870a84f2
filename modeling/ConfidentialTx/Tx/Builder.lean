import ConfidentialTx.Tx.Body
import ConfidentialTx.Tx.Credential
import ConfidentialTx.Tx.Signature

/-! # Building transactions

A builder collects credentials and outputs in any order, then signs.  Inputs and outputs are sorted
by public key before anything depends on their order, so the order in which they were added is not
seen in the transaction.

* `Builder.body`: what is signed.
* `Builder.build`: the signed transaction.
* `Tx.verify`: the verifier. -/

namespace ConfidentialTx

/-- The number of members of every ring of a built transaction. -/
def ringSize : Nat := 11

/-- A signed transaction. -/
structure Tx (F P : Type) where
  body : TxBody P
  signature : TxSignature F P

/-- The inputs and outputs collected so far. -/
structure Builder (F P : Type) where
  inputs : List (Credential F P)
  outputs : List (SentOutput P)
  fee : UInt64
  tombstone : UInt64

namespace Tx
variable {F P : Type}

/-- The key images spent by a transaction. -/
def keyImages (tx : Tx F P) : List P := tx.signature.keyImages

/-- The wire form: the body, then the signature. -/
def codec [ScalarEncoding F] [PointEncoding P] : Codec (Tx F P) :=
  (TxBody.codec.both TxSignature.codec).iso (fun (b, s) => ⟨b, s⟩) (fun t => (t.body, t.signature))

variable (T : Type) [Transcript T]
variable [ScalarEncoding F] [ScalarHash F] [PointEncoding P] [PointHash P] [BasePoint P]
variable [Add P] [Sub P] [Zero P] [BEq P]
variable [Add F] [Sub F] [Neg F] [Mul F] [Inv F] [Zero F] [One F] [NatCast F] [BEq F]
variable [MultiScalar F P]

/-- Verifies the signature over the digest of the body. -/
def verify (tx : Tx F P) (gens : Generators P) :
    ExceptT TransactionError (StateM RandomSource) Unit :=
  tx.signature.verify T gens (tx.body.digest T) tx.body.reducedRings tx.body.outputCommitments
    tx.body.fee

end Tx

namespace Builder
variable {F P : Type}

/-- A builder without inputs and outputs. -/
def empty (fee tombstone : UInt64) : Builder F P := ⟨[], [], fee, tombstone⟩

/-- Adds an input. -/
def addInput (b : Builder F P) (input : Credential F P) : Builder F P :=
  { b with inputs := b.inputs ++ [input] }

/-- Adds an output that was made before. -/
def addSent (b : Builder F P) (output : SentOutput P) : Builder F P :=
  { b with outputs := b.outputs ++ [output] }

/-- Sets the fee. -/
def setFee (b : Builder F P) (fee : UInt64) : Builder F P := { b with fee := fee }

/-- Sets the tombstone block. -/
def setTombstone (b : Builder F P) (tombstone : UInt64) : Builder F P :=
  { b with tombstone := tombstone }

/-- Refuses inputs and outputs that no built transaction has. -/
def check (b : Builder F P) : Except TransactionError Unit := do
  if b.inputs.isEmpty then throw .noInputs
  if b.outputs.isEmpty then throw .noOutputs
  if maxInputs < b.inputs.length then throw (.tooManyInputs b.inputs.length)
  b.inputs.zipIdx.forM fun (input, i) => do
    if input.ring.length ≠ ringSize then
      throw (.invalidRingSize i ringSize input.ring.length)

section
variable [PointEncoding P]

/-- The inputs by the public key of their first ring member. -/
def sortedInputs (b : Builder F P) : List (Credential F P) :=
  sortByKey (fun input => (input.ring.head?.map Output.sortKey).getD []) b.inputs

/-- The outputs by their public key. -/
def sortedOutputs (b : Builder F P) : List (SentOutput P) :=
  sortByKey (fun sent => sent.output.sortKey) b.outputs

/-- The tombstone block, no later than any expiry of an output. -/
def tombstoneBlock (b : Builder F P) : UInt64 :=
  (b.outputs.filterMap (·.expiry)).foldl min b.tombstone

/-- What is signed. -/
def body (b : Builder F P) : TxBody P where
  inputs := b.sortedInputs.map (·.ring)
  outputs := b.sortedOutputs.map (·.output)
  fee := b.fee
  tombstone := b.tombstoneBlock

end

variable [ScalarEncoding F] [ScalarHash F] [PointEncoding P] [PointHash P] [BasePoint P]
variable [Add P] [Sub P] [Zero P] [BEq P]
variable [Add F] [Sub F] [Neg F] [Mul F] [Inv F] [Zero F] [One F] [NatCast F] [BEq F]
variable [MultiScalar F P] [SMul F P]

/-- Makes an output with a private key drawn at random, and adds it. -/
def addOutput (b : Builder F P) (value : UInt64) (recipient : Address P) (hint : Bytes) :
    StateM RandomSource (Builder F P × Output P) := do
  let r : F ← RandomSource.scalar
  let sent := SentOutput.create value recipient r hint
  pure (b.addSent sent, sent.output)

/-- The secret of an input. -/
def inputSecret (input : Credential F P) : Except TransactionError (InputSecret F) := do
  let opening ← input.unmask
  pure ⟨input.onetimeKey, opening.value, opening.blinding⟩

/-- The secrets of the inputs and the openings of the outputs, in sorted order. -/
def secrets (b : Builder F P) :
    Except TransactionError (List (InputSecret F) × List (Opening F)) := do
  let inputs ← b.sortedInputs.mapM inputSecret
  let outputs ← b.sortedOutputs.mapM (SentOutput.unmask F)
  pure (inputs, outputs)

/-- Signs what was collected. -/
def build (T : Type) [Transcript T] (b : Builder F P) (gens : Generators P) :
    ExceptT TransactionError (StateM RandomSource) (Tx F P) := do
  b.check
  let body := b.body
  let (secrets, openings) ← b.secrets
  let signature ← TxSignature.sign T gens (body.digest T) body.reducedRings
    (b.sortedInputs.map (·.realIndex)) secrets openings b.fee
  pure ⟨body, signature⟩

end Builder
end ConfidentialTx
