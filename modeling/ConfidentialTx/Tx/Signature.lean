import ConfidentialTx.Range.Aggregate
import ConfidentialTx.Ring.Signature
import ConfidentialTx.Tx.Amount

/-! # Transaction signatures

A signature of a transaction holds one pseudo-output per input, which commits to the input's value
under a fresh blinding factor, one range proof over all pseudo-outputs and outputs, and one ring
signature per input over the message, the pseudo-outputs and the range proof.

* `TxSignature.sign`: the blinding factors of the pseudo-outputs sum to those of the outputs, so
  pseudo-outputs balance outputs and fee.
* `TxSignature.verify`: shapes, key images, range proof, balance, ring signatures, in this order. -/

namespace ConfidentialTx

/-- The largest number of inputs. -/
def maxInputs : Nat := 16

/-- The secrets of the output that an input spends. -/
structure InputSecret (F : Type) where
  onetimeKey : F
  value : UInt64
  blinding : F

/-- A transaction signature. -/
structure TxSignature (F P : Type) where
  rangeProof : Bytes
  pseudoOutputs : List P
  ringSignatures : List (RingSignature F P)

/-- Whether no byte string occurs twice. -/
def allDistinct : List Bytes → Bool
  | [] => true
  | x :: xs => !xs.contains x && allDistinct xs

namespace TxSignature
variable {F P : Type}

/-- The key images, one per input. -/
def keyImages (signature : TxSignature F P) : List P := signature.ringSignatures.map (·.keyImage)

/-- The message that the ring signatures sign. -/
def extendMessage [PointEncoding P] (message : Bytes) (pseudoOutputs : List P)
    (rangeProof : Bytes) : Bytes :=
  message ++ pseudoOutputs.flatMap PointEncoding.encode ++ rangeProof

/-- The sum of amounts, as a number of any size. -/
def totalAmount (amounts : List UInt64) : Nat := amounts.foldr (fun v total => v.toNat + total) 0

/-- Refuses inputs and outputs that no transaction can have. -/
def checkShape (rings : List (List (RingMember P))) (indices : List Nat)
    (secrets : List (InputSecret F)) (outputs : List (Opening F)) (fee : UInt64) :
    Except TransactionError Unit := do
  if rings.isEmpty then throw .noInputs
  if outputs.isEmpty then throw .noOutputs
  if maxInputs < rings.length then throw (.tooManyInputs rings.length)
  if indices.length ≠ rings.length then throw (.lengthMismatch rings.length indices.length)
  if secrets.length ≠ rings.length then throw (.lengthMismatch rings.length secrets.length)
  let spent := totalAmount (secrets.map (·.value))
  let received := totalAmount (outputs.map (·.value))
  if spent ≠ received + fee.toNat then throw .valueNotConserved

variable (T : Type) [Transcript T]
variable [ScalarEncoding F] [ScalarHash F] [PointEncoding P] [PointHash P] [BasePoint P]
variable [Add P] [Sub P] [Zero P] [BEq P]
variable [Add F] [Sub F] [Neg F] [Mul F] [Inv F] [Zero F] [One F] [NatCast F] [BEq F]
variable [MultiScalar F P]

/-- The requests of the ring signatures, one per input. -/
def requests (message : Bytes) (rings : List (List (RingMember P))) (indices : List Nat)
    (secrets : List (InputSecret F)) (pseudoBlindings : List F) (pseudoOutputs : List P) :
    List (SigningRequest F P) :=
  List.zipWith (fun (ring, index, secret) (blinding, output) =>
    { message := message
      ring := ring
      realIndex := index
      onetimeKey := secret.onetimeKey
      value := secret.value
      blinding := secret.blinding
      pseudoBlinding := blinding
      pseudoOutput := output })
    (rings.zip (indices.zip secrets)) (pseudoBlindings.zip pseudoOutputs)

/-- Draws the blinding factors of the pseudo-outputs: all but the last at random, and the last one
so that they sum to `total`. -/
def drawBlindings (inputs : Nat) (total : F) : StateM RandomSource (List F) := do
  let drawn ← RandomSource.scalars (inputs - 1)
  pure (drawn ++ [total - drawn.sum])

/-- Signs a message for the given rings, real positions, secrets, outputs and fee. -/
def sign [SMul F P] (gens : Generators P) (message : Bytes) (rings : List (List (RingMember P)))
    (indices : List Nat) (secrets : List (InputSecret F)) (outputs : List (Opening F))
    (fee : UInt64) : ExceptT TransactionError (StateM RandomSource) (TxSignature F P) := do
  checkShape rings indices secrets outputs fee
  let outputBlindings := outputs.map (·.blinding)
  let pseudoBlindings ← drawBlindings rings.length outputBlindings.sum
  let values := secrets.map (·.value) ++ outputs.map (·.value)
  let (proof, commitments) ←
    (provePadded T gens .ledger values (pseudoBlindings ++ outputBlindings)).adapt
      TransactionError.rangeProof
  let pseudoOutputs := commitments.take rings.length
  let rangeProof := proof.toBytes
  let extended := extendMessage message pseudoOutputs rangeProof
  let ringSignatures ←
    (requests extended rings indices secrets pseudoBlindings pseudoOutputs).mapM fun request =>
      (RingSignature.sign request).adapt TransactionError.signature
  pure ⟨rangeProof, pseudoOutputs, ringSignatures⟩

/-- Verifies a signature over a message, rings, output commitments and a fee. -/
def verify (signature : TxSignature F P) (gens : Generators P) (message : Bytes)
    (rings : List (List (RingMember P))) (outputs : List P) (fee : UInt64) :
    ExceptT TransactionError (StateM RandomSource) Unit := do
  if rings.length ≠ signature.ringSignatures.length then
    throw (.lengthMismatch rings.length signature.ringSignatures.length)
  if rings.length ≠ signature.pseudoOutputs.length then
    throw (.lengthMismatch rings.length signature.pseudoOutputs.length)
  unless allDistinct (signature.keyImages.map PointEncoding.encode) do throw .duplicateKeyImage
  let proof : RangeProof F P ←
    (RangeProof.ofBytes signature.rangeProof).mapError TransactionError.rangeProof
  (verifyPadded T gens .ledger proof (signature.pseudoOutputs ++ outputs)).adapt
    TransactionError.rangeProof
  unless isBalanced F signature.pseudoOutputs outputs fee do throw .valueNotConserved
  let extended := extendMessage message signature.pseudoOutputs signature.rangeProof
  (signature.ringSignatures.zip (rings.zip signature.pseudoOutputs)).forM
    fun (ringSignature, ring, pseudoOutput) => do
      (ringSignature.verify extended ring pseudoOutput).mapError TransactionError.signature

/-- The wire form. -/
def codec : Codec (TxSignature F P) :=
  (Codec.hexText.both (Codec.point.list.both RingSignature.codec.list)).iso
    (fun (r, p, s) => ⟨r, p, s⟩) (fun s => (s.rangeProof, s.pseudoOutputs, s.ringSignatures))

end TxSignature
end ConfidentialTx
