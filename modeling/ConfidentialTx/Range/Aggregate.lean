import ConfidentialTx.Range.Dealer
import ConfidentialTx.Range.Party

/-! # Proving many values at once

A prover that holds all values plays the dealer and every party.

* `RangeProof.exchange`: the three rounds, given all blinding factors.
* `RangeProof.prove`: the prover; every party draws from a source of its own, seeded in order.
* `provePadded`, `verifyPadded`: proofs over 64-bit amounts in any number, where the last amount is
  repeated up to the next power of two. -/

namespace ConfidentialTx

/-- The blinding factors of one party. -/
structure PartyBlindings (F : Type) where
  bits : BitBlindings F
  polys : PolyBlindings F

namespace PartyBlindings
variable {F : Type} [ScalarEncoding F]

/-- Draws the blinding factors of a party in the order of its rounds. -/
def draw (n : Nat) : StateM RandomSource (PartyBlindings F) := do
  let bits ← BitBlindings.draw n
  let polys ← PolyBlindings.draw
  pure ⟨bits, polys⟩

/-- Draws a seed of thirty-two bytes, and the blinding factors of a party from its keystream. -/
def drawSeeded (n : Nat) : StateM RandomSource (PartyBlindings F) := do
  let seed ← RandomSource.bytes 32
  pure ((draw n).run (.ofSeed seed)).1

end PartyBlindings

namespace RangeProof
variable {F P T : Type} [Transcript T]
variable [ScalarEncoding F] [PointEncoding P] [Add P] [Zero P]
variable [Add F] [Sub F] [Neg F] [Mul F] [Inv F] [Zero F] [One F] [NatCast F] [BEq F]
variable [SMul F P] [MultiScalar F P]

/-- The three rounds between a dealer and its parties, who take their positions first: the proof and the
value commitments. -/
def exchange (gens : Generators P) (key : CommitmentKey P) (dealer : Dealer T)
    (parties : List (Party F P)) (blindings : List (PartyBlindings F)) :
    Except RangeProofError (RangeProof F P × List P) := do
  (List.range parties.length).forM (Party.checkPosition gens)
  let committed := (parties.zip blindings).mapIdx fun j (party, b) =>
    party.commitBits gens key j b.bits
  let bits := committed.map (·.2)
  let dealer : Dealer.WithBits F P T ← dealer.receiveBits bits
  let answering := List.zipWith (fun (party, _) (b : PartyBlindings F) =>
    party.commitPolys key dealer.bitChallenge b.polys) committed blindings
  let dealer ← dealer.receivePolys (answering.map (·.2))
  let shares ← answering.mapM fun (party, _) => party.share dealer.polyChallenge
  let proof ← dealer.receiveTrustedShares gens key shares
  pure (proof, bits.map (·.V))

/-- The dealer and the parties for the given values. -/
def participants (gens : Generators P) (key : CommitmentKey P) (start : T) (values : List UInt64)
    (blindings : List F) (n : Nat) : Except RangeProofError (Dealer T × List (Party F P)) := do
  if values.length ≠ blindings.length then
    throw (.wrongNumBlindingFactors values.length blindings.length)
  let dealer ← Dealer.create gens start n values.length
  let parties ← (values.zip blindings).mapM fun (v, r) => Party.create gens key v r n
  pure (dealer, parties)

/-- Proves that every value lies in `[0, 2ⁿ)`; gives the proof and the value commitments. -/
def prove (gens : Generators P) (key : CommitmentKey P) (start : T) (values : List UInt64)
    (blindings : List F) (n : Nat) :
    ExceptT RangeProofError (StateM RandomSource) (RangeProof F P × List P) := do
  let (dealer, parties) ← participants gens key start values blindings n
  let drawn ← RandomSource.times (PartyBlindings.drawSeeded (F := F) n) parties.length
  exchange gens key dealer parties drawn

end RangeProof

/-! ### Amounts -/

/-- A list with its last entry repeated up to the next power of two. -/
def padToPowerOfTwo {α : Type} (xs : List α) : List α :=
  match xs.getLast? with
  | none => xs
  | some last => xs ++ List.replicate (nextPowerOfTwo xs.length - xs.length) last

/-- The number of bits of an amount. -/
def amountBits : Nat := 64

/-- The label of the transcripts of amount proofs. -/
def amountLabel : String := "mc_bulletproof_transcript"

section Padded
variable {F P : Type} (T : Type) [Transcript T]
variable [ScalarEncoding F] [PointEncoding P] [Add P] [Zero P]
variable [Add F] [Sub F] [Neg F] [Mul F] [Inv F] [Zero F] [One F] [NatCast F]
variable [MultiScalar F P]

/-- Proves the range of amounts in any number; gives the proof and the commitments to the padded
amounts. -/
def provePadded [BEq F] [SMul F P] (gens : Generators P) (key : CommitmentKey P)
    (values : List UInt64) (blindings : List F) :
    ExceptT RangeProofError (StateM RandomSource) (RangeProof F P × List P) := do
  if values.length ≠ blindings.length then
    throw (.wrongNumBlindingFactors values.length blindings.length)
  if values.isEmpty then throw .emptyAggregation
  RangeProof.prove gens key (Transcript.start amountLabel : T) (padToPowerOfTwo values)
    (padToPowerOfTwo blindings) amountBits

/-- Verifies a proof over commitments in any number. -/
def verifyPadded [BEq P] (gens : Generators P) (key : CommitmentKey P) (proof : RangeProof F P)
    (commitments : List P) : ExceptT RangeProofError (StateM RandomSource) Unit := do
  let (result, _, source) := proof.verify gens key amountBits (padToPowerOfTwo commitments)
    (Transcript.start amountLabel : T) (← get)
  set source
  match result with
  | .ok () => pure ()
  | .error e => throw e

end Padded
end ConfidentialTx
