import ConfidentialTx.Range.Message
import ConfidentialTx.Range.Proof

/-! # The dealer of a range proof

The dealer owns the transcript.  It takes in the messages of all parties in order of their
positions, draws the challenges, and assembles the shares into a proof.

* `Dealer.create`, `Dealer.receiveBits`, `Dealer.WithBits.receivePolys`: the first steps.
* `Dealer.WithPolys.assemble`: the proof, unchecked.
* `Dealer.WithPolys.receiveShares`: the proof if it verifies, and the positions of the shares that
  do not pass their audit if it does not. -/

namespace ConfidentialTx

open Transcript

/-- A dealer for `m` parties of `n` bits, waiting for bit commitments. -/
structure Dealer (T : Type) where
  /-- The transcript before the proof. -/
  initial : T
  transcript : T
  (n m : Nat)

/-- A dealer waiting for polynomial commitments. -/
structure Dealer.WithBits (F P T : Type) extends Dealer T where
  bits : List (BitCommitment P)
  bitChallenge : BitChallenge F

/-- A dealer waiting for shares. -/
structure Dealer.WithPolys (F P T : Type) extends Dealer.WithBits F P T where
  polys : List (PolyCommitment P)
  polyChallenge : F

namespace Dealer
variable {F P T : Type} [Transcript T]

/-- A dealer on a transcript. -/
def create (gens : Generators P) (t : T) (n m : Nat) : Except RangeProofError (Dealer T) := do
  checkParameters gens n m
  pure ⟨t, ((absorbRange n m).run t).2, n, m⟩

variable [ScalarEncoding F] [PointEncoding P] [Add P] [Zero P]

/-- The transcript of the bit commitments and their challenges. -/
def bitRound (bits : List (BitCommitment P)) : StateM T (BitChallenge F) := do
  bits.forM fun c => absorbPoint "V" c.V
  absorbPoint "A" (bits.map (·.A)).sum
  absorbPoint "S" (bits.map (·.S)).sum
  let y ← challenge "y"
  let z ← challenge "z"
  pure ⟨y, z⟩

/-- The transcript of the polynomial commitments and their challenge. -/
def polyRound (polys : List (PolyCommitment P)) : StateM T F := do
  absorbPoint "T_1" (polys.map (·.T₁)).sum
  absorbPoint "T_2" (polys.map (·.T₂)).sum
  challenge "x"

/-- Takes in the bit commitments of all parties. -/
def receiveBits (dealer : Dealer T) (bits : List (BitCommitment P)) :
    Except RangeProofError (WithBits F P T) := do
  if dealer.m ≠ bits.length then throw (.wrongNumBitCommitments dealer.m bits.length)
  let (ch, t) := (bitRound bits).run dealer.transcript
  pure { dealer with transcript := t, bits := bits, bitChallenge := ch }

/-- Takes in the polynomial commitments of all parties. -/
def WithBits.receivePolys (dealer : WithBits F P T) (polys : List (PolyCommitment P)) :
    Except RangeProofError (WithPolys F P T) := do
  if dealer.m ≠ polys.length then throw (.wrongNumPolyCommitments dealer.m polys.length)
  let (x, t) := (polyRound polys).run dealer.transcript
  pure { dealer with transcript := t, polys := polys, polyChallenge := x }

namespace WithPolys
variable [Add F] [Sub F] [Neg F] [Mul F] [Inv F] [Zero F] [One F] [NatCast F]
variable [SMul F P] [MultiScalar F P]

/-- The transcript of the shares, and the proof. -/
def shareRound (dealer : WithPolys F P T) (gens : Generators P) (key : CommitmentKey P)
    (shares : List (ProofShare F)) : ExceptT RangeProofError (StateM T) (RangeProof F P) := do
  let tx := (shares.map (·.tx)).sum
  let txBlinding := (shares.map (·.txBlinding)).sum
  let eBlinding := (shares.map (·.eBlinding)).sum
  absorbScalar (T := T) "t_x" tx
  absorbScalar (T := T) "t_x_blinding" txBlinding
  absorbScalar (T := T) "e_blinding" eBlinding
  let w ← challenge (T := T) (F := F) "w"
  let nm := dealer.n * dealer.m
  let inner ← InnerProductProof.create (w • key.value)
    { G := gens.vector .G dealer.n dealer.m
      H := gens.vector .H dealer.n dealer.m
      x := List.replicate nm 1
      y := powers dealer.bitChallenge.y⁻¹ nm
      a := shares.flatMap (·.l)
      b := shares.flatMap (·.r) }
  pure
    { A := (dealer.bits.map (·.A)).sum
      S := (dealer.bits.map (·.S)).sum
      T₁ := (dealer.polys.map (·.T₁)).sum
      T₂ := (dealer.polys.map (·.T₂)).sum
      tx := tx
      txBlinding := txBlinding
      eBlinding := eBlinding
      inner := inner }

/-- The positions of the shares that satisfy a test. -/
def positions (bad : Nat → ProofShare F → Bool) (shares : List (ProofShare F)) : List Nat :=
  (shares.zipIdx.filter fun (share, j) => bad j share).map (·.2)

/-- Assembles the shares into a proof; also gives the transcript behind it. -/
def assemble (dealer : WithPolys F P T) (gens : Generators P) (key : CommitmentKey P)
    (shares : List (ProofShare F)) : Except RangeProofError (RangeProof F P × T) := do
  if dealer.m ≠ shares.length then throw (.wrongNumProofShares dealer.m shares.length)
  let bad := positions (fun j share => !share.fits gens dealer.n j) shares
  unless bad.isEmpty do throw (.malformedProofShares bad)
  match (dealer.shareRound gens key shares).run dealer.transcript with
  | (.ok proof, t) => pure (proof, t)
  | (.error e, _) => throw e

/-- Assembles the shares of trusted parties. -/
def receiveTrustedShares (dealer : WithPolys F P T) (gens : Generators P) (key : CommitmentKey P)
    (shares : List (ProofShare F)) : Except RangeProofError (RangeProof F P) :=
  (dealer.assemble gens key shares).map (·.1)

variable [BEq F] [BEq P]

/-- The positions of the shares that do not pass their audit. -/
def failedAudits (dealer : WithPolys F P T) (gens : Generators P) (key : CommitmentKey P)
    (shares : List (ProofShare F)) : List Nat :=
  let messages := dealer.bits.zip dealer.polys
  positions (fun j share => !(messages[j]?.any fun (bits, polys) =>
    share.audit gens key j bits dealer.bitChallenge polys dealer.polyChallenge)) shares

/-- Assembles the shares and verifies the proof from the first transcript on. -/
def receiveShares (dealer : WithPolys F P T) (gens : Generators P) (key : CommitmentKey P)
    (shares : List (ProofShare F)) :
    ExceptT RangeProofError (StateM RandomSource) (RangeProof F P) := do
  let (proof, _) ← dealer.assemble gens key shares
  let source ← get
  let (result, _, source) :=
    proof.verify gens key dealer.n (dealer.bits.map (·.V)) dealer.initial source
  set source
  match result with
  | .ok () => pure proof
  | .error _ => throw (.malformedProofShares (dealer.failedAudits gens key shares))

end WithPolys
end Dealer
end ConfidentialTx
