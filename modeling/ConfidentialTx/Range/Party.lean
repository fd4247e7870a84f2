import ConfidentialTx.Error
import ConfidentialTx.Range.Message

/-! # Parties of a range proof

A party holds one value.  It is given a position, answers the bit challenge with its polynomials,
and answers the polynomial challenge with its share.  Every step gives the next state and a message;
the blinding factors of a step are arguments of it.

* `Party.create`, `Party.commitBits`, `Party.Committed.commitPolys`, `Party.Answering.share`: the
  steps.
* `BitBlindings.draw`, `PolyBlindings.draw`: the blinding factors from a random source. -/

namespace ConfidentialTx

/-- A party without a position. -/
structure Party (F P : Type) where
  value : UInt64
  blinding : F
  /-- The number of bits. -/
  n : Nat
  /-- The commitment to the value. -/
  V : P

/-- The blinding factors of a bit commitment. -/
structure BitBlindings (F : Type) where
  (a s : F)
  (sL sR : List F)

/-- The blinding factors of a polynomial commitment. -/
structure PolyBlindings (F : Type) where
  (t₁ t₂ : F)

/-- A party that committed to its bits at a position. -/
structure Party.Committed (F : Type) where
  value : UInt64
  blinding : F
  n : Nat
  position : Nat
  bitBlindings : BitBlindings F

/-- A party that committed to its polynomials. -/
structure Party.Answering (F : Type) where
  blinding : F
  /-- The factor of the value in the constant coefficient. -/
  offset : F
  bitBlindings : BitBlindings F
  polyBlindings : PolyBlindings F
  (l r : LinearVector F)
  t : Quadratic F

/-- The lower `n` bits of a value, the lowest first. -/
def valueBits {F : Type} [NatCast F] (value : UInt64) (n : Nat) : List F :=
  (List.range n).map fun i => ((value.toNat.testBit i).toNat : F)

section Draw
variable {F : Type} [ScalarEncoding F]

/-- Draws the blinding factors of the bits: two factors, then the two vectors. -/
def BitBlindings.draw (n : Nat) : StateM RandomSource (BitBlindings F) := do
  let a ← RandomSource.scalar
  let s ← RandomSource.scalar
  let sL ← RandomSource.scalars n
  let sR ← RandomSource.scalars n
  pure ⟨a, s, sL, sR⟩

/-- Draws the blinding factors of the polynomials. -/
def PolyBlindings.draw : StateM RandomSource (PolyBlindings F) := do
  let t₁ ← RandomSource.scalar
  let t₂ ← RandomSource.scalar
  pure ⟨t₁, t₂⟩

end Draw

namespace Party
variable {F P : Type}
variable [Add F] [Sub F] [Mul F] [Zero F] [One F] [NatCast F] [MultiScalar F P]

/-- A party proving that `value` lies in `[0, 2ⁿ)`. -/
def create (gens : Generators P) (key : CommitmentKey P) (value : UInt64) (blinding : F) (n : Nat) :
    Except RangeProofError (Party F P) := do
  unless n == 8 || n == 16 || n == 32 || n == 64 do throw (.invalidBitsize n)
  if gens.capacity < n then throw (.invalidGeneratorsLength n gens.capacity)
  if 1 <<< n ≤ value.toNat then throw (.outOfRange value n)
  pure ⟨value, blinding, n, key.commit (value.toNat : F) blinding⟩

/-- Refuses a position that the table has no share for.  The number of shares that the position
asks for is counted in 64 bits. -/
def checkPosition (gens : Generators P) (j : Nat) : Except RangeProofError Unit :=
  if gens.parties ≤ j then
    .error (.invalidGeneratorsLength ((j + 1) % UInt64.size) gens.parties)
  else .ok ()

/-- Takes position `j` and commits to the bits of the value. -/
def commitBits (party : Party F P) (gens : Generators P) (key : CommitmentKey P) (j : Nat)
    (blindings : BitBlindings F) : Committed F × BitCommitment P :=
  let bits : List F := valueBits party.value party.n
  let points := [key.blinding] ++ (gens.row .G j party.n).getD [] ++ (gens.row .H j party.n).getD []
  let A := combine ([blindings.a] ++ bits ++ bits.map (· - 1)) points
  let S := combine ([blindings.s] ++ blindings.sL ++ blindings.sR) points
  (⟨party.value, party.blinding, party.n, j, blindings⟩, ⟨party.V, A, S⟩)

namespace Committed

/-- The left vector of a party. -/
def left (party : Committed F) (ch : BitChallenge F) : LinearVector F :=
  ⟨(valueBits party.value party.n).map (· - ch.z), party.bitBlindings.sL⟩

/-- The right vector of a party: the powers of `y` continue those of the positions before it. -/
def right (party : Committed F) (ch : BitChallenge F) : LinearVector F :=
  let n := party.n
  let ys := powersFrom (pow ch.y (party.position * n)) ch.y n
  let offset := ch.z * ch.z * pow ch.z party.position
  let bits := List.zipWith (fun y b => y * (b - 1 + ch.z)) ys (valueBits party.value n)
  ⟨List.zipWith (· + ·) bits ((powers ((2 : Nat) : F) n).map (offset * ·)),
    List.zipWith (· * ·) ys party.bitBlindings.sR⟩

/-- Answers the bit challenge and commits to the upper coefficients of the inner product. -/
def commitPolys (party : Committed F) (key : CommitmentKey P) (ch : BitChallenge F)
    (blindings : PolyBlindings F) : Answering F × PolyCommitment P :=
  let l := party.left ch
  let r := party.right ch
  let t := l.innerProduct r
  (⟨party.blinding, ch.z * ch.z * pow ch.z party.position, party.bitBlindings, blindings, l, r, t⟩,
    ⟨key.commit t.c₁ blindings.t₁, key.commit t.c₂ blindings.t₂⟩)

end Committed

/-- Answers the polynomial challenge with a share.  A zero challenge is refused: it would open the
constant coefficients without their blinders. -/
def Answering.share [BEq F] (party : Answering F) (x : F) : Except RangeProofError (ProofShare F) :=
  if x == 0 then .error .maliciousDealer
  else
    let blinding : Quadratic F :=
      ⟨party.offset * party.blinding, party.polyBlindings.t₁, party.polyBlindings.t₂⟩
    .ok
      { tx := party.t.eval x
        txBlinding := blinding.eval x
        eBlinding := party.bitBlindings.a + party.bitBlindings.s * x
        l := party.l.eval x
        r := party.r.eval x }

end Party
end ConfidentialTx
