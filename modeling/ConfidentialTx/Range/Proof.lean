import ConfidentialTx.Pedersen
import ConfidentialTx.Range.Generators
import ConfidentialTx.Range.InnerProduct

/-! # Aggregated range proofs and their verification

A proof shows that each of `m` committed values lies in `[0, 2ⁿ)`.  The verifier replays the
transcript, which gives the challenges, and then checks one equation of points: the equation of the
vector polynomials and, under a weight `c`, the equation of their inner product `t(x)`.

* `checkParameters`: the bit sizes, numbers of parties and table sizes that a proof can have.
* `RangeProof.replay`: the challenges of a proof.
* `RangeProof.equationScalars`, `RangeProof.equationPoints`: the equation, term by term.
* `RangeProof.verify`: the verifier, with the weight drawn where the equation is reached. -/

namespace ConfidentialTx

open Transcript

/-- A range proof: commitments to the bits and their blinders, commitments to the two upper
coefficients of `t`, the value of `t` with its blinding factors, and an inner-product argument. -/
structure RangeProof (F P : Type) where
  (A S T₁ T₂ : P)
  (tx txBlinding eBlinding : F)
  inner : InnerProductProof F P

/-- Refuses a bit size, a number of parties or a table that no proof can have. -/
def checkParameters {P : Type} (gens : Generators P) (n m : Nat) : Except RangeProofError Unit := do
  unless n == 8 || n == 16 || n == 32 || n == 64 do throw (.invalidBitsize n)
  if m = 0 then throw .emptyAggregation
  unless isPowerOfTwo m do throw (.invalidAggregation m)
  if gens.capacity < n then throw (.invalidGeneratorsLength n gens.capacity)
  if gens.parties < m then throw (.invalidGeneratorsLength m gens.parties)

/-- The challenges of a verification. -/
structure Challenges (F : Type) where
  (y z x w : F)
  us : List F

/-- The part of `t(0)` that the challenges fix:
`(z - z²) ⟨1, yⁿᵐ⟩ - z³ ⟨1, 2ⁿ⟩ ⟨1, zᵐ⟩`. -/
def delta {F : Type} [Add F] [Sub F] [Mul F] [Zero F] [One F] [NatCast F] (n m : Nat) (y z : F) :
    F :=
  (z - z * z) * powerSum y (n * m) - z * z * z * powerSum ((2 : Nat) : F) n * powerSum z m

namespace RangeProof
variable {F P : Type}

section Verify
variable [PointEncoding P] [Zero P] [BEq P] [ScalarEncoding F]
variable {T : Type} [Transcript T]

/-- The challenges of a proof for the given value commitments of `n` bits. -/
def replay (proof : RangeProof F P) (n : Nat) (values : List P) :
    ExceptT RangeProofError (StateM T) (Challenges F) := do
  let m := values.length
  absorbRange (T := T) n m
  values.forM fun V => absorbPoint (T := T) "V" V
  absorbNonzero "A" proof.A
  absorbNonzero "S" proof.S
  let y ← challenge (T := T) (F := F) "y"
  let z ← challenge (T := T) (F := F) "z"
  absorbNonzero "T_1" proof.T₁
  absorbNonzero "T_2" proof.T₂
  let x ← challenge (T := T) (F := F) "x"
  absorbScalar (T := T) "t_x" proof.tx
  absorbScalar (T := T) "t_x_blinding" proof.txBlinding
  absorbScalar (T := T) "e_blinding" proof.eBlinding
  let w ← challenge (T := T) (F := F) "w"
  let us ← proof.inner.replay (n * m)
  pure ⟨y, z, x, w, us⟩

variable [Add F] [Sub F] [Neg F] [Mul F] [Inv F] [Zero F] [One F] [NatCast F]

/-- The scalars of the generators `G`. -/
def leftScalars (proof : RangeProof F P) (ch : Challenges F) (s : List F) : List F :=
  s.map fun si => -ch.z - proof.inner.a * si

/-- The scalars of the generators `H` of `m` parties. -/
def rightScalars (proof : RangeProof F P) (n m : Nat) (ch : Challenges F) (s : List F) : List F :=
  let zz := ch.z * ch.z
  let bits := (powers ch.z m).flatMap fun zj => (powers ((2 : Nat) : F) n).map (· * zj)
  List.zipWith (fun (si, yi) zb => ch.z + yi * (zz * zb - proof.inner.b * si))
    (s.reverse.zip (powers ch.y⁻¹ (n * m))) bits

/-- The scalar of the point of values. -/
def valueScalar (proof : RangeProof F P) (n m : Nat) (ch : Challenges F) (c : F) : F :=
  ch.w * (proof.tx - proof.inner.a * proof.inner.b) + c * (delta n m ch.y ch.z - proof.tx)

/-- The scalars of the equation under the weight `c`. -/
def equationScalars (proof : RangeProof F P) (n m : Nat) (ch : Challenges F) (c : F) : List F :=
  let folding := FoldingScalars.ofChallenges ch.us
  [1, ch.x, c * ch.x, c * ch.x * ch.x]
    ++ folding.squares
    ++ folding.inverseSquares
    ++ [-proof.eBlinding - c * proof.txBlinding]
    ++ [proof.valueScalar n m ch c]
    ++ proof.leftScalars ch folding.factors
    ++ proof.rightScalars n m ch folding.factors
    ++ (powers ch.z m).map fun zj => c * (ch.z * ch.z) * zj

/-- The points of the equation. -/
def equationPoints (proof : RangeProof F P) (gens : Generators P) (key : CommitmentKey P) (n : Nat)
    (values : List P) : List P :=
  [proof.A, proof.S, proof.T₁, proof.T₂]
    ++ proof.inner.L
    ++ proof.inner.R
    ++ [key.blinding]
    ++ [key.value]
    ++ gens.vector .G n values.length
    ++ gens.vector .H n values.length
    ++ values

variable [MultiScalar F P]

/-- Whether the equation holds. -/
def equationHolds (proof : RangeProof F P) (gens : Generators P) (key : CommitmentKey P) (n : Nat)
    (values : List P) (ch : Challenges F) (c : F) : Bool :=
  combine (proof.equationScalars n values.length ch c) (proof.equationPoints gens key n values) == 0

/-- The challenges of a proof, if its parameters are possible and no point that is sent is zero. -/
def prepare (proof : RangeProof F P) (gens : Generators P) (n : Nat) (values : List P) :
    ExceptT RangeProofError (StateM T) (Challenges F) := do
  checkParameters gens n values.length
  proof.replay n values

/-- Verifies a proof under the weight `c`. -/
def verifyWith (proof : RangeProof F P) (gens : Generators P) (key : CommitmentKey P) (n : Nat)
    (values : List P) (c : F) : ExceptT RangeProofError (StateM T) Unit := do
  let ch ← proof.prepare gens n values
  unless proof.equationHolds gens key n values ch c do throw .verificationError

/-- Verifies a proof; the weight is drawn when the challenges are there, and not before. -/
def verify (proof : RangeProof F P) (gens : Generators P) (key : CommitmentKey P) (n : Nat)
    (values : List P) (t : T) (source : RandomSource) :
    Except RangeProofError Unit × T × RandomSource :=
  match (proof.prepare gens n values).run t with
  | (.error e, t) => (.error e, t, source)
  | (.ok ch, t) =>
    let (c, source) := RandomSource.scalar.run source
    (if proof.equationHolds gens key n values ch c then .ok () else .error .verificationError,
      t, source)

end Verify

/-! ### The wire form -/

section Wire
variable [ScalarEncoding F] [PointEncoding P]

/-- The number of bytes of a proof. -/
def serializedSize (proof : RangeProof F P) : Nat := 7 * 32 + proof.inner.serializedSize

/-- The points, the scalars and the inner-product argument. -/
def toBytes (proof : RangeProof F P) : Bytes :=
  PointEncoding.encode proof.A ++ PointEncoding.encode proof.S
    ++ PointEncoding.encode proof.T₁ ++ PointEncoding.encode proof.T₂
    ++ ScalarEncoding.encode proof.tx ++ ScalarEncoding.encode proof.txBlinding
    ++ ScalarEncoding.encode proof.eBlinding ++ proof.inner.toBytes

/-- The block of thirty-two bytes with the given number. -/
def block (bs : Bytes) (i : Nat) : Bytes := Bytes.slice bs (32 * i) 32

/-- Reads the points and scalars before the inner-product argument. -/
def ofHeader (bs : Bytes) (inner : InnerProductProof F P) : Option (RangeProof F P) := do
  let A ← PointEncoding.decode (block bs 0)
  let S ← PointEncoding.decode (block bs 1)
  let T₁ ← PointEncoding.decode (block bs 2)
  let T₂ ← PointEncoding.decode (block bs 3)
  let tx ← ScalarEncoding.decode (block bs 4)
  let txBlinding ← ScalarEncoding.decode (block bs 5)
  let eBlinding ← ScalarEncoding.decode (block bs 6)
  pure ⟨A, S, T₁, T₂, tx, txBlinding, eBlinding, inner⟩

/-- Reads what `toBytes` writes. -/
def ofBytes (bs : Bytes) : Except RangeProofError (RangeProof F P) := do
  if bs.length % 32 ≠ 0 ∨ bs.length < 7 * 32 then throw .formatError
  let inner ← InnerProductProof.ofBytes (bs.drop (7 * 32))
  (ofHeader bs inner).elim (.error .formatError) .ok

end Wire
end RangeProof
end ConfidentialTx
