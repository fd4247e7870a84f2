import ConfidentialTx.Range.Vector
import ConfidentialTx.Transcript.Basic

/-! # The inner-product argument

The prover knows vectors `a`, `b` behind the point `⟨a ∘ x, G⟩ + ⟨b ∘ y, H⟩ + ⟨a, b⟩ • Q`, where
`x`, `y` are public factors of the generators `G`, `H`.  Every round sends two points, draws a
challenge `u`, and folds all vectors to half their length; the last two scalars end the proof.

* `Argument`: the vectors of a round, with `Argument.cross` for the two points and `Argument.fold`
  for the next round.
* `InnerProductProof.create`, `InnerProductProof.verify`: the prover and the verifier.
* `FoldingScalars.ofChallenges`: how often each generator enters the last one. -/

namespace ConfidentialTx

open Transcript

/-- The vectors of an inner-product argument. -/
structure Argument (F P : Type) where
  (G H : List P)
  /-- The factors of the generators. -/
  (x y : List F)
  (a b : List F)

/-- A proof: one pair of points per round and the last two scalars. -/
structure InnerProductProof (F P : Type) where
  (L R : List P)
  (a b : F)

namespace Argument
variable {F P : Type}

/-- Whether all vectors have the length of the generators `G`. -/
def isBalanced (v : Argument F P) : Bool :=
  let n := v.G.length
  v.H.length == n && v.x.length == n && v.y.length == n && v.a.length == n && v.b.length == n

/-- The first `n` entries of every vector. -/
def lower (n : Nat) (v : Argument F P) : Argument F P :=
  ⟨v.G.take n, v.H.take n, v.x.take n, v.y.take n, v.a.take n, v.b.take n⟩

/-- The entries of every vector after the first `n`. -/
def upper (n : Nat) (v : Argument F P) : Argument F P :=
  ⟨v.G.drop n, v.H.drop n, v.x.drop n, v.y.drop n, v.a.drop n, v.b.drop n⟩

variable [Add F] [Mul F] [Zero F] [One F] [MultiScalar F P]

/-- The point that the argument is about. -/
def point (Q : P) (v : Argument F P) : P :=
  combine
    (List.zipWith (· * ·) v.a v.x ++ List.zipWith (· * ·) v.b v.y ++ [innerProduct v.a v.b])
    (v.G ++ v.H ++ [Q])

/-- The point of `a` of one half on the generators `G` of the other, and `b` of the other half on
the generators `H` of the one. -/
def cross (Q : P) (v w : Argument F P) : P :=
  combine
    (List.zipWith (· * ·) v.a w.x ++ List.zipWith (· * ·) w.b v.y ++ [innerProduct v.a w.b])
    (w.G ++ v.H ++ [Q])

/-- The sum of two vectors with a factor each. -/
def foldScalars (s t : F) (lower upper : List F) : List F :=
  List.zipWith (fun l r => l * s + t * r) lower upper

/-- The sum of two vectors of generators, with a common factor and factors of their own each. -/
def foldPoints (s t : F) (x x' : List F) (lower upper : List P) : List P :=
  List.zipWith (fun (f : F × F) (p : P × P) => combine [s * f.1, t * f.2] [p.1, p.2])
    (x.zip x') (lower.zip upper)

/-- Folds two halves with a challenge and its inverse; the factors are used up. -/
def fold (u v : F) (lower upper : Argument F P) : Argument F P where
  G := foldPoints v u lower.x upper.x lower.G upper.G
  H := foldPoints u v lower.y upper.y lower.H upper.H
  x := lower.x.map fun _ => 1
  y := lower.y.map fun _ => 1
  a := foldScalars u v lower.a upper.a
  b := foldScalars v u lower.b upper.b

end Argument

/-! ### The prover -/

namespace InnerProductProof
variable {F P : Type}

section Create
variable [Add F] [Mul F] [Inv F] [Zero F] [One F] [MultiScalar F P]
variable [ScalarEncoding F] [PointEncoding P] {T : Type} [Transcript T]

/-- The rounds of the argument on vectors of length `2ᵏ`. -/
def rounds (Q : P) : (k : Nat) → Argument F P → StateM T (InnerProductProof F P)
  | 0, v => pure ⟨[], [], v.a.headD 0, v.b.headD 0⟩
  | k + 1, v => do
    let lower := v.lower (1 <<< k)
    let upper := v.upper (1 <<< k)
    let L := lower.cross Q upper
    let R := upper.cross Q lower
    absorbPoint "L" L
    absorbPoint "R" R
    let u : F ← challenge "u"
    let rest ← rounds Q k (lower.fold u u⁻¹ upper)
    pure ⟨L :: rest.L, R :: rest.R, rest.a, rest.b⟩

/-- Proves an argument; vectors of unequal lengths or of a length that is no power of two are
refused before anything is taken in. -/
def create (Q : P) (v : Argument F P) :
    ExceptT RangeProofError (StateM T) (InnerProductProof F P) := do
  let n := v.G.length
  unless v.isBalanced && isPowerOfTwo n do throw (.invalidInnerProductInput n)
  absorbInnerProduct (T := T) n
  rounds (T := T) Q n.log2 v

end Create

end InnerProductProof

/-! ### The verifier -/

/-- The squares of the challenges, the squares of their inverses, and the factor of every generator
in the last one. -/
structure FoldingScalars (F : Type) where
  (squares inverseSquares factors : List F)

namespace FoldingScalars
variable {F : Type} [Mul F] [One F]

/-- The inverse of every challenge, as the inverse of the product times the other challenges, given
the product of those `before`.  One zero makes all of them zero. -/
def inverses (inverse before : F) : List F → List F
  | [] => []
  | u :: us => inverse * (before * us.prod) :: inverses inverse (before * u) us

/-- The folding scalars of a list of challenges.  The first factor is the inverse of their product;
the factors of an upper half are those of the lower half times the square of a challenge, of the
last challenge for the finest halves. -/
def ofChallenges [Inv F] (us : List F) : FoldingScalars F :=
  let inverse := us.prod⁻¹
  let squares := us.map fun u => u * u
  { squares
    inverseSquares := (inverses inverse 1 us).map fun u => u * u
    factors := squares.foldr (fun square s => s ++ s.map (· * square)) [inverse] }

end FoldingScalars

namespace InnerProductProof
variable {F P : Type}

section Verify
variable [PointEncoding P] [Zero P] [BEq P] [ScalarEncoding F]
variable {T : Type} [Transcript T]

/-- Takes in one round and draws its challenge. -/
def replayRound (round : P × P) : ExceptT RangeProofError (StateM T) F := do
  absorbNonzero "L" round.1
  absorbNonzero "R" round.2
  let u ← challenge (T := T) (F := F) "u"
  pure u

/-- The challenges of a proof for vectors of length `n`.  A proof of another shape is refused before
anything is taken in. -/
def replay (proof : InnerProductProof F P) (n : Nat) :
    ExceptT RangeProofError (StateM T) (List F) := do
  let k := proof.L.length
  unless k < 32 && proof.R.length == k do throw .verificationError
  unless n == 1 <<< k do throw .verificationError
  absorbInnerProduct (T := T) n
  (proof.L.zip proof.R).mapM replayRound

variable [Add F] [Neg F] [Mul F] [Inv F] [One F] [MultiScalar F P]

/-- The scalars of the point that a proof is for. -/
def pointScalars (proof : InnerProductProof F P) (x y us : List F) : List F :=
  let s := FoldingScalars.ofChallenges us
  [proof.a * proof.b]
    ++ List.zipWith (fun x s => proof.a * s * x) x s.factors
    ++ List.zipWith (fun y s => proof.b * s * y) y s.factors.reverse
    ++ s.squares.map (-·)
    ++ s.inverseSquares.map (-·)

/-- The points that go with `pointScalars`. -/
def pointBases (proof : InnerProductProof F P) (Q : P) (G H : List P) : List P :=
  [Q] ++ G ++ H ++ proof.L ++ proof.R

/-- Checks a proof for the point `expected` over generators and factors of length `n`. -/
def verify (proof : InnerProductProof F P) (n : Nat) (x y : List F) (expected Q : P)
    (G H : List P) : ExceptT RangeProofError (StateM T) Unit := do
  unless x.length == n && y.length == n && G.length == n && H.length == n do
    throw (.invalidInnerProductInput n)
  let us ← proof.replay n
  unless combine (proof.pointScalars x y us) (proof.pointBases Q G H) == expected do
    throw .verificationError

end Verify

/-! ### The wire form -/

section Wire
variable [ScalarEncoding F] [PointEncoding P]

/-- The number of bytes of a proof with its number of left points. -/
def serializedSize (proof : InnerProductProof F P) : Nat := (proof.L.length * 2 + 2) * 32

/-- The points round by round, then the two scalars. -/
def toBytes (proof : InnerProductProof F P) : Bytes :=
  let rounds := (proof.L.zip proof.R).flatMap fun (l, r) =>
    PointEncoding.encode l ++ PointEncoding.encode r
  rounds ++ ScalarEncoding.encode proof.a ++ ScalarEncoding.encode proof.b

/-- Reads the points of `k` rounds and two scalars from blocks of thirty-two bytes. -/
def ofBlocks : (k : Nat) → List Bytes → Option (InnerProductProof F P)
  | k + 1, l :: r :: rest => do
    let L ← PointEncoding.decode l
    let R ← PointEncoding.decode r
    let proof ← ofBlocks k rest
    pure { proof with L := L :: proof.L, R := R :: proof.R }
  | 0, [a, b] => do
    let a ← ScalarEncoding.decode a
    let b ← ScalarEncoding.decode b
    pure ⟨[], [], a, b⟩
  | _, _ => none

/-- Reads what `toBytes` writes, with fewer than thirty-two rounds. -/
def ofBytes (bs : Bytes) : Except RangeProofError (InnerProductProof F P) :=
  let count := bs.length / 32
  let rounds := (count - 2) / 2
  if bs.length % 32 ≠ 0 ∨ count < 2 ∨ (count - 2) % 2 ≠ 0 ∨ 32 ≤ rounds then .error .formatError
  else (ofBlocks rounds (Bytes.blocks 32 count bs)).elim (.error .formatError) .ok

end Wire
end InnerProductProof
end ConfidentialTx
