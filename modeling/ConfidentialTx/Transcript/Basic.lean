import ConfidentialTx.Error
import ConfidentialTx.Group

/-! # Fiat–Shamir transcripts

A transcript takes in labelled byte strings and gives out labelled challenges.  A computation on a
transcript of type `T` is a `StateM T`; one that may refuse is an `ExceptT` over it, so the
transcript is there after a refusal too.

* `Transcript`: what a transcript can do.
* `History`: the transcript that only records, with the drawn bytes given by any function of the
  record.  Two runs that record the same operations draw the same challenges. -/

namespace ConfidentialTx

/-- Types of transcripts. -/
class Transcript (T : Type) where
  /-- A fresh transcript of the protocol with the given label. -/
  start : (label : String) → T
  append : (label : String) → (data : Bytes) → T → T
  draw : (label : String) → (count : Nat) → T → Bytes × T

namespace Transcript
variable {T : Type} [Transcript T]

/-- Takes in a labelled byte string. -/
def absorb (label : String) (data : Bytes) : StateM T Unit := modify (append label data)

/-- Takes in a number as eight little-endian bytes. -/
def absorbNumber (label : String) (n : Nat) : StateM T Unit := absorb label (Bytes.ofNat 8 n)

/-- Takes in the encoding of a scalar. -/
def absorbScalar {F : Type} [ScalarEncoding F] (label : String) (s : F) : StateM T Unit :=
  absorb label (ScalarEncoding.encode s)

/-- Takes in the encoding of a point. -/
def absorbPoint {P : Type} [PointEncoding P] (label : String) (p : P) : StateM T Unit :=
  absorb label (PointEncoding.encode p)

/-- Takes in the encoding of a point that is not zero; zero is refused and not taken in. -/
def absorbNonzero {P : Type} [PointEncoding P] [Zero P] [BEq P] (label : String) (p : P) :
    ExceptT RangeProofError (StateM T) Unit := do
  if p == 0 then throw .verificationError
  absorbPoint (T := T) label p

/-- Gives out `count` bytes. -/
def drawBytes (label : String) (count : Nat) : StateM T Bytes := fun t => draw label count t

/-- Gives out a scalar: sixty-four bytes, reduced. -/
def challenge {F : Type} [ScalarEncoding F] (label : String) : StateM T F := do
  let wide ← drawBytes label 64
  pure (ScalarEncoding.ofBytes wide)

/-- Opens a range proof of `m` values of `n` bits. -/
def absorbRange (n m : Nat) : StateM T Unit := do
  absorb "dom-sep" (Bytes.ofString "rangeproof v1")
  absorbNumber "n" n
  absorbNumber "m" m

/-- Opens an inner-product argument on vectors of length `n`. -/
def absorbInnerProduct (n : Nat) : StateM T Unit := do
  absorb "dom-sep" (Bytes.ofString "ipp v1")
  absorbNumber "n" n

end Transcript

/-- One entry of a record. -/
inductive Operation where
  | start (label : String)
  | append (label : String) (data : Bytes)
  | draw (label : String) (count : Nat)
deriving DecidableEq, Repr

/-- A record of operations, the newest first; `answer` gives the bytes of its draws. -/
structure History (answer : List Operation → Bytes) where
  operations : List Operation

instance (answer : List Operation → Bytes) : Transcript (History answer) where
  start label := ⟨[.start label]⟩
  append label data h := ⟨.append label data :: h.operations⟩
  draw label count h :=
    (answer (.draw label count :: h.operations), ⟨.draw label count :: h.operations⟩)

end ConfidentialTx
