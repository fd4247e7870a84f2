import ConfidentialTx.Hex

/-! # Errors

One inductive type per layer, each constructor a cause, and one wording per cause.  A layer that
calls another one wraps its errors. -/

namespace ConfidentialTx

/-- Why a byte string or a text does not decode. -/
inductive DecodeError where
  | malformed
  | hex (cause : HexError)
deriving DecidableEq, Repr

namespace DecodeError

/-- The wording of a decoding error. -/
def message : DecodeError → String
  | malformed => "Decoding error."
  | hex cause => "Invalid hex: " ++ cause.message

end DecodeError

/-- Why a range proof is not made or not accepted. -/
inductive RangeProofError where
  | invalidBitsize (bits : Nat)
  | invalidAggregation (parties : Nat)
  | emptyAggregation
  | invalidGeneratorsLength (required capacity : Nat)
  | wrongNumBlindingFactors (values blindings : Nat)
  | outOfRange (value : UInt64) (bits : Nat)
  | wrongNumBitCommitments (expected actual : Nat)
  | wrongNumPolyCommitments (expected actual : Nat)
  | wrongNumProofShares (expected actual : Nat)
  | malformedProofShares (badShares : List Nat)
  | maliciousDealer
  | invalidInnerProductInput (length : Nat)
  | verificationError
  | formatError
deriving DecidableEq, Repr

namespace RangeProofError

/-- The wording of a range proof error. -/
def message : RangeProofError → String
  | invalidBitsize bits => s!"Invalid bitsize {bits}, must be one of 8, 16, 32 or 64."
  | invalidAggregation parties => s!"Invalid aggregation size {parties}, must be a power of two."
  | emptyAggregation => "Cannot create a rangeproof over zero values."
  | invalidGeneratorsLength required capacity =>
    s!"Insufficient generators: {required} required, capacity is {capacity}."
  | wrongNumBlindingFactors values blindings =>
    s!"Got {values} values but {blindings} blinding factors."
  | outOfRange value bits => s!"Value {value} does not fit in {bits} bits."
  | wrongNumBitCommitments expected actual =>
    s!"Expected {expected} bit commitments, got {actual}."
  | wrongNumPolyCommitments expected actual =>
    s!"Expected {expected} poly commitments, got {actual}."
  | wrongNumProofShares expected actual => s!"Expected {expected} proof shares, got {actual}."
  | malformedProofShares badShares =>
    "Malformed proof shares from parties [" ++ ", ".intercalate (badShares.map toString) ++ "]."
  | maliciousDealer => "The dealer sent a zero challenge."
  | invalidInnerProductInput length => s!"Invalid inner product input of length {length}."
  | verificationError => "This rangeproof is invalid."
  | formatError => "Malformed rangeproof encoding."

end RangeProofError

/-- Why a ring signature is not made or not accepted. -/
inductive SignatureError where
  | emptyRing
  | indexOutOfBounds (index ringSize : Nat)
  | lengthMismatch (expected actual : Nat)
  | invalidKeyImage
  | valueNotConserved
  | invalid
deriving DecidableEq, Repr

namespace SignatureError

/-- The wording of a ring signature error. -/
def message : SignatureError → String
  | emptyRing => "The ring is empty."
  | indexOutOfBounds index ringSize =>
    s!"Index {index} is out of bounds for a ring of size {ringSize}."
  | lengthMismatch expected actual => s!"Expected {expected} elements, got {actual}."
  | invalidKeyImage => "Invalid key image."
  | valueNotConserved => "Value not conserved."
  | invalid => "This signature is invalid."

end SignatureError

/-- Why a transaction is not built or not accepted. -/
inductive TransactionError where
  | noInputs
  | noOutputs
  | tooManyInputs (count : Nat)
  | invalidRingSize (index expected actual : Nat)
  | lengthMismatch (expected actual : Nat)
  | duplicateKeyImage
  | valueNotConserved
  | amountVerificationFailed
  | onetimeKeyMismatch
  | rangeProof (cause : RangeProofError)
  | signature (cause : SignatureError)
deriving DecidableEq, Repr

namespace TransactionError

/-- The wording of a transaction error; a wrapped error keeps its own. -/
def message : TransactionError → String
  | noInputs => "The transaction has no inputs."
  | noOutputs => "The transaction has no outputs."
  | tooManyInputs count => s!"Too many inputs: {count}."
  | invalidRingSize index expected actual =>
    s!"Input {index} has a ring of size {actual}, expected {expected}."
  | lengthMismatch expected actual => s!"Expected {expected} elements, got {actual}."
  | duplicateKeyImage => "Duplicate key image."
  | valueNotConserved => "Value not conserved."
  | amountVerificationFailed => "Amount does not match its commitment."
  | onetimeKeyMismatch => "One-time private key does not match the real output."
  | rangeProof cause => cause.message
  | signature cause => cause.message

end TransactionError
end ConfidentialTx
