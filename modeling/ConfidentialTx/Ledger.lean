import ConfidentialTx.Curve.Group
import ConfidentialTx.Pedersen
import ConfidentialTx.Range.Generators
import ConfidentialTx.Transcript.Strobe

/-! # Fixed parameters

The generators and commitment keys over the Ristretto group that are not chosen by a caller. -/

namespace ConfidentialTx

/-- The commitment key for proofs that name no key: the base point, and the digest of its encoding
as a point. -/
def CommitmentKey.standard : CommitmentKey Point := ⟨.base, .ofDigest Point.base.encode⟩

/-- A table read from the SHAKE streams. -/
def Generators.ofShake (capacity parties : Nat) : Generators Point := .build shake capacity parties

namespace Ledger

/-- The generators of every transaction: 64 per family for 64 parties. -/
def generators : Generators Point := .ofShake 64 64

end Ledger
end ConfidentialTx
