import ConfidentialTx.Address
import ConfidentialTx.Ledger
import ConfidentialTx.Range.Aggregate
import ConfidentialTx.Range.Cursor
import ConfidentialTx.Range.Session
import ConfidentialTx.Tx.Builder
import ConfidentialTx.Proofs.Weights
import ConfidentialTx.Proofs.Completeness
import ConfidentialTx.Proofs.RingAgreement
import ConfidentialTx.Proofs.TxCompleteness
import ConfidentialTx.Proofs.Extraction
import ConfidentialTx.Proofs.Conservation
import ConfidentialTx.Proofs.Lockstep
import ConfidentialTx.Proofs.Honesty
import ConfidentialTx.Proofs.Hiding
import ConfidentialTx.Proofs.Building
import ConfidentialTx.Proofs.Digest
import ConfidentialTx.Proofs.Canonical
import ConfidentialTx.Proofs.Ownership
import ConfidentialTx.Proofs.WireForms
import ConfidentialTx.Proofs.Shape
import ConfidentialTx.Proofs.Signing
import ConfidentialTx.Proofs.Growth
import ConfidentialTx.Proofs.Handout
import ConfidentialTx.Proofs.Rewinding
import ConfidentialTx.Proofs.CredentialRing
import ConfidentialTx.Proofs.RingSize
import ConfidentialTx.Proofs.CallOrder
import ConfidentialTx.Proofs.PaddingAgreement
import ConfidentialTx.Proofs.SignatureTraps
import ConfidentialTx.Proofs.LastGenerators
import ConfidentialTx.Proofs.Coefficients
