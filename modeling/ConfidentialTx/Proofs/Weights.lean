import ConfidentialTx.Proofs.Equation
import ConfidentialTx.Proofs.Residues
import ConfidentialTx.Range.Aggregate

/-! # The weight of the verifier

The verifier checks two equations at once, under a weight that it draws.  Under the weight zero it
checks the inner-product argument alone (`RangeProof.InnerAccepts`); under two different weights it
checks both equations.  So for every input a proof is accepted under all weights or under at most one:
`RangeProof.accepts_all_or_at_most_one`. -/

namespace ConfidentialTx

namespace RangeProof
variable {F P T : Type} [Field F] [AddCommGroup P] [Module F P]
variable [MultiScalar F P] [LawfulMultiScalar F P] [BEq P] [LawfulBEq P]
variable [ScalarEncoding F] [PointEncoding P] [Transcript T]

/-- Whether the inner-product argument of a proof is accepted on its own: for the point of the proof,
with unit factors of `G`, the powers of `y⁻¹` as factors of `H`, and from the transcript behind `w` on. -/
def InnerAccepts (proof : RangeProof F P) (gens : Generators P) (key : CommitmentKey P) (n : ℕ)
    (values : List P) (ch : Challenges F) (t : T) : Prop :=
  let nm := n * values.length
  ((proof.inner.verify nm (List.replicate nm 1) (powers ch.y⁻¹ nm)
    (proof.vectorPoint gens key n values.length ch) (ch.w • key.value)
    (gens.vector .G n values.length) (gens.vector .H n values.length)).run
      ((proof.outerDraws (F := F) n values).run t).2).1 = .ok ()

variable {gens : Generators P} {key : CommitmentKey P} {proof : RangeProof F P} {n : ℕ}
variable {values : List P} {ch : Challenges F} {t t' : T}

theorem innerAccepts_iff (h : (proof.prepare gens n values).run t = (.ok ch, t')) :
    proof.InnerAccepts gens key n values ch t ↔
      proof.inner.combination (List.replicate (n * values.length) 1)
          (powers ch.y⁻¹ (n * values.length)) ch.us (ch.w • key.value)
          (gens.vector .G n values.length) (gens.vector .H n values.length) =
        proof.vectorPoint gens key n values.length ch := by
  obtain ⟨hparams, hshape, hpoints, hdraws⟩ := prepare_eq_ok_iff.mp h
  have hfit := checkParameters_eq_ok_iff.mp hparams
  have hinner : ∀ p ∈ proof.inner.points, p ≠ 0 := fun p hp => hpoints p (List.mem_append_right _ hp)
  exact InnerProductProof.verify_eq_ok_iff (by simp) (by simp)
    (Generators.length_vector hfit.capacity hfit.parties .G)
    (Generators.length_vector hfit.capacity hfit.parties .H) hshape hinner (draws_inner hdraws) _ _

omit [MultiScalar F P] [LawfulMultiScalar F P] [BEq P] [LawfulBEq P] [ScalarEncoding F]
  [PointEncoding P] in
theorem eq_zero_of_two_weights {c c' : F} (hc : c ≠ c') {e d : P} (h : e + c • d = 0)
    (h' : e + c' • d = 0) : e = 0 ∧ d = 0 := by
  have hd : (c - c') • d = 0 := by
    rw [sub_smul, sub_eq_zero]
    exact add_left_cancel (h.trans h'.symm)
  have hd : d = 0 := (smul_eq_zero.mp hd).resolve_left (sub_ne_zero.mpr hc)
  subst hd
  exact ⟨by simpa using h, rfl⟩

/-- The weight does not matter if nothing is left of the equation of `t(x)`. -/
theorem verifyWith_congr
    (h : ∀ ch t', (proof.prepare gens n values).run t = (.ok ch, t') →
      proof.valueDefect key n values ch = 0) (c c' : F) :
    (proof.verifyWith gens key n values c).run t = (proof.verifyWith gens key n values c').run t := by
  rcases hprep : (proof.prepare gens n values).run t with ⟨e | ch, t'⟩
  · rw [verifyWith_of_refused hprep, verifyWith_of_refused hprep]
  · have hholds : ∀ c, proof.equationHolds gens key n values ch c = true ↔
        proof.Accepts gens key n values t c := by
      intro c
      rw [Accepts, verifyWith_of_prepared hprep]
      split <;> simp_all
    have hsame : proof.equationHolds gens key n values ch c = proof.equationHolds gens key n values ch c' := by
      rw [Bool.eq_iff_iff, hholds, hholds, accepts_iff hprep, accepts_iff hprep, h ch t' hprep, smul_zero,
        smul_zero]
    rw [verifyWith_of_prepared hprep, verifyWith_of_prepared hprep, hsame]

/-- **Batched verification.**  The verifier accepts under the weight that it draws.  Under the weight
zero it accepts what the inner-product argument accepts; what it accepts under two weights satisfies
both equations and is accepted under every weight.  So every input is accepted under all weights or
under at most one. -/
theorem accepts_all_or_at_most_one (proof : RangeProof F P) (gens : Generators P)
    (key : CommitmentKey P) (n : ℕ) (values : List P) (t : T) :
    (∀ source, (proof.verify gens key n values t source).1 = .ok () ↔
      proof.Accepts gens key n values t (RandomSource.scalar.run source).1) ∧
    (∀ ch t', (proof.prepare gens n values).run t = (.ok ch, t') →
      (proof.Accepts gens key n values t 0 ↔ proof.InnerAccepts gens key n values ch t) ∧
      ∀ c c', c ≠ c' → proof.Accepts gens key n values t c → proof.Accepts gens key n values t c' →
        proof.InnerAccepts gens key n values ch t ∧ proof.valueDefect key n values ch = 0 ∧
          ∀ c'', proof.Accepts gens key n values t c'') ∧
    ((∀ c, proof.Accepts gens key n values t c) ∨
      ∀ c c', proof.Accepts gens key n values t c → proof.Accepts gens key n values t c' →
        c = c') := by
  have hboth : ∀ ch t', (proof.prepare gens n values).run t = (.ok ch, t') →
      ∀ c c', c ≠ c' → proof.Accepts gens key n values t c → proof.Accepts gens key n values t c' →
        proof.InnerAccepts gens key n values ch t ∧ proof.valueDefect key n values ch = 0 ∧
          ∀ c'', proof.Accepts gens key n values t c'' := by
    intro ch t' h c c' hc hacc hacc'
    obtain ⟨he, hd⟩ := eq_zero_of_two_weights hc ((accepts_iff h c).mp hacc)
      ((accepts_iff h c').mp hacc')
    refine ⟨(innerAccepts_iff h).mpr (sub_eq_zero.mp he).symm, hd, fun c'' => ?_⟩
    rw [accepts_iff h, he, hd, smul_zero, add_zero]
  refine ⟨fun source => ?_, fun ch t' h => ⟨?_, hboth ch t' h⟩, ?_⟩
  · rw [verify_fst]
    rfl
  · rw [accepts_iff h, innerAccepts_iff h, zero_smul, add_zero, sub_eq_zero, eq_comm]
  · rcases hprep : (proof.prepare gens n values).run t with ⟨e | ch, t'⟩
    · -- what is refused before the equation is accepted under no weight
      refine .inr fun c c' hacc => ?_
      rw [Accepts, verifyWith_of_refused hprep] at hacc
      cases hacc
    · by_cases hall : ∀ c, proof.Accepts gens key n values t c
      · exact .inl hall
      · refine .inr fun c c' hacc hacc' => ?_
        by_contra hc
        exact hall (hboth ch t' hprep c c' hc hacc hacc').2.2

/-- A proof for the commitment `635` with an error in `T₁` that an error in `A` makes up for under the
weight one. -/
def forged : RangeProof Residue Residue where
  A := 35825
  S := 53978
  T₁ := 55803
  T₂ := 17725
  tx := 58250
  txBlinding := 32307
  eBlinding := 61867
  inner := ⟨[52100, 24814, 59979], [46533, 63346, 7413], 16143, 64459⟩

/-- The forged proof gets to the equation and passes under the weight one, but its inner-product
argument does not hold: so it passes under no other weight. -/
theorem forged_accepted_under_one_weight :
    (∃ ch t', (forged.prepare (Residue.table 8 1) 8 [635]).run Residue.start = (.ok ch, t') ∧
      ¬forged.InnerAccepts (Residue.table 8 1) Residue.key 8 [635] ch Residue.start) ∧
    ∀ c, forged.Accepts (Residue.table 8 1) Residue.key 8 [635] Residue.start c ↔ c = 1 := by
  have hone : forged.Accepts (Residue.table 8 1) Residue.key 8 [635] Residue.start 1 := by
    change ((forged.verifyWith (Residue.table 8 1) Residue.key 8 [635] 1).run Residue.start).1 = .ok ()
    decide +kernel
  have hzero : ¬forged.Accepts (Residue.table 8 1) Residue.key 8 [635] Residue.start 0 := by
    change ((forged.verifyWith (Residue.table 8 1) Residue.key 8 [635] 0).run Residue.start).1 ≠ .ok ()
    decide +kernel
  obtain ⟨-, hinner, hweights⟩ :=
    accepts_all_or_at_most_one forged (Residue.table 8 1) Residue.key 8 [635] Residue.start
  have honce := hweights.resolve_left fun hall => hzero (hall 0)
  refine ⟨?_, fun c => ⟨fun hc => honce c 1 hc hone, fun hc => hc ▸ hone⟩⟩
  rcases hprep : (forged.prepare (Residue.table 8 1) 8 [635]).run Residue.start with ⟨e | ch, t'⟩
  · rw [Accepts, verifyWith_of_refused hprep] at hone
    cases hone
  · exact ⟨ch, t', rfl, fun h => hzero ((hinner ch t' hprep).1.mpr h)⟩

end RangeProof
end ConfidentialTx
