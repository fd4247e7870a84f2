import ConfidentialTx.Proofs.Signing
import ConfidentialTx.Proofs.Weights

/-! # Agreement of the two paddings

The prover pads the values and their blinding factors, each on its own, and then commits; the verifier pads
the commitments that it is given.  Both end with the same commitments, whether the verifier is given those to
the values alone, or some of the padding, or all of it: from the number of values up to its power of two all
numbers have this power of two, and the entry that is repeated is the same.

* `verifyPadded_congr`: the verifier sees the padded commitments and nothing else.
* `verifyWith_of_provePadded`: its weight does not matter for what a prover ends with, even if a challenge is
  zero, since the equation of `t(x)` holds.
* `paddings_agree`: so there is one answer for all numbers of commitments and all weights. -/

namespace ConfidentialTx

variable {F P : Type} (T : Type) [Transcript T] [Field F] [AddCommGroup P] [Module F P]
variable [MultiScalar F P] [LawfulMultiScalar F P] [ScalarEncoding F] [PointEncoding P]
variable [BEq P] [BEq F] [LawfulBEq F]
variable {gens : Generators P} {key : CommitmentKey P} {values : List UInt64} {blindings : List F}
variable {proof : RangeProof F P} {commitments : List P} {source : RandomSource}

omit [Module F P] [LawfulMultiScalar F P] [BEq F] [LawfulBEq F] in
/-- The verifier sees the padded commitments and nothing else. -/
theorem verifyPadded_congr {commitments' : List P}
    (h : padToPowerOfTwo commitments = padToPowerOfTwo commitments') :
    verifyPadded T gens key proof commitments = verifyPadded T gens key proof commitments' := by
  unfold verifyPadded
  rw [h]

omit [BEq P] in
theorem valueDefect_of_provePadded
    (h : ((provePadded T gens key values blindings).run source).1 = .ok (proof, commitments)) :
    proof.valueDefect key amountBits commitments
      ((proof.draws amountBits commitments).run (Transcript.start amountLabel : T)).1 = 0 := by
  unfold provePadded at h
  rw [fst_run_if_throw_eq_ok, fst_run_if_throw_eq_ok] at h
  obtain ⟨-, -, h⟩ := h
  exact RangeProof.valueDefect_of_prove h

variable [LawfulBEq P]

theorem verifyWith_of_provePadded
    (h : ((provePadded T gens key values blindings).run source).1 = .ok (proof, commitments)) (c c' : F) :
    (proof.verifyWith gens key amountBits commitments c).run (Transcript.start amountLabel : T) =
      (proof.verifyWith gens key amountBits commitments c').run (Transcript.start amountLabel : T) := by
  refine RangeProof.verifyWith_congr (fun ch t' hprepare => ?_) c c'
  obtain ⟨-, -, -, hdraws⟩ := RangeProof.prepare_eq_ok_iff.mp hprepare
  have hdefect := valueDefect_of_provePadded T h
  rwa [hdraws] at hdefect

omit [BEq P] [LawfulBEq P] in
theorem commitments_of_provePadded
    (h : ((provePadded T gens key values blindings).run source).1 = .ok (proof, commitments)) :
    ∃ made : List P, made = List.zipWith (fun v r => key.commit (v.toNat : F) r) values blindings ∧
      made.length = values.length ∧ made ≠ [] ∧ commitments = padToPowerOfTwo made := by
  obtain ⟨hlen, hcommitments, dealer, shares, inner, ch, t, hmade⟩ := madeBy_of_provePadded T h
  have hlength : (List.zipWith (fun v r => key.commit (v.toNat : F) r) values blindings).length =
      values.length := by
    rw [List.length_zipWith, hlen, Nat.min_self]
  refine ⟨_, rfl, hlength, fun hnil => ?_, hcommitments⟩
  -- a dealer has parties
  refine hmade.fit.parties_ne ?_
  rw [length_padToPowerOfTwo_congr hlength.symm, hnil]
  rfl

/-- **Agreement of the paddings.**  If the padded prover ends with a proof for `k` values, rounded up to `m`
below `2²⁶`, then it has committed to the values in order and repeats the last commitment up to `m`.  The
verifier gives one answer for every number of these commitments from `k` to `m`, under every weight and from
every source, and leaves the same source behind; and it accepts if nothing is zero that must not be. -/
theorem paddings_agree
    (h : ((provePadded T gens key values blindings).run source).1 = .ok (proof, commitments))
    (hsize : nextPowerOfTwo values.length < 2 ^ 26) :
    commitments.length = nextPowerOfTwo values.length ∧
    (∀ (i : ℕ) (v : UInt64) (r : F), values[i]? = some v → blindings[i]? = some r →
      commitments[i]? = some (key.commit (v.toNat : F) r)) ∧
    (∀ i, values.length ≤ i → i < nextPowerOfTwo values.length →
      commitments[i]? = commitments[values.length - 1]?) ∧
    ∃ answer : Except RangeProofError Unit,
      (∀ k, values.length ≤ k → k ≤ nextPowerOfTwo values.length →
        (∀ c : F, ((proof.verifyWith gens key amountBits (padToPowerOfTwo (commitments.take k)) c).run
          (Transcript.start amountLabel : T)).1 = answer) ∧
        ∀ source', ((verifyPadded T gens key proof (commitments.take k)).run source').1 = answer ∧
          (verifyPadded T gens key proof (commitments.take k)).run source' =
            (verifyPadded T gens key proof commitments).run source') ∧
      (RegularAmounts T proof commitments → answer = .ok ()) := by
  obtain ⟨made, hmade, hlength, hne, rfl⟩ := commitments_of_provePadded T h
  have hpos : 0 < made.length := List.length_pos_iff.mpr hne
  have hM : (padToPowerOfTwo made).length = nextPowerOfTwo values.length := by
    rw [length_padToPowerOfTwo hne, hlength]
  -- what is padded is padded no further, wherever it is cut
  have hcut : ∀ k, values.length ≤ k → k ≤ nextPowerOfTwo values.length →
      padToPowerOfTwo ((padToPowerOfTwo made).take k) = padToPowerOfTwo made := by
    intro k hk hk'
    rw [← hlength] at hk hk'
    exact padToPowerOfTwo_take hk hk'
  have hagain : padToPowerOfTwo (padToPowerOfTwo made) = padToPowerOfTwo made := by
    have hall := hcut _ (le_nextPowerOfTwo _) (Nat.le_refl _)
    rwa [← hM, List.take_length] at hall
  let answer : Except RangeProofError Unit :=
    ((proof.verifyWith gens key amountBits (padToPowerOfTwo made) 0).run
      (Transcript.start amountLabel : T)).1
  have hweight : ∀ c : F, ((proof.verifyWith gens key amountBits (padToPowerOfTwo made) c).run
      (Transcript.start amountLabel : T)).1 = answer := fun c =>
    congrArg Prod.fst (verifyWith_of_provePadded T h c 0)
  refine ⟨hM, ?_, ?_, answer, ?_, ?_⟩
  · intro i v r hv hr
    have hi : i < made.length := hlength ▸ (List.getElem?_eq_some_iff.mp hv).1
    rw [getElem?_padToPowerOfTwo_of_lt hi, hmade]
    exact List.getElem?_zipWith_eq_some.mpr ⟨v, r, hv, hr, rfl⟩
  · intro i hi hi'
    rw [← hlength] at hi ⊢
    rw [getElem?_padToPowerOfTwo_of_le hi (hM ▸ hi'), getElem?_padToPowerOfTwo_of_lt (by omega)]
  · intro k hk hk'
    have hpadded := hcut k hk hk'
    refine ⟨fun c => ?_, fun source' => ⟨?_, ?_⟩⟩
    · rw [hpadded]
      exact hweight c
    · rw [verifyPadded_fst, hpadded, RangeProof.verify_fst]
      exact hweight _
    · rw [verifyPadded_congr T (hpadded.trans hagain.symm)]
  · rintro ⟨hchallenges, hpoints⟩
    rw [hagain] at hchallenges
    obtain ⟨-, -, dealer, shares, inner, ch, t, hdealer⟩ := madeBy_of_provePadded T h
    have hm : amountBits * (padToPowerOfTwo values).length < 2 ^ 32 := by
      rw [length_padToPowerOfTwo_congr hlength.symm, hM, amountBits]
      omega
    exact hdealer.accepts hm hchallenges hpoints 0

/-- Three amounts. -/
def threeAmounts : List UInt64 := [5, 7, 2 ^ 64 - 1]

/-- Their blinding factors. -/
def threeFactors : List Residue := [1, 2, 3]

/-- They are proved as four, and three of the commitments are judged as all four are. -/
theorem paddings_agree_three_amounts : nextPowerOfTwo threeAmounts.length < 2 ^ 26 ∧
    ∃ (proof : RangeProof Residue Residue) (commitments : List Residue),
      ((provePadded Residue.Transcript (Residue.table 64 4) Residue.key threeAmounts threeFactors).run
        Residue.source).1 = .ok (proof, commitments) ∧
      commitments.length = 4 ∧ commitments[1]? = some (Residue.key.commit (7 : Residue) 2) ∧
      commitments[3]? = commitments[2]? ∧
      ∃ answer, ∀ k, 3 ≤ k → k ≤ 4 → ∀ source', ((verifyPadded Residue.Transcript (Residue.table 64 4)
        Residue.key proof (commitments.take k)).run source').1 = answer := by
  have hnext : nextPowerOfTwo threeAmounts.length = 4 := rfl
  have hsize : nextPowerOfTwo threeAmounts.length < 2 ^ 26 := by
    rw [hnext]
    decide
  have hfit : ParametersFit (Residue.table 64 4) amountBits (padToPowerOfTwo threeAmounts).length :=
    checkParameters_eq_ok_iff.mp (by decide +kernel)
  have hchallenge : RangeProof.proverChallenge (Residue.table 64 4) Residue.key
      (Transcript.start amountLabel : Residue.Transcript) (padToPowerOfTwo threeAmounts)
      (padToPowerOfTwo threeFactors) amountBits Residue.source ≠ 0 := by
    decide +kernel
  have hlen : threeAmounts.length = threeFactors.length := rfl
  have hne : threeAmounts ≠ [] := by decide
  obtain ⟨proof, commitments, h⟩ :=
    (exists_provePadded_iff (T := Residue.Transcript) hlen hne).mpr ⟨hfit, hchallenge⟩
  obtain ⟨hlength, hcommit, hrepeat, answer, hanswer, -⟩ := paddings_agree Residue.Transcript h hsize
  refine ⟨hsize, proof, commitments, h, hlength.trans hnext, hcommit 1 7 2 rfl rfl, ?_, answer, ?_⟩
  · exact hrepeat 3 le_rfl (by rw [hnext]; decide)
  · intro k hk hk' source'
    exact ((hanswer k hk (hk'.trans hnext.ge)).2 source').1

end ConfidentialTx
