import ConfidentialTx.Proofs.InnerProduct
import ConfidentialTx.Proofs.VerifierTraps

/-! # The last generators of an inner-product argument

The prover folds the generators round by round, until one of each family is left.  The verifier folds none:
it computes how often every generator enters the last one, each of these factors from one before it.

* `FoldingScalars.getElem_factors`: the factor of a generator is a product over the challenges; the bits of
  the position of the generator choose between a challenge and its inverse.
* `FoldingScalars.reverse_factors`: the factors from the last one on are the inverses of the factors.
* `Argument.generators_foldAll`: the last generators are the sums of all generators with the
  factors and with their inverses.
* `InnerProductProof.createLeaving`: the prover, with the vectors that its rounds leave.
* `InnerProductProof.factors_fold_generators`: so the verifier's scalars belong to the generators on which
  the prover ends. -/

namespace ConfidentialTx

open Transcript

/-! ### The factors, bit by bit -/

namespace FoldingScalars
variable {F : Type} [Field F]

/-- The product over the challenges in which the bits of a position choose between a challenge and its
inverse.  The first challenge goes with the highest bit. -/
def bitProduct (us : List F) (i : ℕ) : F :=
  ∏ j : Fin us.length, if i.testBit (us.length - 1 - j) then us.get j else (us.get j)⁻¹

theorem bitProduct_cons (u : F) (us : List F) (i : ℕ) :
    bitProduct (u :: us) i = (if i.testBit us.length then u else u⁻¹) * bitProduct us i := by
  refine (Fin.prod_univ_succ _).trans (congrArg _ (Finset.prod_congr rfl fun j _ => ?_))
  have hbit : (u :: us).length - 1 - (j.succ : ℕ) = us.length - 1 - j := by
    rw [List.length_cons, Fin.val_succ]
    omega
  rw [hbit]
  rfl

theorem bitProduct_add (us : List F) (i : ℕ) : bitProduct us (2 ^ us.length + i) = bitProduct us i := by
  refine Finset.prod_congr rfl fun j _ => ?_
  have hj : us.length - 1 - (j : ℕ) < us.length := by omega
  rw [Nat.testBit_two_pow_add_gt hj]

theorem bitProduct_ne_zero {us : List F} (hus : ∀ u ∈ us, u ≠ 0) (i : ℕ) : bitProduct us i ≠ 0 := by
  refine Finset.prod_ne_zero_iff.mpr fun j _ => ?_
  have hu : us.get j ≠ 0 := hus _ (List.get_mem us j)
  split
  · exact hu
  · exact inv_ne_zero hu

/-- What the scalars of vectors of length `2ᵏ` have to be, for them to unfold `k` challenges. -/
structure Unfold (s : FoldingScalars F) (us : List F) : Prop where
  squares : s.squares = us.map fun u => u ^ 2
  inverseSquares : s.inverseSquares = us.map fun u => (u⁻¹) ^ 2
  length_factors : s.factors.length = 2 ^ us.length
  factor : ∀ i (hi : i < s.factors.length), s.factors[i] = bitProduct us i
  opposite : ∀ i (hi : i < s.factors.length), s.factors[i] * s.factors[s.factors.length - 1 - i] = 1
  reverse_factors : s.factors.reverse = s.factors.map (·⁻¹)

section Nonzero
variable {us : List F} (hus : ∀ u ∈ us, u ≠ 0)
include hus

theorem reverse_factors : (ofChallenges us).factors.reverse = (ofChallenges us).factors.map (·⁻¹) := by
  induction us with
  | nil => simp
  | cons u us ih =>
    obtain ⟨hu, hrest⟩ := List.forall_mem_cons.mp hus
    rw [reverse_factors_cons hu, factors_cons hu, ih hrest, List.map_append]
    simp only [List.map_map, Function.comp_def, mul_inv, inv_inv]

theorem getElem_factors {i : ℕ} (hi : i < (ofChallenges us).factors.length) :
    (ofChallenges us).factors[i] = bitProduct us i := by
  induction us generalizing i with
  | nil =>
    obtain rfl : i = 0 := by simpa using hi
    simp [bitProduct]
  | cons u us ih =>
    obtain ⟨hu, hrest⟩ := List.forall_mem_cons.mp hus
    rw [length_factors, List.length_cons, pow_succ] at hi
    rw [List.getElem_of_eq (factors_cons hu us), bitProduct_cons]
    rcases Nat.lt_or_ge i (2 ^ us.length) with hlow | hhigh
    · -- the lower half, where the highest bit is not set
      rw [List.getElem_append_left (by simpa using hlow), List.getElem_map, ih hrest,
        Nat.testBit_lt_two_pow hlow, if_neg Bool.false_ne_true]
    · -- the upper half, at the place of the other bits
      obtain ⟨i, rfl⟩ := Nat.exists_eq_add_of_le hhigh
      have hlow : i < 2 ^ us.length := by omega
      have hbit : (2 ^ us.length + i).testBit us.length = true := by
        rw [Nat.testBit_two_pow_add_eq, Nat.testBit_lt_two_pow hlow, Bool.not_false]
      rw [List.getElem_append_right (by simp), List.getElem_map, ih hrest, hbit, if_pos rfl, bitProduct_add]
      simp

theorem unfold_ofChallenges : (ofChallenges us).Unfold us where
  squares := by simp [ofChallenges, sq]
  inverseSquares := by simp [inverseSquares_eq hus, sq]
  length_factors := length_factors us
  factor _ hi := getElem_factors hus hi
  opposite i hi := by
    have hi' : i < (ofChallenges us).factors.reverse.length := by rwa [List.length_reverse]
    have hinverse : (ofChallenges us).factors[(ofChallenges us).factors.length - 1 - i] =
        (ofChallenges us).factors[i]⁻¹ := by
      rw [← List.getElem_reverse hi', List.getElem_of_eq (reverse_factors hus), List.getElem_map]
    rw [hinverse, getElem_factors hus,
      mul_inv_cancel₀ (bitProduct_ne_zero hus i)]
  reverse_factors := reverse_factors hus

end Nonzero

end FoldingScalars

/-! ### The vectors that the rounds leave -/

namespace Argument
variable {F P : Type} [Field F] [MultiScalar F P]

/-- Vectors of length `2ᵏ`, folded with `k` challenges. -/
def foldAll : List F → Argument F P → Argument F P
  | [], v => v
  | u :: us, v => foldAll us ((v.lower (2 ^ us.length)).fold u u⁻¹ (v.upper (2 ^ us.length)))

/-- The factors of the generators are one. -/
structure HasUnitFactors (v : Argument F P) : Prop where
  x : v.x = List.replicate v.x.length 1
  y : v.y = List.replicate v.y.length 1

theorem hasUnitFactors_fold (u v : F) (lo hi : Argument F P) : (fold u v lo hi).HasUnitFactors := by
  constructor <;> simp [fold]

theorem scale_replicate {n : ℕ} {f : List F} (hf : f.length = n) :
    InnerProductProof.scale 1 (List.replicate n 1) f = f := by
  apply List.ext_getElem
  · simp [InnerProductProof.scale, hf]
  · intro i h₁ h₂
    simp [InnerProductProof.scale]

variable [AddCommGroup P] [Module F P] [LawfulMultiScalar F P]

/-- Generators without factors, whose scalars unfold to two halves, are the folded generators. -/
theorem dot_unfold {n : ℕ} {x f : List F} {G : List P} (hx : x = List.replicate (n + n) 1)
    (hG : G.length = n + n) (hf : f.length = n) (c d : F) :
    dot (f.map (c * ·) ++ f.map (d * ·)) G =
      dot f (foldPoints c d (x.take n) (x.drop n) (G.take n) (G.drop n)) := by
  subst hx
  have hlen : (List.replicate (n + n) (1 : F)).length = n + n := List.length_replicate
  have hones : ((List.replicate (n + n) 1).take n).map (fun _ : F => (1 : F)) = List.replicate n 1 := by
    simp
  have hscale := InnerProductProof.dot_scale_fold hlen hG hf 1 c d
  rwa [hones, scale_replicate hf, scale_replicate (by simp [hf])] at hscale

/-- The last generators are the sums of all generators with the factors, the first factor first for one
family and the last factor first for the other. -/
theorem generators_foldAll {us : List F} (hus : ∀ u ∈ us, u ≠ 0) {v : Argument F P}
    (h : v.HasLength (2 ^ us.length)) (hunit : v.HasUnitFactors) :
    (v.foldAll us).G = [dot (FoldingScalars.ofChallenges us).factors v.G] ∧
      (v.foldAll us).H = [dot (FoldingScalars.ofChallenges us).factors.reverse v.H] := by
  induction us generalizing v with
  | nil =>
    obtain ⟨p, hp⟩ := List.length_eq_one_iff.mp h.G
    obtain ⟨q, hq⟩ := List.length_eq_one_iff.mp h.H
    simp [foldAll, hp, hq]
  | cons u us ih =>
    obtain ⟨hu, hrest⟩ := List.forall_mem_cons.mp hus
    have hv : v.HasLength (2 ^ us.length + 2 ^ us.length) := by
      rwa [List.length_cons, pow_succ, mul_two] at h
    have hx : v.x = List.replicate (2 ^ us.length + 2 ^ us.length) 1 := hv.x ▸ hunit.x
    have hy : v.y = List.replicate (2 ^ us.length + 2 ^ us.length) 1 := hv.y ▸ hunit.y
    have hreverse : (FoldingScalars.ofChallenges us).factors.reverse.length = 2 ^ us.length := by simp
    -- the first round, and the others on what it leaves
    have hfold := (hv.lower (Nat.le_add_left _ _)).fold hv.upper u u⁻¹
    obtain ⟨hG, hH⟩ := ih hrest hfold (hasUnitFactors_fold _ _ _ _)
    rw [foldAll, hG, hH, FoldingScalars.reverse_factors_cons hu, FoldingScalars.factors_cons hu,
      dot_unfold hx hv.G (FoldingScalars.length_factors us), dot_unfold hy hv.H hreverse]
    exact ⟨rfl, rfl⟩

end Argument

/-! ### The prover's run -/

namespace InnerProductProof
variable {F P T : Type} [Field F] [MultiScalar F P] [ScalarEncoding F] [PointEncoding P] [Transcript T]

/-- The prover's rounds, with the vectors that they leave. -/
def roundsLeaving (Q : P) : (k : ℕ) → Argument F P → StateM T (InnerProductProof F P × Argument F P)
  | 0, v => pure (⟨[], [], v.a.headD 0, v.b.headD 0⟩, v)
  | k + 1, v => do
    let lower := v.lower (1 <<< k)
    let upper := v.upper (1 <<< k)
    let L := lower.cross Q upper
    let R := upper.cross Q lower
    absorbPoint "L" L
    absorbPoint "R" R
    let u : F ← challenge "u"
    let (rest, left) ← roundsLeaving Q k (lower.fold u u⁻¹ upper)
    pure (⟨L :: rest.L, R :: rest.R, rest.a, rest.b⟩, left)

/-- The prover, with the vectors that its rounds leave. -/
def createLeaving (Q : P) (v : Argument F P) :
    ExceptT RangeProofError (StateM T) (InnerProductProof F P × Argument F P) := do
  let n := v.G.length
  unless v.isBalanced && isPowerOfTwo n do throw (.invalidInnerProductInput n)
  absorbInnerProduct (T := T) n
  roundsLeaving (T := T) Q n.log2 v

theorem fst_roundsLeaving (Q : P) (k : ℕ) (v : Argument F P) :
    Prod.fst <$> (roundsLeaving Q k v : StateM T _) = rounds Q k v := by
  induction k generalizing v with
  | zero => rfl
  | succ k ih => simp only [roundsLeaving, rounds, ← ih, map_bind, map_pure, bind_map_left]

theorem fst_createLeaving (Q : P) (v : Argument F P) :
    Prod.fst <$> (createLeaving Q v : ExceptT RangeProofError (StateM T) _) = create Q v := by
  rw [createLeaving, create]
  split
  · rw [map_bind, ← fst_roundsLeaving]
    rfl
  · rfl

theorem run_roundsLeaving_succ (Q : P) (k : ℕ) (v : Argument F P) (t : T) :
    (roundsLeaving Q (k + 1) v).run t = (do
      let L := (v.lower (2 ^ k)).cross Q (v.upper (2 ^ k))
      let R := (v.upper (2 ^ k)).cross Q (v.lower (2 ^ k))
      let u : F ← drawRound (L, R)
      let (rest, left) ← roundsLeaving Q k ((v.lower (2 ^ k)).fold u u⁻¹ (v.upper (2 ^ k)))
      pure ((⟨L :: rest.L, R :: rest.R, rest.a, rest.b⟩ : InnerProductProof F P), left)).run t := by
  rw [roundsLeaving, Nat.one_shiftLeft]
  rfl

/-- Where a transcript draws challenges on the points of their proof, the rounds fold the vectors with
them. -/
theorem run_roundsLeaving (Q : P) {us : List F} {v : Argument F P} {t t' : T}
    (h : (((ofChallenges Q us v).L.zip (ofChallenges Q us v).R).mapM drawRound).run t = (us, t')) :
    (roundsLeaving Q us.length v).run t = ((ofChallenges Q us v, v.foldAll us), t') := by
  induction us generalizing v t with
  | nil =>
    obtain rfl : t = t' := congrArg Prod.snd h
    rfl
  | cons u us ih =>
    let L := (v.lower (2 ^ us.length)).cross Q (v.upper (2 ^ us.length))
    let R := (v.upper (2 ^ us.length)).cross Q (v.lower (2 ^ us.length))
    let w := (v.lower (2 ^ us.length)).fold u u⁻¹ (v.upper (2 ^ us.length))
    rcases hround : (drawRound (F := F) (L, R)).run t with ⟨u', t₁⟩
    rcases hrest : (((ofChallenges Q us w).L.zip (ofChallenges Q us w).R).mapM
      (drawRound (F := F))).run t₁ with ⟨us', t₂⟩
    -- the transcript draws the first challenge on the first two points, and the others on the others
    rw [ofChallenges, List.zip_cons_cons, List.mapM_cons, run_bind_of_eq hround,
      run_bind_of_eq hrest] at h
    obtain ⟨hus, rfl⟩ := Prod.mk.inj h
    obtain ⟨rfl, rfl⟩ := List.cons.inj hus
    rw [List.length_cons, run_roundsLeaving_succ, run_bind_of_eq hround]
    exact run_bind_of_eq (ih hrest)

theorem exists_createLeaving_eq (Q : P) {k : ℕ} {v : Argument F P} (h : v.HasLength (2 ^ k)) (t : T) :
    ∃ (us : List F) (t' : T), us.length = k ∧
      (create Q v).run t = (.ok (ofChallenges Q us v), t') ∧
      (createLeaving Q v).run t = (.ok (ofChallenges Q us v, v.foldAll us), t') ∧
      ((ofChallenges Q us v).draws (2 ^ k)).run t = (us, t') := by
  obtain ⟨us, t', rfl, hcreate, hdraws⟩ := exists_create_eq Q h t
  refine ⟨us, t', rfl, hcreate, ?_, hdraws⟩
  have hguard : (v.isBalanced && isPowerOfTwo v.G.length) = true := by
    rw [(Argument.isBalanced_iff h.G).mpr h, h.G, isPowerOfTwo_two_pow]
    rfl
  rw [draws, StateT.run_bind] at hdraws
  rw [createLeaving, if_pos hguard, h.G, Nat.log2_two_pow,
    run_bind_of_ok (run_lift (absorbInnerProduct (2 ^ us.length)) t), run_lift, run_roundsLeaving Q hdraws]

variable [AddCommGroup P] [Module F P] [LawfulMultiScalar F P] [BEq P] [LawfulBEq P]

/-- **The verifier's factors are the prover's folds.**  For fewer than thirty-two challenges, none of them zero,
the verifier's loop over positions runs through.  It gives the squares of the challenges, those of their
inverses, and for every generator the product of the challenges at the set bits of its position and of the
inverses of the others; opposite factors are inverse to each other.  The sums of all generators with the
factors and with their inverses are the two generators that are left when vectors without factors are folded
with the challenges.

These are the scalars of a verifier whenever it does not refuse a proof; and these are the vectors on which
the prover ends, under the challenges that the verifier draws on its proof. -/
theorem factors_fold_generators :
    (∀ us : List F, us.length < 32 → (∀ u ∈ us, u ≠ 0) →
      FoldingScalars.ofChallengesTrapping us.length (2 ^ us.length) us = .ok (.ofChallenges us) ∧
      (FoldingScalars.ofChallenges us).Unfold us ∧
      ∀ v : Argument F P, v.HasLength (2 ^ us.length) → v.HasUnitFactors →
        (v.foldAll us).G = [dot (FoldingScalars.ofChallenges us).factors v.G] ∧
        (v.foldAll us).H = [dot ((FoldingScalars.ofChallenges us).factors.map (·⁻¹)) v.H]) ∧
    (∀ (proof : InnerProductProof F P) (n : ℕ) (t t' : T) (us : List F) (s : FoldingScalars F),
      (proof.scalarsTrapping n).run t = .ok (.ok (us, s), t') →
        us.length = proof.L.length ∧ us.length < 32 ∧ n = 2 ^ us.length ∧ s = .ofChallenges us) ∧
    (∀ (Q : P) (v : Argument F P) (k : ℕ) (t : T), k < 32 → v.HasLength (2 ^ k) →
      ∃ (us : List F) (proof : InnerProductProof F P) (t' : T), us.length = k ∧
        (create Q v).run t = (.ok proof, t') ∧
        (createLeaving Q v).run t = (.ok (proof, v.foldAll us), t') ∧
        ((∀ p ∈ proof.points, p ≠ 0) →
          (proof.scalarsTrapping (2 ^ k)).run t = .ok (.ok (us, .ofChallenges us), t'))) := by
  refine ⟨fun us hfew hus => ⟨FoldingScalars.ofChallengesTrapping_eq hfew,
    FoldingScalars.unfold_ofChallenges hus, fun v h hunit => ?_⟩, ?_, ?_⟩
  · rw [← FoldingScalars.reverse_factors hus]
    exact Argument.generators_foldAll hus h hunit
  · intro proof n t t' us s hrun
    rw [scalarsTrapping_eq, Trapping.run_safe] at hrun
    obtain ⟨us', t₁, hreplay, hpure⟩ := run_bind_eq_ok.mp (Except.ok.inj hrun)
    obtain ⟨rfl, rfl⟩ := Prod.mk.inj (Except.ok.inj (Prod.mk.inj hpure).1)
    obtain ⟨hshape, hlength⟩ := hasShape_of_replay hreplay
    rw [hlength]
    exact ⟨rfl, hshape.rounds_lt, hshape.length_eq, rfl⟩
  · intro Q v k t hk h
    obtain ⟨us, t', rfl, hcreate, hleaving, hdraws⟩ := exists_createLeaving_eq Q h t
    refine ⟨us, ofChallenges Q us v, t', rfl, hcreate, hleaving, fun hpoints => ?_⟩
    have hreplay : ((ofChallenges Q us v).replay (2 ^ us.length)).run t = (.ok us, t') := by
      rw [(checks_replay _ _ t).1 ⟨hasShape_ofChallenges Q v hk, hpoints⟩, hdraws]
    rw [scalarsTrapping_eq, Trapping.run_safe, run_bind_of_ok hreplay, run_pure]

/-- Vectors of eight entries without factors, zeros among them. -/
def eightEntries : Argument Residue Residue :=
  ⟨[3, 5, 7, 11, 13, 17, 19, 23], [29, 31, 37, 41, 43, 47, 53, 59], List.replicate 8 1, List.replicate 8 1,
    [9, 0, 2, 3, 4, 0, 6, 8], [4, 5, 6, 0, 7, 8, 9, 2]⟩

/-- Eight generators, folded with three given challenges and with those of a run. -/
theorem factors_fold_generators_of_eight :
    eightEntries.HasLength (2 ^ 3) ∧ eightEntries.HasUnitFactors ∧
    (FoldingScalars.ofChallenges [3, 5, 7]).Unfold ([3, 5, 7] : List Residue) ∧
    (eightEntries.foldAll [3, 5, 7]).G = [58211] ∧ (eightEntries.foldAll [3, 5, 7]).H = [25030] ∧
    ∃ (us : List Residue) (proof : InnerProductProof Residue Residue) (final : Residue.Transcript),
      (createLeaving 2 eightEntries).run Residue.start = (.ok (proof, eightEntries.foldAll us), final) ∧
      (proof.scalarsTrapping (2 ^ 3)).run Residue.start = .ok (.ok (us, .ofChallenges us), final) ∧
      us.length = proof.L.length ∧ (∀ u ∈ us, u ≠ 0) ∧
      (eightEntries.foldAll us).G = [dot (FoldingScalars.ofChallenges us).factors eightEntries.G] := by
  have hlength : eightEntries.HasLength (2 ^ 3) := by constructor <;> rfl
  have hunit : eightEntries.HasUnitFactors := by constructor <;> rfl
  have hgiven : ([3, 5, 7] : List Residue).all (· != 0) = true := by decide +kernel
  have hrun : ((create 2 eightEntries).run Residue.start).1.toOption.any
      (fun proof : InnerProductProof Residue Residue => proof.points.all (· != 0) &&
        match (proof.scalarsTrapping (F := Residue) (2 ^ 3)).run Residue.start with
        | .ok (.ok (us, _), _) => us.all (· != 0)
        | _ => false) = true := by
    decide +kernel
  have hsums : dot (FoldingScalars.ofChallenges ([3, 5, 7] : List Residue)).factors eightEntries.G = 58211 ∧
      dot ((FoldingScalars.ofChallenges ([3, 5, 7] : List Residue)).factors.map (·⁻¹)) eightEntries.H =
        25030 := by
    decide +kernel
  simp only [List.all_eq_true, bne_iff_ne] at hgiven
  obtain ⟨hscalars, hanswers, hruns⟩ :=
    factors_fold_generators (F := Residue) (P := Residue) (T := Residue.Transcript)
  -- the given challenges
  obtain ⟨-, hunfold, hlast⟩ := hscalars [3, 5, 7] (by decide) hgiven
  obtain ⟨hG, hH⟩ := hlast eightEntries hlength hunit
  rw [hsums.1] at hG
  rw [hsums.2] at hH
  -- those of the run
  obtain ⟨us, proof, final, hus, hcreate, hleaving, hverifier⟩ :=
    hruns 2 eightEntries 3 Residue.start (by decide) hlength
  rw [hcreate, any_toOption_iff] at hrun
  obtain ⟨_, hproof, hnonzero⟩ := hrun
  obtain rfl := Except.ok.inj hproof
  simp only [Bool.and_eq_true, List.all_eq_true, bne_iff_ne] at hnonzero
  obtain ⟨hpoints, hchallenges⟩ := hnonzero
  rw [hverifier hpoints] at hchallenges
  simp only [List.all_eq_true, bne_iff_ne] at hchallenges
  obtain ⟨hrounds, hfew, -, -⟩ := hanswers proof (2 ^ 3) Residue.start final us _ (hverifier hpoints)
  have hrest := (hscalars us hfew hchallenges).2.2 eightEntries (hus.symm ▸ hlength) hunit
  exact ⟨hlength, hunit, hunfold, hG, hH, us, proof, final, hleaving, hverifier hpoints, hrounds,
    hchallenges, hrest.1⟩

end InnerProductProof
end ConfidentialTx
