import ConfidentialTx.Proofs.InnerProduct
import ConfidentialTx.Proofs.Rows

/-! # The equation of the verifier

The verifier checks one sum of products.  It is the sum of two points, the second one weighted:

* what the inner-product argument compares, `RangeProof.vectorPoint` less the combination of the
  proof's argument;
* what is left of the equation of `t(x)`, `RangeProof.valueDefect`.

`RangeProof.combine_equation` says so term by term, for every proof.  It follows that a proof accepted
under two weights is accepted under all of them. -/

namespace ConfidentialTx

open Transcript

/-! ### The scalars, list by list -/

namespace ProofShare
variable {F : Type} [Field F]

/-- The scalars that the challenges fix at the generators `H` of position `j`. -/
def offsets (n j : ℕ) (ch : BitChallenge F) : List F :=
  List.ofFn fun i : Fin n =>
    ch.z + ch.z ^ 2 * ch.z ^ j * 2 ^ (i : ℕ) * ch.y⁻¹ ^ (j * n + i : ℕ)

@[simp] theorem length_offsets (n j : ℕ) (ch : BitChallenge F) : (offsets n j ch).length = n := by
  simp [offsets]

end ProofShare

namespace RangeProof
variable {F P T : Type} [Field F]

/-- The scalar that the challenges fix at every generator `H`, party after party. -/
def offsetScalars (n m : ℕ) (ch : Challenges F) : List F :=
  (List.ofFn fun j : Fin m => List.ofFn fun i : Fin n =>
    ch.z + ch.z ^ 2 * ch.z ^ (j : ℕ) * 2 ^ (i : ℕ) * ch.y⁻¹ ^ (j * n + i : ℕ)).flatten

theorem zipWith_flatten_ofFn {α β γ : Type} {m : ℕ} (f : α → β → γ) {g : Fin m → List α}
    {h : Fin m → List β} (hlen : ∀ j, (g j).length = (h j).length) :
    List.zipWith f (List.ofFn g).flatten (List.ofFn h).flatten =
      (List.ofFn fun j => List.zipWith f (g j) (h j)).flatten := by
  induction m with
  | zero => rfl
  | succ m ih =>
    rw [List.ofFn_succ, List.ofFn_succ, List.flatten_cons, List.flatten_cons,
      List.zipWith_append (hlen 0), ih fun j => hlen j.succ, List.ofFn_succ, List.flatten_cons]

theorem length_offsetScalars (n m : ℕ) (ch : Challenges F) : (offsetScalars n m ch).length = n * m := by
  simp [offsetScalars, List.length_flatten, List.map_ofFn, Function.comp_def, Nat.mul_comm]

/-- The offsets as the code computes them, from the powers of `y⁻¹`, `z` and two. -/
theorem offsetScalars_eq (n m : ℕ) (ch : Challenges F) :
    offsetScalars n m ch =
      List.zipWith (fun yi zb => ch.z + yi * (ch.z * ch.z * zb)) (powers ch.y⁻¹ (n * m))
        ((powers ch.z m).flatMap fun zj => (powers ((2 : Nat) : F) n).map (· * zj)) := by
  rw [powers_mul, powers_eq_ofFn ch.z, List.flatMap_def, List.map_ofFn, zipWith_flatten_ofFn _ (by simp),
    offsetScalars]
  congr 2
  funext j
  apply List.ext_getElem
  · simp
  · intro i h₁ h₂
    simp [pow_add]
    ring

theorem leftScalars_eq (proof : RangeProof F P) (ch : Challenges F) (s : List F) :
    proof.leftScalars ch s =
      List.zipWith (· - ·) (s.map fun _ => -ch.z)
        (InnerProductProof.scale proof.inner.a (s.map fun _ => 1) s) := by
  apply List.ext_getElem
  · simp [leftScalars, InnerProductProof.scale]
  · intro i h₁ h₂
    simp [leftScalars, InnerProductProof.scale]

theorem rightScalars_eq (proof : RangeProof F P) (n m : ℕ) (ch : Challenges F) (s : List F) :
    proof.rightScalars n m ch s =
      List.zipWith (· - ·) (offsetScalars n m ch)
        (InnerProductProof.scale proof.inner.b (powers ch.y⁻¹ (n * m)) s.reverse) := by
  rw [offsetScalars_eq]
  apply List.ext_getElem
  · simp [rightScalars, InnerProductProof.scale]
    omega
  · intro i h₁ h₂
    simp [rightScalars, InnerProductProof.scale]
    ring

/-! ### The two points -/

variable [AddCommGroup P] [Module F P]

/-- The point that the inner-product argument of a proof is about. -/
def vectorPoint (proof : RangeProof F P) (gens : Generators P) (key : CommitmentKey P) (n m : ℕ)
    (ch : Challenges F) : P :=
  proof.A + ch.x • proof.S - proof.eBlinding • key.blinding
    - ch.z • (gens.vector .G n m).sum + dot (offsetScalars n m ch) (gens.vector .H n m)
    + (ch.w * proof.tx) • key.value

/-- What is left of the equation of `t(x)`: zero if the committed values are behind `t`. -/
def valueDefect (proof : RangeProof F P) (key : CommitmentKey P) (n : ℕ) (values : List P)
    (ch : Challenges F) : P :=
  ∑ j : Fin values.length, ch.z ^ (2 + j : ℕ) • values[j]
    + delta n values.length ch.y ch.z • key.value + ch.x • proof.T₁ + ch.x ^ 2 • proof.T₂
    - proof.tx • key.value - proof.txBlinding • key.blinding

/-! ### The equation, piece by piece -/

theorem sumsTo_leftScalars (proof : RangeProof F P) (ch : Challenges F) {s : List F} {G : List P}
    (h : s.length = G.length) :
    SumsTo (proof.leftScalars ch s) G
      (-(ch.z • G.sum) - dot (InnerProductProof.scale proof.inner.a (List.replicate s.length 1) s) G) := by
  have hones : (InnerProductProof.scale proof.inner.a (List.replicate s.length 1) s).length =
      G.length := by
    simp [InnerProductProof.scale, h]
  refine ⟨by simp [leftScalars, h], ?_⟩
  rw [leftScalars_eq, List.map_const', List.map_const', dot_zipWith_sub (by simp [h]) hones rfl, h,
    dot_replicate, neg_smul]

theorem sumsTo_rightScalars (proof : RangeProof F P) {n m : ℕ} (ch : Challenges F) {s : List F}
    {H : List P} (hs : s.length = n * m) (hH : H.length = n * m) :
    SumsTo (proof.rightScalars n m ch s) H
      (dot (offsetScalars n m ch) H
        - dot (InnerProductProof.scale proof.inner.b (powers ch.y⁻¹ (n * m)) s.reverse) H) := by
  have hscale : (InnerProductProof.scale proof.inner.b (powers ch.y⁻¹ (n * m)) s.reverse).length =
      n * m := by
    simp [InnerProductProof.scale, hs]
  rw [rightScalars_eq]
  refine ⟨?_, dot_zipWith_sub (length_offsetScalars n m ch) hscale hH⟩
  rw [List.length_zipWith, length_offsetScalars, hscale, hH, Nat.min_self]

theorem sumsTo_valueScalars (z c : F) (values : List P) :
    SumsTo ((powers z values.length).map fun zj => c * (z * z) * zj) values
      (c • ∑ j : Fin values.length, z ^ (2 + j : ℕ) • values[j]) := by
  refine ⟨by simp, ?_⟩
  rw [dot_eq_sum (n := values.length) (by simp) rfl, Finset.smul_sum]
  refine Finset.sum_congr rfl fun j _ => ?_
  rw [smul_smul]
  simp [pow_add, sq, mul_assoc]

variable [MultiScalar F P] [LawfulMultiScalar F P] {gens : Generators P} {key : CommitmentKey P}
variable {proof : RangeProof F P} {n : ℕ} {values : List P} {ch : Challenges F}

/-- The verifier's sum of products: two points, the second one weighted. -/
theorem combine_equation (hcap : n ≤ gens.capacity) (hparties : values.length ≤ gens.parties)
    (hshape : proof.inner.HasShape (n * values.length))
    (hus : ch.us.length = proof.inner.L.length) (c : F) :
    combine (proof.equationScalars n values.length ch c) (proof.equationPoints gens key n values) =
      proof.vectorPoint gens key n values.length ch
        - proof.inner.combination (List.replicate (n * values.length) 1)
          (powers ch.y⁻¹ (n * values.length)) ch.us (ch.w • key.value)
          (gens.vector .G n values.length) (gens.vector .H n values.length)
        + c • proof.valueDefect key n values ch := by
  have hG := Generators.length_vector hcap hparties .G
  have hH := Generators.length_vector hcap hparties .H
  have hs : (FoldingScalars.ofChallenges ch.us).factors.length = n * values.length := by
    rw [FoldingScalars.length_factors, hus, ← hshape.length_eq]
  have hL : (FoldingScalars.ofChallenges ch.us).squares.length = proof.inner.L.length := by
    rw [FoldingScalars.length_squares, hus]
  have hR : (FoldingScalars.ofChallenges ch.us).inverseSquares.length = proof.inner.R.length := by
    rw [FoldingScalars.length_inverseSquares, hus, hshape.length_R]
  have hfirst : SumsTo [1, ch.x, c * ch.x, c * ch.x * ch.x] [proof.A, proof.S, proof.T₁, proof.T₂]
      (proof.A + ch.x • proof.S + (c * ch.x) • proof.T₁ + (c * ch.x * ch.x) • proof.T₂) :=
    ⟨rfl, by simp; abel⟩
  have hterms := (((((((hfirst.append (.of_length hL)).append (.of_length hR)).append
    (.single (-proof.eBlinding - c * proof.txBlinding) key.blinding)).append
    (.single (proof.valueScalar n values.length ch c) key.value)).append
    (proof.sumsTo_leftScalars ch (hs.trans hG.symm))).append
    (proof.sumsTo_rightScalars ch hs hH)).append
    (sumsTo_valueScalars ch.z c values))
  refine hterms.combine_eq.trans ?_
  rw [hs, vectorPoint, InnerProductProof.combination, valueDefect, valueScalar]
  module

/-! ### Acceptance -/

variable [BEq P] [LawfulBEq P] [ScalarEncoding F] [PointEncoding P] [Transcript T] {t t' : T}

/-- Whether a proof is accepted under the weight `c`. -/
def Accepts (proof : RangeProof F P) (gens : Generators P) (key : CommitmentKey P) (n : ℕ)
    (values : List P) (t : T) (c : F) : Prop :=
  ((proof.verifyWith gens key n values c).run t).1 = .ok ()

theorem accepts_iff (h : (proof.prepare gens n values).run t = (.ok ch, t')) (c : F) :
    proof.Accepts gens key n values t c ↔
      proof.vectorPoint gens key n values.length ch
        - proof.inner.combination (List.replicate (n * values.length) 1)
          (powers ch.y⁻¹ (n * values.length)) ch.us (ch.w • key.value)
          (gens.vector .G n values.length) (gens.vector .H n values.length)
        + c • proof.valueDefect key n values ch = 0 := by
  obtain ⟨hparams, hshape, -, hdraws⟩ := prepare_eq_ok_iff.mp h
  have hfit := checkParameters_eq_ok_iff.mp hparams
  have hus : ch.us.length = proof.inner.L.length := by
    have hlen := InnerProductProof.length_draws hshape ((proof.outerDraws (F := F) n values).run t).2
    rwa [draws_inner hdraws] at hlen
  rw [Accepts, verifyWith_of_prepared h, equationHolds,
    combine_equation hfit.capacity hfit.parties hshape hus]
  split <;> simp_all

end RangeProof
end ConfidentialTx
