import ConfidentialTx.Proofs.Folding
import ConfidentialTx.Proofs.Powers
import ConfidentialTx.Proofs.Residues

/-! # Completeness of the inner-product argument

The verifier compares one point, its combination, with the point that a proof is for.

* `InnerProductProof.combination`: the verifier's point, without the code's order of terms.
* `InnerProductProof.combination_cons`: a round before a proof changes the combination as it changes the
  point of the argument.
* `InnerProductProof.ofChallenges`: the proof that the prover sends under given challenges; for nonzero
  challenges its combination is the point of the argument (`InnerProductProof.combination_ofChallenges`).
* `InnerProductProof.exists_rounds_eq`, `InnerProductProof.exists_create_eq`: prover and verifier run the
  same transcript, so the prover sends the proof under the challenges that the verifier draws on it.
* `InnerProductProof.run_verify`: the verifier accepts where the two points agree.
* `InnerProductProof.create_complete`: so it accepts what the prover sends for the point of the argument
  and for no other, unless a point that is sent is zero; both end on one transcript. -/

namespace ConfidentialTx

open Transcript

namespace InnerProductProof
variable {F P T : Type} [Field F] [AddCommGroup P] [Module F P]

/-- The factors of the generators with the factors of their own and a common one. -/
def scale (a : F) (x s : List F) : List F := List.zipWith (fun x s => a * s * x) x s

/-- The point that the verifier compares. -/
def combination (proof : InnerProductProof F P) (x y us : List F) (Q : P) (G H : List P) : P :=
  let s := FoldingScalars.ofChallenges us
  (proof.a * proof.b) • Q + dot (scale proof.a x s.factors) G
    + dot (scale proof.b y s.factors.reverse) H - dot s.squares proof.L
    - dot s.inverseSquares proof.R

theorem combine_point [MultiScalar F P] [LawfulMultiScalar F P] {proof : InnerProductProof F P}
    {x y us : List F} {G H : List P} {n : ℕ} (hus : us.length = proof.L.length)
    (hR : proof.R.length = proof.L.length) (hn : n = 2 ^ proof.L.length) (hx : x.length = n)
    (hy : y.length = n) (hG : G.length = n) (hH : H.length = n) (Q : P) :
    combine (proof.pointScalars x y us) (proof.pointBases Q G H) =
      proof.combination x y us Q G H := by
  have hs : (FoldingScalars.ofChallenges us).factors.length = n := by simp [hus, hn]
  have hscaleG : (scale proof.a x (FoldingScalars.ofChallenges us).factors).length = G.length := by
    simp [scale, hx, hs, hG]
  have hscaleH : (scale proof.b y (FoldingScalars.ofChallenges us).factors.reverse).length =
      H.length := by
    simp [scale, hy, hs, hH]
  have hL : ((FoldingScalars.ofChallenges us).squares.map (-·)).length = proof.L.length := by
    simp [hus]
  have hR' : ((FoldingScalars.ofChallenges us).inverseSquares.map (-·)).length = proof.R.length := by
    simp [hus, hR]
  have hterms := ((((SumsTo.single (proof.a * proof.b) Q).append (.of_length hscaleG)).append
    (.of_length hscaleH)).append (.of_length hL)).append (.of_length hR')
  rw [dot_map_neg, dot_map_neg, ← sub_eq_add_neg, ← sub_eq_add_neg] at hterms
  exact hterms.combine_eq

/-! ### One round of the combination -/

theorem scale_map (a c : F) (x s : List F) : scale a x (s.map (c * ·)) = (scale a x s).map (c * ·) := by
  simp only [scale, List.zipWith_map_right, List.map_zipWith]
  congr 1
  funext x s
  ring

theorem zipWith_scale_one (a : F) (ones : List F) {x s : List F} (h : ones.length = s.length) :
    List.zipWith (· * ·) (scale a (ones.map fun _ => 1) s) x = scale a x s := by
  apply List.ext_getElem
  · simp [scale, h, Nat.min_comm]
  · intro i h₁ h₂
    simp [scale]

variable [MultiScalar F P] [LawfulMultiScalar F P]

/-- Generators whose factors unfold to two halves are the folded generators. -/
theorem dot_scale_fold {n : ℕ} {x f : List F} {G : List P} (hx : x.length = n + n)
    (hG : G.length = n + n) (hf : f.length = n) (a c d : F) :
    dot (scale a x (f.map (c * ·) ++ f.map (d * ·))) G =
      dot (scale a ((x.take n).map fun _ => 1) f)
        (Argument.foldPoints c d (x.take n) (x.drop n) (G.take n) (G.drop n)) := by
  have htake : (x.take n).length = n := by simp [hx]
  have hdrop : (x.drop n).length = n := by simp [hx]
  have hones : (scale a ((x.take n).map fun _ => 1) f).length = n := by simp [scale, hx, hf]
  have hsplit : scale a x (f.map (c * ·) ++ f.map (d * ·)) =
      (scale a (x.take n) f).map (c * ·) ++ (scale a (x.drop n) f).map (d * ·) := by
    rw [← scale_map, ← scale_map, scale, scale, scale, ← List.zipWith_append (by simp [hx, hf]),
      List.take_append_drop]
  have hlen : ((scale a (x.take n) f).map (c * ·)).length = (G.take n).length := by
    simp [scale, hx, hf, hG]
  rw [hsplit, Argument.dot_foldPoints hones htake hdrop (by simp [hG]) (by simp [hG]), dot₃, dot₃,
    zipWith_scale_one a _ (htake.trans hf.symm), zipWith_scale_one a _ (htake.trans hf.symm),
    ← dot_map_mul, ← dot_map_mul, ← dot_append hlen, List.take_append_drop]

/-- The combination of a proof is that of its later rounds on the folded vectors, less the two points
of the first round. -/
theorem combination_cons {v w : Argument F P} {u : F} {us : List F}
    (h : v.HasLength (2 ^ us.length + 2 ^ us.length))
    (hw : w = (v.lower (2 ^ us.length)).fold u u⁻¹ (v.upper (2 ^ us.length)))
    (hu : ∀ u' ∈ u :: us, u' ≠ 0) (rest : InnerProductProof F P) (L R Q : P) :
    (⟨L :: rest.L, R :: rest.R, rest.a, rest.b⟩ : InnerProductProof F P).combination v.x v.y (u :: us)
        Q v.G v.H =
      rest.combination w.x w.y us Q w.G w.H - (u * u) • L - (u⁻¹ * u⁻¹) • R := by
  subst hw
  obtain ⟨hu₀, hus⟩ := List.forall_mem_cons.mp hu
  have hf : (FoldingScalars.ofChallenges us).factors.length = 2 ^ us.length := by simp
  have hr : (FoldingScalars.ofChallenges us).factors.reverse.length = 2 ^ us.length := by simp
  simp only [combination, Argument.fold, Argument.lower, Argument.upper]
  rw [FoldingScalars.squares_cons, FoldingScalars.inverseSquares_eq hu,
    FoldingScalars.inverseSquares_eq hus, FoldingScalars.reverse_factors_cons hu₀,
    FoldingScalars.factors_cons hu₀, dot_scale_fold h.x h.G hf, dot_scale_fold h.y h.H hr,
    List.map_cons, dot_cons, dot_cons]
  abel

theorem combination_nil {v : Argument F P} (h : v.HasLength 1) (Q : P) :
    (⟨[], [], v.a.headD 0, v.b.headD 0⟩ : InnerProductProof F P).combination v.x v.y [] Q v.G v.H =
      v.point Q := by
  rw [Argument.point_eq h, combination]
  obtain ⟨G, H, x, y, a, b⟩ := v
  obtain ⟨hG, hH, hx, hy, ha, hb⟩ := h
  obtain ⟨G, rfl⟩ := List.length_eq_one_iff.mp hG
  obtain ⟨H, rfl⟩ := List.length_eq_one_iff.mp hH
  obtain ⟨x, rfl⟩ := List.length_eq_one_iff.mp hx
  obtain ⟨y, rfl⟩ := List.length_eq_one_iff.mp hy
  obtain ⟨a, rfl⟩ := List.length_eq_one_iff.mp ha
  obtain ⟨b, rfl⟩ := List.length_eq_one_iff.mp hb
  simp [scale, dot₃, innerProduct, FoldingScalars.ofChallenges, FoldingScalars.inverses]
  module

/-! ### Proofs under given challenges -/

/-- The proof that the rounds of an argument give under the challenges `us`. -/
def ofChallenges (Q : P) : (us : List F) → Argument F P → InnerProductProof F P
  | [], v => ⟨[], [], v.a.headD 0, v.b.headD 0⟩
  | u :: us, v =>
    let lower := v.lower (2 ^ us.length)
    let upper := v.upper (2 ^ us.length)
    let rest := ofChallenges Q us (lower.fold u u⁻¹ upper)
    ⟨lower.cross Q upper :: rest.L, upper.cross Q lower :: rest.R, rest.a, rest.b⟩

section Lengths
omit [AddCommGroup P] [Module F P] [LawfulMultiScalar F P]

@[simp] theorem length_L_ofChallenges (Q : P) (us : List F) (v : Argument F P) :
    (ofChallenges Q us v).L.length = us.length := by
  induction us generalizing v with
  | nil => rfl
  | cons u us ih => exact congrArg (· + 1) (ih _)

@[simp] theorem length_R_ofChallenges (Q : P) (us : List F) (v : Argument F P) :
    (ofChallenges Q us v).R.length = us.length := by
  induction us generalizing v with
  | nil => rfl
  | cons u us ih => exact congrArg (· + 1) (ih _)

theorem hasShape_ofChallenges (Q : P) {us : List F} (v : Argument F P) (hus : us.length < 32) :
    (ofChallenges Q us v).HasShape (2 ^ us.length) := by
  constructor
  · rwa [length_L_ofChallenges]
  · rw [length_L_ofChallenges, length_R_ofChallenges]
  · rw [length_L_ofChallenges]

end Lengths

/-- Under nonzero challenges the verifier compares the point of the argument. -/
theorem combination_ofChallenges (Q : P) {us : List F} (hus : ∀ u ∈ us, u ≠ 0) {v : Argument F P}
    (h : v.HasLength (2 ^ us.length)) :
    (ofChallenges Q us v).combination v.x v.y us Q v.G v.H = v.point Q := by
  induction us generalizing v with
  | nil => exact combination_nil h Q
  | cons u us ih =>
    have hv : v.HasLength (2 ^ us.length + 2 ^ us.length) := by
      rwa [List.length_cons, pow_succ, mul_two] at h
    obtain ⟨hu, hrest⟩ := List.forall_mem_cons.mp hus
    have hfold := (hv.lower (Nat.le_add_left _ _)).fold hv.upper u u⁻¹
    rw [ofChallenges, combination_cons hv rfl hus, ih hrest hfold, Argument.point_fold hv hu]
    abel

/-! ### The prover's rounds -/

variable [ScalarEncoding F] [PointEncoding P] [Transcript T]

section Prover
omit [AddCommGroup P] [Module F P] [LawfulMultiScalar F P]

theorem rounds_succ (Q : P) (k : ℕ) (v : Argument F P) (t : T) :
    (rounds Q (k + 1) v).run t = (do
      let L := (v.lower (2 ^ k)).cross Q (v.upper (2 ^ k))
      let R := (v.upper (2 ^ k)).cross Q (v.lower (2 ^ k))
      let u : F ← drawRound (L, R)
      let rest ← rounds Q k ((v.lower (2 ^ k)).fold u u⁻¹ (v.upper (2 ^ k)))
      pure (⟨L :: rest.L, R :: rest.R, rest.a, rest.b⟩ : InnerProductProof F P)).run t := by
  rw [rounds, Nat.one_shiftLeft]
  rfl

/-- The prover's rounds send the proof under the challenges that a transcript draws on its points. -/
theorem exists_rounds_eq (Q : P) (k : ℕ) (v : Argument F P) (t : T) :
    ∃ (us : List F) (t' : T), us.length = k ∧
      (rounds Q k v).run t = (ofChallenges Q us v, t') ∧
      (((ofChallenges Q us v).L.zip (ofChallenges Q us v).R).mapM drawRound).run t = (us, t') := by
  induction k generalizing v t with
  | zero => exact ⟨[], t, rfl, rfl, rfl⟩
  | succ k ih =>
    -- the first round
    let L := (v.lower (2 ^ k)).cross Q (v.upper (2 ^ k))
    let R := (v.upper (2 ^ k)).cross Q (v.lower (2 ^ k))
    rcases hround : (drawRound (F := F) (T := T) (L, R)).run t with ⟨u, t₁⟩
    -- the others, on the folded vectors
    obtain ⟨us, t', rfl, hrun, hdraws⟩ := ih ((v.lower (2 ^ k)).fold u u⁻¹ (v.upper (2 ^ k))) t₁
    refine ⟨u :: us, t', rfl, ?_, ?_⟩
    · rw [rounds_succ, run_bind_of_eq hround]
      exact run_bind_of_eq hrun
    · rw [ofChallenges, List.zip_cons_cons, List.mapM_cons, run_bind_of_eq hround]
      exact run_bind_of_eq hdraws

theorem exists_create_eq (Q : P) {k : ℕ} {v : Argument F P} (h : v.HasLength (2 ^ k)) (t : T) :
    ∃ (us : List F) (t' : T), us.length = k ∧
      (create Q v).run t = (.ok (ofChallenges Q us v), t') ∧
      ((ofChallenges Q us v).draws (2 ^ k)).run t = (us, t') := by
  obtain ⟨us, t', hlen, hrun, hdraws⟩ :=
    exists_rounds_eq Q k v ((absorbInnerProduct (2 ^ k)).run t).2
  refine ⟨us, t', hlen, ?_, ?_⟩
  · have hguard : (v.isBalanced && isPowerOfTwo v.G.length) = true := by
      rw [(Argument.isBalanced_iff h.G).mpr h, h.G, isPowerOfTwo_two_pow]
      rfl
    rw [create, if_pos hguard, h.G, Nat.log2_two_pow,
      run_bind_of_ok (run_lift (absorbInnerProduct (2 ^ k)) t), run_lift, hrun]
  · rw [draws, StateT.run_bind]
    exact hdraws

end Prover

/-! ### The verifier -/

variable [BEq P] [LawfulBEq P]

section Verifier
variable {proof : InnerProductProof F P} {n : ℕ} {x y us : List F} {G H : List P} {t t' : T}
variable (hx : x.length = n) (hy : y.length = n) (hG : G.length = n) (hH : H.length = n)
include hx hy hG hH

omit [AddCommGroup P] [Module F P] [LawfulMultiScalar F P] [LawfulBEq P] in
theorem verify_eq [Zero P] (expected Q : P) :
    (proof.verify n x y expected Q G H : ExceptT RangeProofError (StateM T) Unit) = (do
      let us ← proof.replay n
      unless combine (proof.pointScalars x y us) (proof.pointBases Q G H) == expected do
        throw .verificationError) := by
  rw [verify, if_pos (by simp [hx, hy, hG, hH])]

/-- On vectors of the right length and a proof of the right shape without zero points, the verifier
compares the combination, and ends where the draws end. -/
theorem run_verify (hshape : proof.HasShape n) (hpoints : ∀ p ∈ proof.points, p ≠ 0)
    (hdraws : (proof.draws n).run t = (us, t')) (expected Q : P) :
    (proof.verify n x y expected Q G H).run t =
      (if proof.combination x y us Q G H == expected then .ok () else .error .verificationError, t') := by
  have hreplay : (proof.replay n).run t = (.ok us, t') := by
    rw [(proof.checks_replay n t).1 ⟨hshape, hpoints⟩, hdraws]
  have hus : us.length = proof.L.length := by
    have hlen := length_draws hshape t
    rwa [hdraws] at hlen
  rw [verify_eq hx hy hG hH, run_bind_of_ok hreplay,
    combine_point hus hshape.length_R hshape.length_eq hx hy hG hH]
  split <;> rfl

omit [Module F P] [LawfulMultiScalar F P] in
theorem verify_refused (h : ¬(proof.HasShape n ∧ ∀ p ∈ proof.points, p ≠ 0)) (expected Q : P) (t : T) :
    ((proof.verify n x y expected Q G H).run t).1 = .error .verificationError := by
  have hreplay := (proof.checks_replay (F := F) n t).2 h
  rcases hrun : (proof.replay (F := F) n).run t with ⟨r, t₁⟩
  rw [hrun] at hreplay
  obtain rfl : r = .error .verificationError := hreplay
  rw [verify_eq hx hy hG hH, run_bind_of_error hrun]

theorem verify_eq_ok_iff (hshape : proof.HasShape n) (hpoints : ∀ p ∈ proof.points, p ≠ 0)
    (hdraws : (proof.draws n).run t = (us, t')) (expected Q : P) :
    ((proof.verify n x y expected Q G H).run t).1 = .ok () ↔
      proof.combination x y us Q G H = expected := by
  rw [run_verify hx hy hG hH hshape hpoints hdraws]
  split <;> simp_all

end Verifier

/-! ### Completeness -/

omit [AddCommGroup P] [Module F P] [LawfulMultiScalar F P] [BEq P] [LawfulBEq P] in
theorem create_refused (Q : P) {v : Argument F P} (h : ¬∃ k, v.HasLength (2 ^ k)) (t : T) :
    (create Q v).run t = (.error (.invalidInnerProductInput v.G.length), t) := by
  have hguard : ¬(v.isBalanced && isPowerOfTwo v.G.length) = true := by
    rw [Bool.and_eq_true]
    rintro ⟨hbalanced, hpow⟩
    have hlength := (Argument.isBalanced_iff rfl).mp hbalanced
    rw [isPowerOfTwo_iff.mp hpow] at hlength
    exact h ⟨_, hlength⟩
  rw [create, if_neg hguard]
  rfl

/-- **Completeness.**  On vectors of one length that is a power of two the prover is not refused and sends
one pair of points for every halving, under the challenges that the transcript draws on them.  If these are
not zero, the verifier, from the prover's first transcript on, accepts the proof for the point of the
argument and for no other, and only if no point that is sent is zero; it reports a verification error where
it does not accept.  If none is zero, it ends on the prover's last transcript, whatever point it is given.
Vectors of other lengths are refused, and the transcript stays as it was. -/
theorem create_complete (Q : P) (v : Argument F P) (t : T) :
    (∀ k, v.HasLength (2 ^ k) → ∃ (us : List F) (proof : InnerProductProof F P) (t' : T),
      (create Q v).run t = (.ok proof, t') ∧ proof.L.length = k ∧ proof.R.length = k ∧
      proof = ofChallenges Q us v ∧ (proof.draws (2 ^ k)).run t = (us, t') ∧
      (k < 32 → (∀ u ∈ us, u ≠ 0) → ∀ expected : P,
        (((proof.verify (2 ^ k) v.x v.y expected Q v.G v.H).run t).1 = .ok () ↔
          (∀ p ∈ proof.points, p ≠ 0) ∧
            expected = dot₃ v.a v.x v.G + dot₃ v.b v.y v.H + innerProduct v.a v.b • Q) ∧
        (((proof.verify (2 ^ k) v.x v.y expected Q v.G v.H).run t).1 = .ok () ∨
          ((proof.verify (2 ^ k) v.x v.y expected Q v.G v.H).run t).1 = .error .verificationError) ∧
        ((∀ p ∈ proof.points, p ≠ 0) →
          ((proof.verify (2 ^ k) v.x v.y expected Q v.G v.H).run t).2 = t'))) ∧
    ((¬∃ k, v.HasLength (2 ^ k)) →
      (create Q v).run t = (.error (.invalidInnerProductInput v.G.length), t)) := by
  refine ⟨fun k h => ?_, fun h => create_refused Q h t⟩
  obtain ⟨us, t', rfl, hcreate, hdraws⟩ := exists_create_eq Q h t
  refine ⟨us, ofChallenges Q us v, t', hcreate, length_L_ofChallenges Q us v,
    length_R_ofChallenges Q us v, rfl, hdraws, fun hk hus expected => ?_⟩
  have hshape := hasShape_ofChallenges Q v hk
  rw [← Argument.point_eq h Q]
  by_cases hpoints : ∀ p ∈ (ofChallenges Q us v).points, p ≠ 0
  · rw [run_verify h.x h.y h.G h.H hshape hpoints hdraws, combination_ofChallenges Q hus h]
    by_cases hexpected : v.point Q = expected
    · rw [if_pos (beq_iff_eq.mpr hexpected)]
      exact ⟨⟨fun _ => ⟨hpoints, hexpected.symm⟩, fun _ => rfl⟩, .inl rfl, fun _ => rfl⟩
    · rw [if_neg (by simpa using hexpected)]
      exact ⟨⟨nofun, fun hc => absurd hc.2.symm hexpected⟩, .inr rfl, fun _ => rfl⟩
  · have hrefused := verify_refused h.x h.y h.G h.H (fun hc => hpoints hc.2) expected Q t
    refine ⟨⟨fun hok => ?_, fun hc => absurd hc.1 hpoints⟩, .inr hrefused, fun hc => absurd hc hpoints⟩
    rw [hrefused] at hok
    cases hok

/-- Vectors of four entries, zeros among them. -/
def fourEntries : Argument Residue Residue :=
  ⟨[3, 5, 7, 11], [13, 17, 19, 23], [1, 2, 0, 4], [5, 6, 7, 8], [9, 0, 2, 3], [4, 5, 6, 0]⟩

/-- The proof for the four entries is accepted for the point 1823 and for no other. -/
theorem create_complete_four :
    fourEntries.HasLength (2 ^ 2) ∧
    ∃ (us : List Residue) (proof : InnerProductProof Residue Residue) (final : Residue.Transcript),
      (create 2 fourEntries).run Residue.start = (.ok proof, final) ∧
      (proof.draws (2 ^ 2)).run Residue.start = (us, final) ∧ (∀ u ∈ us, u ≠ 0) ∧
      ∀ expected : Residue, ((proof.verify (2 ^ 2) fourEntries.x fourEntries.y expected 2 fourEntries.G
        fourEntries.H).run Residue.start).1 = .ok () ↔ expected = 1823 := by
  have hlength : fourEntries.HasLength (2 ^ 2) := by constructor <;> rfl
  have hrun : ((create 2 fourEntries).run Residue.start).1.toOption.any
      (fun proof : InnerProductProof Residue Residue => proof.points.all (· != 0) &&
        ((proof.draws (F := Residue) (2 ^ 2)).run Residue.start).1.all (· != 0)) = true := by
    decide +kernel
  have hpoint : dot₃ fourEntries.a fourEntries.x fourEntries.G +
      dot₃ fourEntries.b fourEntries.y fourEntries.H +
      innerProduct fourEntries.a fourEntries.b • (2 : Residue) = 1823 := by
    decide +kernel
  obtain ⟨us, proof, final, hcreate, -, -, -, hdraws, hverify⟩ :=
    (create_complete 2 fourEntries Residue.start).1 2 hlength
  rw [hcreate, any_toOption_iff] at hrun
  obtain ⟨_, hproof, hnonzero⟩ := hrun
  obtain rfl := Except.ok.inj hproof
  rw [hdraws] at hnonzero
  simp only [Bool.and_eq_true, List.all_eq_true, bne_iff_ne] at hnonzero
  obtain ⟨hpoints, hus⟩ := hnonzero
  refine ⟨hlength, us, proof, final, hcreate, hdraws, hus, fun expected => ?_⟩
  rw [(hverify (by decide) hus expected).1, hpoint]
  exact and_iff_right hpoints

end InnerProductProof
end ConfidentialTx
