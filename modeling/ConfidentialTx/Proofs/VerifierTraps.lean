import ConfidentialTx.Proofs.Equation
import ConfidentialTx.Proofs.Traps

/-! # Verifiers of range proofs that do not trap

A verifier gets lists of any lengths.  It squares challenges in their places, computes every factor of a
generator from one before it, and hands chains of iterators to two sums of products.  Here the verifiers are
written out with these steps; each is shown to be the verifier without them, as a computation that cannot trap.

* `FoldingScalars.ofChallengesTrapping_eq`: fewer than thirty-two challenges are folded without a trap.
* `InnerProductProof.verifyTrapping_eq`: the argument is verified without a trap, whatever its lists are;
  without the check of its shape there would be one (`InnerProductProof.multiscalar_iters_of_ne`).
* `RangeProof.verifyTrapping_eq`: so are range proofs, of values that a list in memory can hold. -/

namespace ConfidentialTx

open Transcript Trapping

/-! ### Folding scalars -/

namespace FoldingScalars
variable {F : Type} [Field F]

/-- The squares of `k` entries, each put in the place of its entry. -/
def squareEntries (k : ℕ) (us : List F) : Except Trap (List F) :=
  (List.range k).foldlM (fun us i => do
    let u ← entry us i
    replace us i (u * u)) us

/-- The factor of generator `i` behind those before it: the factor of the generator without the highest bit
of `i`, times the square that the bit stands for. -/
def appendFactor (squares : List F) (k : ℕ) (factors : List F) (i : ℕ) : Except Trap (List F) := do
  let position ← highestBit i
  let high ← bit position
  let last ← sub k 1
  let place ← sub last position
  let square ← entry squares place
  let lower ← sub i high
  let factor ← entry factors lower
  pure (factors ++ [factor * square])

/-- The factors of `n` generators. -/
def appendFactors (squares : List F) (k n : ℕ) (inverse : F) : Except Trap (List F) :=
  (List.range (n - 1)).foldlM (fun factors i => appendFactor squares k factors (i + 1)) [inverse]

/-- The folding scalars of `k` challenges for `n` generators. -/
def ofChallengesTrapping (k n : ℕ) (us : List F) : Except Trap (FoldingScalars F) := do
  let inverse := us.prod⁻¹
  let squares ← squareEntries k us
  let inverseSquares ← squareEntries k (inverses inverse 1 us)
  let factors ← appendFactors squares k n inverse
  pure ⟨squares, inverseSquares, factors⟩

theorem squareEntries_eq (us : List F) : squareEntries us.length us = .ok (us.map fun u => u * u) := by
  -- the entries before the position are squares, those behind it are not yet
  refine foldlM_range_eq_ok (fun i => (us.map fun u => u * u).take i ++ us.drop i) rfl (by simp) ?_
  intro i hi
  have hlength : (us.map fun u => u * u).length = us.length := List.length_map _
  have hsquare : (us.map fun u => u * u)[i]? = some (us[i] * us[i]) := by
    rw [List.getElem?_map, List.getElem?_eq_getElem hi, Option.map_some]
  rw [entry_take_append_drop hlength hi]
  exact replace_take_append_drop hi hsquare

/-- A factor behind the first one is the factor without the highest bit, times a square. -/
theorem exists_factor {squares : List F} (inverse : F) {i : ℕ} (hpos : i ≠ 0)
    (hi : i < 2 ^ squares.length) : ∃ factor square,
      (spread squares inverse)[i - 2 ^ i.log2]? = some factor ∧
      squares[squares.length - 1 - i.log2]? = some square ∧
      (spread squares inverse)[i]? = some (factor * square) := by
  have hle : 2 ^ i.log2 ≤ i := Nat.log2_self_le hpos
  induction squares with
  | nil => exact absurd hi (by simpa using hpos)
  | cons square squares ih =>
    have hlength := length_spread squares inverse
    rw [List.length_cons] at hi
    rw [spread_cons, List.length_cons]
    rcases Nat.lt_or_ge i (2 ^ squares.length) with hlow | hhigh
    · -- both entries stand in the lower half
      obtain ⟨factor, square', hfactor, hsquare, hproduct⟩ := ih hlow
      have hlog : i.log2 < squares.length := (Nat.log2_lt hpos).mpr hlow
      have hbefore : i - 2 ^ i.log2 < (spread squares inverse).length := by
        rw [hlength]
        exact (Nat.sub_le _ _).trans_lt hlow
      have hplace : squares.length + 1 - 1 - i.log2 = squares.length - 1 - i.log2 + 1 := by omega
      refine ⟨factor, square', ?_, ?_, ?_⟩
      · rw [List.getElem?_append_left hbefore, hfactor]
      · rw [hplace, List.getElem?_cons_succ, hsquare]
      · rw [List.getElem?_append_left (by rwa [hlength]), hproduct]
    · -- the entry is the one of the lower half in its place, times the square of the halves
      rw [pow_succ] at hi
      have hlog : i.log2 = squares.length := by
        rw [Nat.log2_eq_iff hpos, pow_succ]
        exact ⟨hhigh, hi⟩
      have hlow : i - 2 ^ squares.length < (spread squares inverse).length := by omega
      refine ⟨(spread squares inverse)[i - 2 ^ squares.length], square, ?_, ?_, ?_⟩
      · rw [hlog, List.getElem?_append_left hlow, List.getElem?_eq_getElem hlow]
      · rw [hlog, Nat.add_sub_cancel, Nat.sub_self, List.getElem?_cons_zero]
      · rw [List.getElem?_append_right (by omega), hlength, List.getElem?_map,
          List.getElem?_eq_getElem hlow, Option.map_some]

theorem take_one_spread (squares : List F) (inverse : F) : (spread squares inverse).take 1 = [inverse] := by
  induction squares with
  | nil => rfl
  | cons square squares ih =>
    have hpos : 1 ≤ (spread squares inverse).length := (length_spread squares inverse) ▸ Nat.one_le_two_pow
    rw [spread_cons, List.take_append_of_le_length hpos, ih]

/-- No step of the factors traps, for as many squares as the positions of a word of thirty-two bits. -/
theorem appendFactors_eq (squares : List F) (hlength : squares.length < 32) (inverse : F) :
    appendFactors squares squares.length (2 ^ squares.length) inverse = .ok (spread squares inverse) := by
  have hall := length_spread squares inverse
  have hpos : 0 < 2 ^ squares.length := Nat.two_pow_pos _
  have hword : 2 ^ squares.length ≤ 2 ^ 31 :=
    Nat.pow_le_pow_right (Nat.succ_pos 1) (Nat.le_of_lt_succ hlength)
  refine foldlM_range_eq_ok (fun j => (spread squares inverse).take (j + 1))
    (take_one_spread squares inverse) ?_ fun j hj => ?_
  · rw [Nat.sub_add_cancel hpos, ← hall, List.take_length]
  · have hne : j + 1 ≠ 0 := j.succ_ne_zero
    have hi : j + 1 < 2 ^ squares.length := by omega
    have hle : 2 ^ (j + 1).log2 ≤ j + 1 := Nat.log2_self_le hne
    have hhigh : 0 < 2 ^ (j + 1).log2 := Nat.two_pow_pos _
    have hlog : (j + 1).log2 < squares.length := (Nat.log2_lt hne).mpr hi
    obtain ⟨factor, square, hfactor, hsquare, hproduct⟩ := exists_factor inverse hne hi
    have hbefore : ((spread squares inverse).take (j + 1))[j + 1 - 2 ^ (j + 1).log2]? = some factor := by
      rw [List.getElem?_take_of_lt (by omega), hfactor]
    obtain ⟨hin, hvalue⟩ := List.getElem?_eq_some_iff.mp hproduct
    have hposition : highestBit (j + 1) = .ok (j + 1).log2 := highestBit_eq hne (by omega)
    have hlast : sub squares.length 1 = .ok (squares.length - 1) := sub_eq (by omega)
    have hplace : sub (squares.length - 1) (j + 1).log2 = .ok (squares.length - 1 - (j + 1).log2) :=
      sub_eq (by omega)
    simp only [appendFactor, hposition, bit_eq (hlog.trans (by omega)), hlast, hplace,
      entry_eq_ok_iff.mpr hsquare, sub_eq hle, entry_eq_ok_iff.mpr hbefore, bind, Except.bind]
    refine congrArg Except.ok ?_
    rw [List.take_succ_eq_append_getElem hin, hvalue]

theorem ofChallengesTrapping_eq {us : List F} (hlength : us.length < 32) :
    ofChallengesTrapping us.length (2 ^ us.length) us = .ok (ofChallenges us) := by
  have hinverses := squareEntries_eq (inverses us.prod⁻¹ 1 us)
  have hfactors := appendFactors_eq (us.map fun u => u * u) (by simpa using hlength) us.prod⁻¹
  rw [length_inverses] at hinverses
  rw [List.length_map] at hfactors
  rw [ofChallengesTrapping]
  simp only [squareEntries_eq, hinverses, hfactors, bind, Except.bind]
  rfl

end FoldingScalars

variable {F P T : Type} [Field F] [ScalarEncoding F] [PointEncoding P] [Zero P] [BEq P] [Transcript T]

/-! ### Replayed inner-product arguments -/

namespace InnerProductProof

/-- The challenges of a proof for vectors of length `n`, with their folding scalars. -/
def scalarsTrapping (proof : InnerProductProof F P) (n : ℕ) :
    Trapping T RangeProofError (List F × FoldingScalars F) := do
  let k := proof.L.length
  unless k < 32 && proof.R.length == k do throw .verificationError
  let size ← step (bit k)
  unless n == size do throw .verificationError
  safe (absorbInnerProduct (T := T) n)
  let us ← safe ((proof.L.zip proof.R).mapM replayRound)
  let folding ← step (FoldingScalars.ofChallengesTrapping k n us)
  pure (us, folding)

theorem scalarsTrapping_eq (proof : InnerProductProof F P) (n : ℕ) :
    (proof.scalarsTrapping n : Trapping T RangeProofError (List F × FoldingScalars F)) =
      safe (do
        let us ← proof.replay n
        pure (us, FoldingScalars.ofChallenges us)) := by
  unfold scalarsTrapping replay
  by_cases hshape : (decide (proof.L.length < 32) && proof.R.length == proof.L.length) = true
  · rw [if_pos hshape, if_pos hshape]
    rw [Bool.and_eq_true, decide_eq_true_eq, beq_iff_eq] at hshape
    obtain ⟨hlt, hR⟩ := hshape
    rw [bit_eq (hlt.trans (by decide)), step_ok, pure_bind, Nat.one_shiftLeft]
    by_cases hn : (n == 2 ^ proof.L.length) = true
    · rw [if_pos hn, if_pos hn]
      obtain rfl := beq_iff_eq.mp hn
      simp only [bind_assoc, safe_bind]
      refine bind_congr fun _ => safe_bind_congr fun us t t' hrun => ?_
      have hlength : us.length = proof.L.length := by
        rw [← (forall₂_of_mapM hrun).length_eq, List.length_zip, hR, Nat.min_self]
      rw [← hlength] at hlt ⊢
      rw [FoldingScalars.ofChallengesTrapping_eq hlt, step_ok, pure_bind, safe_pure]
    · rw [if_neg hn, if_neg hn]
      rfl
  · rw [if_neg hshape, if_neg hshape]
    rfl

omit [Field F] in
theorem hasShape_of_replay {proof : InnerProductProof F P} {n : ℕ} {us : List F} {t t' : T}
    (h : (proof.replay n).run t = (.ok us, t')) : proof.HasShape n ∧ us.length = proof.L.length := by
  unfold replay at h
  by_cases hshape : (decide (proof.L.length < 32) && proof.R.length == proof.L.length) = true
  · rw [if_pos hshape] at h
    rw [Bool.and_eq_true, decide_eq_true_eq, beq_iff_eq] at hshape
    obtain ⟨hlt, hR⟩ := hshape
    by_cases hn : (n == 1 <<< proof.L.length) = true
    · rw [if_pos hn] at h
      obtain ⟨-, t₁, -, hrounds⟩ := run_bind_eq_ok.mp h
      have hlength : us.length = proof.L.length := by
        rw [← (forall₂_of_mapM hrounds).length_eq, List.length_zip, hR, Nat.min_self]
      exact ⟨⟨hlt, hR, (beq_iff_eq.mp hn).trans (Nat.one_shiftLeft _)⟩, hlength⟩
    · rw [if_neg hn] at h
      cases h
  · rw [if_neg hshape] at h
    cases h

omit [Field F] [ScalarEncoding F] [PointEncoding P] [Zero P] [BEq P] in
theorem HasShape.le_word {proof : InnerProductProof F P} {n : ℕ} (h : proof.HasShape n) : n ≤ 2 ^ 31 := by
  rw [h.length_eq]
  exact Nat.pow_le_pow_right (Nat.succ_pos 1) (Nat.le_of_lt_succ h.rounds_lt)

/-! ### The sum of the inner-product argument -/

section Iterators
omit [ScalarEncoding F] [PointEncoding P] [Zero P] [BEq P]

/-- The scalars of the point that a proof is for, one kind behind the other. -/
def scalarsIter (proof : InnerProductProof F P) (x y : List F) (folding : FoldingScalars F) : Iter F :=
  Iter.chained (.once (proof.a * proof.b))
    [((Iter.ofList x).zip (.ofList folding.factors)).map fun (x, s) => proof.a * s * x,
      ((Iter.ofList y).zip (Iter.ofList folding.factors).rev).map fun (y, s) => proof.b * s * y,
      (Iter.ofList folding.squares).map (-·),
      (Iter.ofList folding.inverseSquares).map (-·)]

/-- The points that go with them. -/
def pointsIter (proof : InnerProductProof F P) (Q : P) (G H : List P) : Iter P :=
  Iter.chained (.once Q) [.ofList G, .ofList H, .ofList proof.L, .ofList proof.R]

variable {n : ℕ} {x y us : List F} {G H : List P}

theorem length_pointScalars (proof : InnerProductProof F P) (hus : 2 ^ us.length = n) (hx : x.length = n)
    (hy : y.length = n) : (proof.pointScalars x y us).length = 1 + n + n + us.length + us.length := by
  simp only [pointScalars, List.length_append, List.length_singleton, List.length_zipWith, List.length_map,
    List.length_reverse, FoldingScalars.length_factors, FoldingScalars.length_squares,
    FoldingScalars.length_inverseSquares, hx, hy, hus, Nat.min_self]

omit [Field F] in
theorem length_pointBases (proof : InnerProductProof F P) (Q : P) (hG : G.length = n) (hH : H.length = n) :
    (proof.pointBases Q G H).length = 1 + n + n + proof.L.length + proof.R.length := by
  simp only [pointBases, List.length_append, List.length_singleton, hG, hH]

theorem scalarsIter_eq {proof : InnerProductProof F P} (hfew : (proof.pointScalars x y us).length < 2 ^ 64) :
    proof.scalarsIter x y (.ofChallenges us) = .ofList (proof.pointScalars x y us) := by
  simp only [scalarsIter, Iter.rev_ofList, Iter.map_zip_ofList, Iter.map_ofList]
  exact Iter.chained_ofList [_, _, _, _] hfew

omit [Field F] in
theorem pointsIter_eq {proof : InnerProductProof F P} {Q : P}
    (hfew : (proof.pointBases Q G H).length < 2 ^ 64) :
    proof.pointsIter Q G H = .ofList (proof.pointBases Q G H) :=
  Iter.chained_ofList [_, _, _, _] hfew

variable [MultiScalar F P] {proof : InnerProductProof F P}

theorem multiscalar_iters (Q : P) (hshape : proof.HasShape n) (hus : us.length = proof.L.length)
    (hx : x.length = n) (hy : y.length = n) (hG : G.length = n) (hH : H.length = n) :
    Iter.multiscalar (proof.scalarsIter x y (.ofChallenges us)) (proof.pointsIter Q G H) =
      .ok (combine (proof.pointScalars x y us) (proof.pointBases Q G H)) := by
  have hn : n ≤ 2 ^ 31 := hshape.le_word
  have hrounds := hshape.rounds_lt
  have hR := hshape.length_R
  have hscalars := proof.length_pointScalars (by rw [hus, hshape.length_eq]) hx hy
  have hbases := proof.length_pointBases Q hG hH
  rw [scalarsIter_eq (by omega), pointsIter_eq (by omega), Iter.multiscalar_ofList (by omega)]

/-- A verifier has to check the shape: with any other number of points on the right, the sum would trap. -/
theorem multiscalar_iters_of_ne (Q : P) (hpow : 2 ^ us.length = n) (hus : us.length = proof.L.length)
    (hL : proof.L.length < 32) (hR : proof.R.length < 2 ^ 57) (hne : proof.R.length ≠ proof.L.length)
    (hx : x.length = n) (hy : y.length = n) (hG : G.length = n) (hH : H.length = n) :
    Iter.multiscalar (proof.scalarsIter x y (.ofChallenges us)) (proof.pointsIter Q G H) =
      .error .lengths := by
  have hn : n ≤ 2 ^ 31 := by
    rw [← hpow, hus]
    exact Nat.pow_le_pow_right (Nat.succ_pos 1) (Nat.le_of_lt_succ hL)
  have hscalars := proof.length_pointScalars hpow hx hy
  have hbases := proof.length_pointBases Q hG hH
  rw [scalarsIter_eq (by omega), pointsIter_eq (by omega), Iter.multiscalar_ofList_of_ne (by omega)]

end Iterators

/-! ### The verifier of the inner-product argument -/

variable [MultiScalar F P]

/-- Checks a proof for the point `expected` over generators and factors of length `n`. -/
def verifyTrapping (proof : InnerProductProof F P) (n : ℕ) (x y : List F) (expected Q : P)
    (G H : List P) : Trapping T RangeProofError Unit := do
  unless x.length == n && y.length == n && G.length == n && H.length == n do
    throw (.invalidInnerProductInput n)
  let (_, folding) ← proof.scalarsTrapping n
  let sum ← step (Iter.multiscalar (proof.scalarsIter x y folding) (proof.pointsIter Q G H))
  unless sum == expected do throw .verificationError

theorem verifyTrapping_eq (proof : InnerProductProof F P) (n : ℕ) (x y : List F) (expected Q : P)
    (G H : List P) : (proof.verifyTrapping n x y expected Q G H : Trapping T RangeProofError Unit) =
      safe (proof.verify n x y expected Q G H) := by
  unfold verifyTrapping verify
  by_cases hlengths : (x.length == n && y.length == n && G.length == n && H.length == n) = true
  · rw [if_pos hlengths, if_pos hlengths]
    simp only [Bool.and_eq_true, beq_iff_eq] at hlengths
    obtain ⟨⟨⟨hx, hy⟩, hG⟩, hH⟩ := hlengths
    simp only [scalarsTrapping_eq, safe_bind, bind_assoc]
    refine safe_bind_congr fun us t t' hrun => ?_
    obtain ⟨hshape, hus⟩ := hasShape_of_replay hrun
    rw [safe_pure, pure_bind]
    simp only [multiscalar_iters Q hshape hus hx hy hG hH, step_ok, pure_bind]
    by_cases hsum : (combine (proof.pointScalars x y us) (proof.pointBases Q G H) == expected) = true
    · rw [if_pos hsum, if_pos hsum, safe_pure]
    · rw [if_neg hsum, if_neg hsum]
      rfl
  · rw [if_neg hlengths, if_neg hlengths]
    rfl

end InnerProductProof

/-! ### The range proof -/

omit [PointEncoding P] [Zero P] [BEq P] in
theorem ParametersFit.size_lt {gens : Generators P} {n m : ℕ} (h : ParametersFit gens n m)
    (hm : m < 2 ^ 57) : n * m < 2 ^ 63 := by
  have hn : n ≤ 64 := by
    rcases h.bits with rfl | rfl | rfl | rfl <;> decide
  calc n * m ≤ 64 * m := Nat.mul_le_mul_right m hn
    _ < 2 ^ 63 := by omega

/-- The part of `t(0)` that the challenges fix. -/
def deltaTrapping (n m : ℕ) (y z : F) : Except Trap F := do
  let size ← mul n m
  pure ((z - z * z) * powerSum y size - z * z * z * powerSum ((2 : ℕ) : F) n * powerSum z m)

namespace RangeProof

section Replay

/-- The challenges before the inner-product argument, with none of the argument. -/
def replayOuter (proof : RangeProof F P) (n : ℕ) (values : List P) :
    ExceptT RangeProofError (StateM T) (Challenges F) := do
  absorbRange (T := T) n values.length
  values.forM fun V => absorbPoint (T := T) "V" V
  absorbNonzero "A" proof.A
  absorbNonzero "S" proof.S
  let y ← challenge (T := T) (F := F) "y"
  let z ← challenge (T := T) (F := F) "z"
  absorbNonzero "T_1" proof.T₁
  absorbNonzero "T_2" proof.T₂
  let x ← challenge (T := T) (F := F) "x"
  absorbScalar (T := T) "t_x" proof.tx
  absorbScalar (T := T) "t_x_blinding" proof.txBlinding
  absorbScalar (T := T) "e_blinding" proof.eBlinding
  let w ← challenge (T := T) (F := F) "w"
  pure ⟨y, z, x, w, []⟩

/-- The challenges of a proof with their folding scalars, if the parameters are possible and no point that is
sent is zero. -/
def prepareTrapping (proof : RangeProof F P) (gens : Generators P) (n : ℕ) (values : List P) :
    Trapping T RangeProofError (Challenges F × FoldingScalars F) := do
  check (.ok (checkParameters gens n values.length))
  let ch ← safe (proof.replayOuter n values)
  let size ← step (mul n values.length)
  let (us, folding) ← proof.inner.scalarsTrapping size
  pure ({ ch with us := us }, folding)

omit [Field F] in
theorem replay_eq (proof : RangeProof F P) (n : ℕ) (values : List P) :
    (proof.replay n values : ExceptT RangeProofError (StateM T) (Challenges F)) = (do
      let ch ← proof.replayOuter n values
      let us ← proof.inner.replay (n * values.length)
      pure { ch with us := us }) := by
  simp only [replay, replayOuter, bind_assoc, pure_bind]

theorem prepareTrapping_eq (proof : RangeProof F P) (gens : Generators P) (n : ℕ) {values : List P}
    (hsmall : min gens.parties values.length < 2 ^ 57) :
    (proof.prepareTrapping gens n values : Trapping T RangeProofError (Challenges F × FoldingScalars F)) =
      safe (do
        let ch ← proof.prepare gens n values
        pure (ch, FoldingScalars.ofChallenges ch.us)) := by
  simp only [prepareTrapping, prepare, check_ok, replay_eq, safe_bind, bind_assoc]
  refine safe_bind_congr fun _ t t' hrun => ?_
  have hfit := checkParameters_eq_ok_iff.mp (Prod.mk.inj hrun).1
  have hvalues : values.length < 2 ^ 57 := (Nat.min_eq_right hfit.parties).symm.trans_lt hsmall
  refine bind_congr fun ch => ?_
  rw [mul_eq ((hfit.size_lt hvalues).trans (by decide)), step_ok, pure_bind]
  simp only [InnerProductProof.scalarsTrapping_eq, safe_bind, bind_assoc]
  rfl

omit [Field F] in
theorem hasShape_of_prepare {proof : RangeProof F P} {gens : Generators P} {n : ℕ} {values : List P}
    {ch : Challenges F} {t t' : T} (h : (proof.prepare gens n values).run t = (.ok ch, t')) :
    ParametersFit gens n values.length ∧ proof.inner.HasShape (n * values.length) ∧
      ch.us.length = proof.inner.L.length := by
  obtain ⟨⟨⟩, t₁, hparams, h⟩ := run_bind_eq_ok.mp h
  rw [replay_eq] at h
  obtain ⟨outer, t₂, -, h⟩ := run_bind_eq_ok.mp h
  obtain ⟨us, t₃, hreplay, h⟩ := run_bind_eq_ok.mp h
  obtain rfl := Except.ok.inj (Prod.mk.inj h).1
  exact ⟨checkParameters_eq_ok_iff.mp (Prod.mk.inj hparams).1, InnerProductProof.hasShape_of_replay hreplay⟩

end Replay

/-! ### The equation of the range proof -/

section Equation
omit [ScalarEncoding F] [PointEncoding P] [Zero P] [BEq P]

/-- The scalars of the equation under the weight `c`, with the scalar `value` of the point of values. -/
def scalarsIter (proof : RangeProof F P) (n m : ℕ) (ch : Challenges F) (folding : FoldingScalars F)
    (c value : F) : Iter F :=
  let s := Iter.ofList folding.factors
  let zz := ch.z * ch.z
  let bits := (powers ch.z m).flatMap fun zj => (powers ((2 : ℕ) : F) n).map (· * zj)
  Iter.chained (.once 1)
    [.once ch.x, .once (c * ch.x), .once (c * ch.x * ch.x),
      .ofList folding.squares,
      .ofList folding.inverseSquares,
      .once (-proof.eBlinding - c * proof.txBlinding),
      .once value,
      s.map fun si => -ch.z - proof.inner.a * si,
      ((s.rev.zipPowers ch.y⁻¹).zip (.ofList bits)).map fun ((si, yi), zb) =>
        ch.z + yi * (zz * zb - proof.inner.b * si),
      (Iter.powers ch.z m).map fun zj => c * zz * zj]

/-- The points of the equation. -/
def pointsIter (proof : RangeProof F P) (gens : Generators P) (key : CommitmentKey P) (n : ℕ)
    (values : List P) : Iter P :=
  Iter.chained (.once proof.A)
    [.once proof.S, .once proof.T₁, .once proof.T₂,
      .ofList proof.inner.L,
      .ofList proof.inner.R,
      .once key.blinding,
      .once key.value,
      .ofCursor (.start gens .G n values.length),
      .ofCursor (.start gens .H n values.length),
      .ofList values]

theorem length_rightScalars (proof : RangeProof F P) {n m : ℕ} (ch : Challenges F) {s : List F}
    (hs : s.length = n * m) : (proof.rightScalars n m ch s).length = n * m := by
  rw [rightScalars_eq, List.length_zipWith, length_offsetScalars]
  simp [InnerProductProof.scale, hs]

theorem scalarsIter_eq (proof : RangeProof F P) {n m : ℕ} {ch : Challenges F} (c : F)
    (hs : (FoldingScalars.ofChallenges ch.us).factors.length = n * m) (hm : m < 2 ^ 64)
    (hfew : (proof.equationScalars n m ch c).length < 2 ^ 64) (hsize : n * m < 2 ^ 64) :
    proof.scalarsIter n m ch (.ofChallenges ch.us) c (proof.valueScalar n m ch c) =
      .ofList (proof.equationScalars n m ch c) := by
  have hreverse : (FoldingScalars.ofChallenges ch.us).factors.reverse.length = n * m := by
    rw [List.length_reverse, hs]
  simp only [scalarsIter, Iter.rev_ofList, Iter.zipPowers_ofList _ (hreverse.trans_lt hsize), hreverse,
    Iter.map_zip_ofList, Iter.powers_eq _ hm, Iter.map_ofList]
  exact Iter.chained_ofList [_, _, _, _, _, _, _, _, _, _] hfew

omit [Field F] in
theorem pointsIter_eq (proof : RangeProof F P) {gens : Generators P} (key : CommitmentKey P) {n : ℕ}
    {values : List P} (hfit : ParametersFit gens n values.length) (hsize : n * values.length < 2 ^ 64)
    (hfew : (proof.equationPoints gens key n values).length < 2 ^ 64) :
    proof.pointsIter gens key n values = .ofList (proof.equationPoints gens key n values) := by
  simp only [pointsIter, Iter.ofCursor_start hfit.capacity hfit.parties hsize]
  exact Iter.chained_ofList [_, _, _, _, _, _, _, _, _, _] hfew

end Equation

/-! ### The verifier of the range proof -/

variable [MultiScalar F P]

/-- Whether the equation holds. -/
def equationTrapping (proof : RangeProof F P) (gens : Generators P) (key : CommitmentKey P) (n : ℕ)
    (values : List P) (ch : Challenges F) (folding : FoldingScalars F) (c : F) : Except Trap Bool := do
  let m := values.length
  let delta ← deltaTrapping n m ch.y ch.z
  let value := ch.w * (proof.tx - proof.inner.a * proof.inner.b) + c * (delta - proof.tx)
  let sum ← Iter.multiscalar (proof.scalarsIter n m ch folding c value)
    (proof.pointsIter gens key n values)
  pure (sum == 0)

/-- Verifies a proof; the weight is drawn when the challenges are there, and not before. -/
def verifyTrapping (proof : RangeProof F P) (gens : Generators P) (key : CommitmentKey P) (n : ℕ)
    (values : List P) (t : T) (source : RandomSource) :
    Except Trap (Except RangeProofError Unit × T × RandomSource) := do
  match ← (proof.prepareTrapping gens n values).run t with
  | (.error e, t) => pure (.error e, t, source)
  | (.ok (ch, folding), t) =>
    let (c, source) := RandomSource.scalar.run source
    let holds ← proof.equationTrapping gens key n values ch folding c
    pure (if holds then .ok () else .error .verificationError, t, source)

omit [ScalarEncoding F] [PointEncoding P] in
theorem equationTrapping_eq (proof : RangeProof F P) {gens : Generators P} (key : CommitmentKey P) {n : ℕ}
    {values : List P} {ch : Challenges F} (c : F) (hfit : ParametersFit gens n values.length)
    (hshape : proof.inner.HasShape (n * values.length)) (hus : ch.us.length = proof.inner.L.length) :
    proof.equationTrapping gens key n values ch (.ofChallenges ch.us) c =
      .ok (proof.equationHolds gens key n values ch c) := by
  have hsize : n * values.length ≤ 2 ^ 31 := hshape.le_word
  have hword : n * values.length < 2 ^ 64 := by omega
  have hvalues : values.length ≤ n * values.length := by
    refine Nat.le_mul_of_pos_left _ ?_
    rcases hfit.bits with rfl | rfl | rfl | rfl <;> decide
  have hrounds := hshape.rounds_lt
  have hs : (FoldingScalars.ofChallenges ch.us).factors.length = n * values.length := by
    rw [FoldingScalars.length_factors, hus, ← hshape.length_eq]
  have hscalars : (proof.equationScalars n values.length ch c).length =
      4 + proof.inner.L.length + proof.inner.L.length + 1 + 1 + n * values.length + n * values.length +
        values.length := by
    simp only [equationScalars, leftScalars, List.length_append, List.length_cons, List.length_nil,
      List.length_map, FoldingScalars.length_squares, FoldingScalars.length_inverseSquares,
      length_rightScalars proof ch hs, length_powers, hs, hus]
  have hpoints : (proof.equationPoints gens key n values).length =
      4 + proof.inner.L.length + proof.inner.L.length + 1 + 1 + n * values.length + n * values.length +
        values.length := by
    simp only [equationPoints, List.length_append, List.length_cons, List.length_nil,
      Generators.length_vector hfit.capacity hfit.parties, hshape.length_R]
  have hfew : (proof.equationScalars n values.length ch c).length < 2 ^ 64 := by omega
  have hiter := proof.scalarsIter_eq c hs (by omega) hfew hword
  have hiter' := proof.pointsIter_eq key hfit hword (hpoints.trans_lt (hscalars.symm.trans_lt hfew))
  have hsum := Iter.multiscalar_ofList (hscalars.trans hpoints.symm)
  rw [← hiter, ← hiter'] at hsum
  simp only [equationTrapping, deltaTrapping, mul_eq hword, bind, Except.bind]
  exact congrArg (Except.map (· == 0)) hsum

/-- No proof makes the verifier trap, if a list in memory holds the values or the rows of the table. -/
theorem verifyTrapping_eq (proof : RangeProof F P) (gens : Generators P) (key : CommitmentKey P) (n : ℕ)
    {values : List P} (hsmall : min gens.parties values.length < 2 ^ 57) (t : T) (source : RandomSource) :
    proof.verifyTrapping gens key n values t source = .ok (proof.verify gens key n values t source) := by
  rw [verifyTrapping, verify, prepareTrapping_eq proof gens n hsmall, run_safe]
  rcases hprepare : (proof.prepare gens n values).run t with ⟨e | ch, t'⟩
  · rw [run_bind_of_error hprepare]
    rfl
  · obtain ⟨hfit, hshape, hus⟩ := hasShape_of_prepare hprepare
    rw [run_bind_of_ok hprepare]
    simp only [run_pure, bind, Except.bind, proof.equationTrapping_eq key _ hfit hshape hus]
    rfl

end RangeProof

end ConfidentialTx
