import ConfidentialTx.Proofs.Replay

/-! # Folding vectors by halves

One round of the inner-product argument folds the upper half of every vector onto the lower one.

* `FoldingScalars.factors_cons`: the verifier's factors of the generators, unfolded by one challenge;
  reversed they are their own inverses (`FoldingScalars.reverse_factors_cons`).
* `Argument.point_fold`: one round changes the point of an argument by the two points that are sent,
  with the squares of the challenge and of its inverse. -/

namespace ConfidentialTx

open Transcript

/-! ### The verifier's scalars -/

namespace FoldingScalars
variable {F : Type} [Field F]

theorem inverses_eq {before : F} {us : List F} (hb : before ≠ 0) (hu : ∀ u ∈ us, u ≠ 0) :
    inverses (before * us.prod)⁻¹ before us = us.map (·⁻¹) := by
  induction us generalizing before with
  | nil => rfl
  | cons u us ih =>
    obtain ⟨hu, hus⟩ := List.forall_mem_cons.mp hu
    have hprod : us.prod ≠ 0 := List.prod_ne_zero fun h => hus 0 h rfl
    have hassoc : before * (u * us.prod) = before * u * us.prod := (mul_assoc _ _ _).symm
    rw [inverses, List.map_cons, List.prod_cons, hassoc, ih (mul_ne_zero hb hu) hus]
    congr 1
    field_simp

theorem length_inverses (inverse before : F) (us : List F) :
    (inverses inverse before us).length = us.length := by
  induction us generalizing before with
  | nil => rfl
  | cons u us ih => simp [inverses, ih]

@[simp] theorem length_squares (us : List F) : (ofChallenges us).squares.length = us.length := by
  simp [ofChallenges]

@[simp] theorem length_inverseSquares (us : List F) :
    (ofChallenges us).inverseSquares.length = us.length := by
  simp [ofChallenges, length_inverses]

theorem squares_cons (u : F) (us : List F) :
    (ofChallenges (u :: us)).squares = u * u :: (ofChallenges us).squares := rfl

theorem inverseSquares_eq {us : List F} (hu : ∀ u ∈ us, u ≠ 0) :
    (ofChallenges us).inverseSquares = us.map fun u => u⁻¹ * u⁻¹ := by
  have h := inverses_eq one_ne_zero hu
  rw [one_mul] at h
  simp [ofChallenges, h]

/-- The list of factors, twice as long for every square. -/
def spread (squares : List F) (inverse : F) : List F :=
  squares.foldr (fun square s => s ++ s.map (· * square)) [inverse]

theorem spread_cons (square : F) (squares : List F) (inverse : F) :
    spread (square :: squares) inverse =
      spread squares inverse ++ (spread squares inverse).map (· * square) := rfl

theorem spread_mul (squares : List F) (c inverse : F) :
    spread squares (c * inverse) = (spread squares inverse).map (c * ·) := by
  induction squares with
  | nil => rfl
  | cons square squares ih =>
    rw [spread_cons, spread_cons, ih]
    simp [mul_assoc, Function.comp_def]

theorem length_spread (squares : List F) (inverse : F) :
    (spread squares inverse).length = 2 ^ squares.length := by
  induction squares with
  | nil => rfl
  | cons square squares ih =>
    rw [spread_cons, List.length_append, List.length_map, ih, List.length_cons, pow_succ, mul_two]

@[simp] theorem length_factors (us : List F) :
    (ofChallenges us).factors.length = 2 ^ us.length :=
  (length_spread _ _).trans (by simp)

@[simp] theorem factors_nil : (ofChallenges ([] : List F)).factors = [1] := by
  simp [ofChallenges]

/-- A challenge gives its inverse to the lower half of the generators and itself to the upper. -/
theorem factors_cons {u : F} (hu : u ≠ 0) (us : List F) :
    (ofChallenges (u :: us)).factors =
      (ofChallenges us).factors.map (u⁻¹ * ·) ++ (ofChallenges us).factors.map (u * ·) := by
  have hs : (ofChallenges (u :: us)).factors =
      spread (u * u :: us.map fun u => u * u) (u⁻¹ * us.prod⁻¹) := by
    rw [← mul_inv, ← List.prod_cons]
    rfl
  have ht : (ofChallenges us).factors = spread (us.map fun u => u * u) us.prod⁻¹ := rfl
  rw [hs, ht, spread_cons, spread_mul, List.map_map]
  congr 2
  funext f
  simp only [Function.comp]
  field_simp

theorem reverse_factors_cons {u : F} (hu : u ≠ 0) (us : List F) :
    (ofChallenges (u :: us)).factors.reverse =
      (ofChallenges us).factors.reverse.map (u * ·) ++
        (ofChallenges us).factors.reverse.map (u⁻¹ * ·) := by
  rw [factors_cons hu, List.reverse_append, List.map_reverse, List.map_reverse]

end FoldingScalars

/-! ### One round -/

/-- The product of two vectors of scalars with a vector of points. -/
def dot₃ {F P : Type} [Mul F] [Add P] [Zero P] [SMul F P] (as xs : List F) (ps : List P) : P :=
  dot (List.zipWith (· * ·) as xs) ps

section Dot
variable {F P : Type} [Field F] [AddCommGroup P] [Module F P]

theorem dot₃_eq_sum {n : ℕ} {as xs : List F} {ps : List P} (ha : as.length = n)
    (hx : xs.length = n) (hp : ps.length = n) :
    dot₃ as xs ps = ∑ i : Fin n, (as[i] * xs[i]) • ps[i] := by
  rw [dot₃, dot_eq_sum (n := n) (by simp [ha, hx]) hp]
  simp

theorem dot₃_halves {n : ℕ} {as xs : List F} {ps : List P} (ha : as.length = n + n)
    (hx : xs.length = n + n) (hp : ps.length = n + n) :
    dot₃ as xs ps =
      dot₃ (as.take n) (xs.take n) (ps.take n) + dot₃ (as.drop n) (xs.drop n) (ps.drop n) := by
  have h : (List.zipWith (· * ·) (as.take n) (xs.take n)).length = (ps.take n).length := by
    simp [ha, hx, hp]
  rw [dot₃, dot₃, dot₃, ← dot_append h, List.take_append_drop, ← List.zipWith_append (by simp [ha, hx]),
    List.take_append_drop, List.take_append_drop]

theorem innerProduct_halves {n : ℕ} {as bs : List F} (ha : as.length = n + n)
    (hb : bs.length = n + n) :
    innerProduct as bs =
      innerProduct (as.take n) (bs.take n) + innerProduct (as.drop n) (bs.drop n) := by
  have h : (as.take n).length = (bs.take n).length := by simp [ha, hb]
  have hsplit := dot_append (P := F) h (as.drop n) (bs.drop n)
  rwa [List.take_append_drop, List.take_append_drop] at hsplit

theorem dot₃_one (ss : List F) {xs : List F} {ps : List P} (h : ss.length = xs.length) :
    dot₃ ss (xs.map fun _ => 1) ps = dot ss ps := by
  have hzip : List.zipWith (· * ·) ss (xs.map fun _ => 1) = ss := by
    apply List.ext_getElem
    · simp [h]
    · intro i h₁ h₂
      simp
  rw [dot₃, hzip]

end Dot

namespace Argument
variable {F P : Type}

/-- All vectors have length `n`. -/
structure HasLength (v : Argument F P) (n : ℕ) : Prop where
  G : v.G.length = n
  H : v.H.length = n
  x : v.x.length = n
  y : v.y.length = n
  a : v.a.length = n
  b : v.b.length = n

theorem isBalanced_iff {v : Argument F P} {n : ℕ} (hG : v.G.length = n) :
    v.isBalanced = true ↔ v.HasLength n := by
  subst hG
  simp only [isBalanced, Bool.and_eq_true, beq_iff_eq]
  constructor
  · rintro ⟨⟨⟨⟨hH, hx⟩, hy⟩, ha⟩, hb⟩
    exact ⟨rfl, hH, hx, hy, ha, hb⟩
  · rintro ⟨-, hH, hx, hy, ha, hb⟩
    exact ⟨⟨⟨⟨hH, hx⟩, hy⟩, ha⟩, hb⟩

theorem HasLength.lower {v : Argument F P} {n m : ℕ} (h : v.HasLength n) (hm : m ≤ n) :
    (v.lower m).HasLength m := by
  constructor <;> simp [Argument.lower, h.G, h.H, h.x, h.y, h.a, h.b, hm]

theorem HasLength.upper {v : Argument F P} {n m : ℕ} (h : v.HasLength (n + m)) :
    (v.upper n).HasLength m := by
  constructor <;> simp [Argument.upper, h.G, h.H, h.x, h.y, h.a, h.b]

variable [Field F] [MultiScalar F P]

theorem HasLength.fold {lo hi : Argument F P} {n : ℕ} (hlo : lo.HasLength n) (hhi : hi.HasLength n)
    (u v : F) : (Argument.fold u v lo hi).HasLength n := by
  constructor <;>
    simp [Argument.fold, foldPoints, foldScalars, hlo.G, hlo.H, hlo.x, hlo.y, hlo.a, hlo.b, hhi.G,
      hhi.H, hhi.x, hhi.y, hhi.a, hhi.b]

variable [AddCommGroup P] [Module F P] [LawfulMultiScalar F P]

theorem combine_eq {ss ts : List F} {ps qs : List P} (hs : ss.length = ps.length)
    (ht : ts.length = qs.length) (c : F) (Q : P) :
    combine (ss ++ ts ++ [c]) (ps ++ qs ++ [Q]) = dot ss ps + dot ts qs + c • Q :=
  (((SumsTo.of_length hs).append (.of_length ht)).append (.single c Q)).combine_eq

theorem point_eq {v : Argument F P} {n : ℕ} (h : v.HasLength n) (Q : P) :
    v.point Q = dot₃ v.a v.x v.G + dot₃ v.b v.y v.H + innerProduct v.a v.b • Q :=
  combine_eq (by simp [h.a, h.x, h.G]) (by simp [h.b, h.y, h.H]) _ _

theorem cross_eq {v w : Argument F P} {n : ℕ} (hv : v.HasLength n) (hw : w.HasLength n) (Q : P) :
    v.cross Q w = dot₃ v.a w.x w.G + dot₃ w.b v.y v.H + innerProduct v.a w.b • Q :=
  combine_eq (by simp [hv.a, hw.x, hw.G]) (by simp [hw.b, hv.y, hv.H]) _ _

theorem dot_foldPoints {n : ℕ} {ss x x' : List F} {g g' : List P} (hs : ss.length = n)
    (hx : x.length = n) (hx' : x'.length = n) (hg : g.length = n) (hg' : g'.length = n) (s t : F) :
    dot ss (foldPoints s t x x' g g') = s • dot₃ ss x g + t • dot₃ ss x' g' := by
  have hlen : (foldPoints s t x x' g g').length = n := by simp [foldPoints, hx, hx', hg, hg']
  rw [dot_eq_sum hs hlen, dot₃_eq_sum hs hx hg, dot₃_eq_sum hs hx' hg', Finset.smul_sum,
    Finset.smul_sum, ← Finset.sum_add_distrib]
  refine Finset.sum_congr rfl fun i _ => ?_
  simp only [foldPoints, Fin.getElem_fin, List.getElem_zipWith, List.getElem_zip, combine_pair]
  module

omit [MultiScalar F P] [LawfulMultiScalar F P] in
theorem dot₃_foldScalars {n : ℕ} {a a' x : List F} {g : List P} (ha : a.length = n)
    (ha' : a'.length = n) (hx : x.length = n) (hg : g.length = n) (s t : F) :
    dot₃ (foldScalars s t a a') x g = s • dot₃ a x g + t • dot₃ a' x g := by
  have hlen : (foldScalars s t a a').length = n := by simp [foldScalars, ha, ha']
  rw [dot₃_eq_sum hlen hx hg, dot₃_eq_sum ha hx hg, dot₃_eq_sum ha' hx hg, Finset.smul_sum,
    Finset.smul_sum, ← Finset.sum_add_distrib]
  refine Finset.sum_congr rfl fun i _ => ?_
  simp only [foldScalars, Fin.getElem_fin, List.getElem_zipWith]
  module

omit [MultiScalar F P] [AddCommGroup P] [Module F P] [LawfulMultiScalar F P] in
theorem innerProduct_foldScalars {n : ℕ} {a a' b b' : List F} (ha : a.length = n)
    (ha' : a'.length = n) (hb : b.length = n) (hb' : b'.length = n) (s t s' t' : F) :
    innerProduct (foldScalars s t a a') (foldScalars s' t' b b') =
      s * s' * innerProduct a b + s * t' * innerProduct a b' + t * s' * innerProduct a' b +
        t * t' * innerProduct a' b' := by
  have hlen : (foldScalars s t a a').length = n := by simp [foldScalars, ha, ha']
  have hlen' : (foldScalars s' t' b b').length = n := by simp [foldScalars, hb, hb']
  rw [innerProduct_eq_sum hlen hlen', innerProduct_eq_sum ha hb, innerProduct_eq_sum ha hb',
    innerProduct_eq_sum ha' hb, innerProduct_eq_sum ha' hb']
  simp only [Finset.mul_sum, ← Finset.sum_add_distrib]
  refine Finset.sum_congr rfl fun i _ => ?_
  simp only [foldScalars, Fin.getElem_fin, List.getElem_zipWith]
  ring

/-- One round adds the points that are sent, with the squares of the challenge and its inverse. -/
theorem point_fold {v : Argument F P} {n : ℕ} (h : v.HasLength (n + n)) {u : F} (hu : u ≠ 0)
    (Q : P) :
    ((v.lower n).fold u u⁻¹ (v.upper n)).point Q =
      v.point Q + (u * u) • (v.lower n).cross Q (v.upper n) +
        (u⁻¹ * u⁻¹) • (v.upper n).cross Q (v.lower n) := by
  have hlo := h.lower (Nat.le_add_left n n)
  have hhi := h.upper
  have hfold := hlo.fold hhi u u⁻¹
  have ha : (foldScalars u u⁻¹ (v.lower n).a (v.upper n).a).length = n := hfold.a
  have hb : (foldScalars u⁻¹ u (v.lower n).b (v.upper n).b).length = n := hfold.b
  -- the folded point, with the halves of the vectors multiplied out
  rw [point_eq hfold, Argument.fold]
  simp only
  rw [dot₃_one _ (ha.trans hlo.x.symm), dot₃_one _ (hb.trans hlo.y.symm),
    dot_foldPoints ha hlo.x hhi.x hlo.G hhi.G, dot_foldPoints hb hlo.y hhi.y hlo.H hhi.H,
    dot₃_foldScalars hlo.a hhi.a hlo.x hlo.G, dot₃_foldScalars hlo.a hhi.a hhi.x hhi.G,
    dot₃_foldScalars hlo.b hhi.b hlo.y hlo.H, dot₃_foldScalars hlo.b hhi.b hhi.y hhi.H,
    innerProduct_foldScalars hlo.a hhi.a hlo.b hhi.b]
  -- the point before the round, half by half
  rw [point_eq h, cross_eq hlo hhi, cross_eq hhi hlo, dot₃_halves h.a h.x h.G,
    dot₃_halves h.b h.y h.H, innerProduct_halves h.a h.b]
  simp only [Argument.lower, Argument.upper]
  match_scalars <;> (field_simp; try ring)

end Argument
end ConfidentialTx
