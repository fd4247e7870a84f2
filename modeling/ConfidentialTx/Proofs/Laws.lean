import Mathlib
import ConfidentialTx.Range.Vector
import ConfidentialTx.Pedersen

/-! # Laws of scalars and points

The protocols are proved over a field `F` of scalars and a module `P` of points over it.  Two things
remain to be said about the classes of `Group.lean`:

* `LawfulMultiScalar`: a combination of lists of one length is the sum of the products (`dot`); of
  lists of different lengths nothing is known;
* `LawfulScalarEncoding`, `LawfulPointEncoding`: encodings have thirty-two bytes and are read back,
  and every scalar is the residue of some draw.

The rest of the module is the arithmetic of `dot`: it is additive in the scalars, splits along
appended and concatenated lists, and is an indexed sum (`dot_eq_sum`).  A combination that is written
as appended lists is evaluated piece by piece by `SumsTo.append`. -/

namespace ConfidentialTx

/-- The sum of the products of scalars and points in corresponding places. -/
def dot {F P : Type} [Add P] [Zero P] [SMul F P] (ss : List F) (ps : List P) : P :=
  (List.zipWith (· • ·) ss ps).sum

/-- A combination of lists of one length is the sum of the products. -/
class LawfulMultiScalar (F P : Type) [Semiring F] [AddCommMonoid P] [Module F P]
    [MultiScalar F P] : Prop where
  combine_eq_dot : ∀ (ss : List F) (ps : List P), ss.length = ps.length → combine ss ps = dot ss ps

/-- Encoded scalars have thirty-two bytes and are read back, and every scalar can be drawn. -/
class LawfulScalarEncoding (F : Type) [ScalarEncoding F] : Prop where
  length_encode : ∀ s : F, (ScalarEncoding.encode s).length = 32
  decode_encode : ∀ s : F, ScalarEncoding.decode (ScalarEncoding.encode s) = some s
  /-- Every scalar is the residue of sixty-four bytes. -/
  exists_ofBytes : ∀ s : F, ∃ bs : Bytes, bs.length = 64 ∧ ScalarEncoding.ofBytes bs = s

/-- Encoded points have thirty-two bytes and are read back. -/
class LawfulPointEncoding (P : Type) [PointEncoding P] : Prop where
  length_encode : ∀ p : P, (PointEncoding.encode p).length = 32
  decode_encode : ∀ p : P, PointEncoding.decode (PointEncoding.encode p) = some p

export LawfulMultiScalar (combine_eq_dot)

theorem encode_point_injective {P : Type} [PointEncoding P] [LawfulPointEncoding P] :
    Function.Injective (PointEncoding.encode : P → Bytes) := by
  intro p q h
  have hp := LawfulPointEncoding.decode_encode p
  rw [h, LawfulPointEncoding.decode_encode] at hp
  exact (Option.some.inj hp).symm

section Dot
variable {F P : Type} [Field F] [AddCommGroup P] [Module F P]

@[simp] theorem dot_nil (ps : List P) : dot ([] : List F) ps = 0 := rfl

@[simp] theorem dot_cons (s : F) (ss : List F) (p : P) (ps : List P) :
    dot (s :: ss) (p :: ps) = s • p + dot ss ps := by
  simp [dot]

theorem combine_pair [MultiScalar F P] [LawfulMultiScalar F P] (s t : F) (p q : P) :
    combine [s, t] [p, q] = s • p + t • q := by
  rw [combine_eq_dot [s, t] [p, q] rfl]
  simp

theorem CommitmentKey.commit_eq [MultiScalar F P] [LawfulMultiScalar F P] (key : CommitmentKey P)
    (value blinding : F) : key.commit value blinding = value • key.value + blinding • key.blinding :=
  combine_pair value blinding key.value key.blinding

theorem commitAmount_eq [MultiScalar F P] [LawfulMultiScalar F P] [PointEncoding P] [PointHash P]
    [BasePoint P] (amount : UInt64) (blinding : F) :
    commitAmount amount blinding = (amount.toNat : F) • imageBase (base : P) + blinding • base :=
  CommitmentKey.commit_eq _ _ _

theorem dot_append {ss : List F} {ps : List P} (h : ss.length = ps.length) (ss' : List F)
    (ps' : List P) : dot (ss ++ ss') (ps ++ ps') = dot ss ps + dot ss' ps' := by
  rw [dot, List.zipWith_append h, List.sum_append]
  rfl

theorem dot_eq_sum {n : ℕ} {ss : List F} {ps : List P} (hs : ss.length = n) (hp : ps.length = n) :
    dot ss ps = ∑ i : Fin n, ss[i] • ps[i] := by
  subst hs
  rw [dot, ← List.sum_ofFn]
  congr 1
  apply List.ext_getElem
  · simp [hp]
  · intro i h₁ h₂
    simp

theorem dot_replicate (c : F) (ps : List P) : dot (List.replicate ps.length c) ps = c • ps.sum := by
  induction ps with
  | nil => simp
  | cons p ps ih => rw [List.length_cons, List.replicate_succ, dot_cons, ih, List.sum_cons, smul_add]

theorem dot_of_forall_zero (ss : List F) {ps : List P} (h : ∀ p ∈ ps, p = 0) : dot ss ps = 0 := by
  induction ps generalizing ss with
  | nil => cases ss <;> rfl
  | cons p ps ih =>
    rw [List.forall_mem_cons] at h
    cases ss with
    | nil => rfl
    | cons s ss => rw [dot_cons, h.1, ih ss h.2, smul_zero, add_zero]

theorem dot_map_mul (c : F) (ss : List F) (ps : List P) : dot (ss.map (c * ·)) ps = c • dot ss ps := by
  simp only [dot, List.zipWith_map_left, mul_smul, List.smul_sum, List.map_zipWith]

theorem dot_map_neg (ss : List F) (ps : List P) : dot (ss.map (-·)) ps = -dot ss ps := by
  have h : ss.map (-·) = ss.map ((-1 : F) * ·) := by simp
  rw [h, dot_map_mul, neg_one_smul]

theorem dot_zipWith_sub {n : ℕ} {ss ts : List F} {ps : List P} (hs : ss.length = n)
    (ht : ts.length = n) (hp : ps.length = n) :
    dot (List.zipWith (· - ·) ss ts) ps = dot ss ps - dot ts ps := by
  rw [dot_eq_sum (n := n) (by simp [hs, ht]) hp, dot_eq_sum hs hp, dot_eq_sum ht hp,
    ← Finset.sum_sub_distrib]
  simp [sub_smul]

/-- Two lists of one length whose products sum to `p`: the terms of a combination with the value
`p`. -/
structure SumsTo (ss : List F) (ps : List P) (p : P) : Prop where
  length_eq : ss.length = ps.length
  dot_eq : dot ss ps = p

namespace SumsTo

theorem of_length {ss : List F} {ps : List P} (h : ss.length = ps.length) : SumsTo ss ps (dot ss ps) :=
  ⟨h, rfl⟩

theorem single (s : F) (p : P) : SumsTo [s] [p] (s • p) := ⟨rfl, by simp⟩

theorem append {ss ss' : List F} {ps ps' : List P} {p p' : P} (h : SumsTo ss ps p)
    (h' : SumsTo ss' ps' p') : SumsTo (ss ++ ss') (ps ++ ps') (p + p') := by
  refine ⟨?_, ?_⟩
  · rw [List.length_append, List.length_append, h.length_eq, h'.length_eq]
  · rw [dot_append h.length_eq, h.dot_eq, h'.dot_eq]

theorem combine_eq [MultiScalar F P] [LawfulMultiScalar F P] {ss : List F} {ps : List P} {p : P}
    (h : SumsTo ss ps p) : combine ss ps = p := by
  rw [combine_eq_dot _ _ h.length_eq, h.dot_eq]

end SumsTo

theorem dot_flatten_ofFn {m : ℕ} {f : Fin m → List F} {g : Fin m → List P}
    (h : ∀ j, (f j).length = (g j).length) :
    dot (List.ofFn f).flatten (List.ofFn g).flatten = ∑ j, dot (f j) (g j) := by
  induction m with
  | zero => simp
  | succ m ih =>
    rw [List.ofFn_succ, List.ofFn_succ, List.flatten_cons, List.flatten_cons, dot_append (h 0),
      ih fun j => h j.succ, Fin.sum_univ_succ]

theorem innerProduct_eq_sum {n : ℕ} {as bs : List F} (ha : as.length = n) (hb : bs.length = n) :
    innerProduct as bs = ∑ i : Fin n, as[i] * bs[i] :=
  dot_eq_sum (P := F) ha hb

theorem innerProduct_flatten_ofFn {m : ℕ} {f g : Fin m → List F}
    (h : ∀ j, (f j).length = (g j).length) :
    innerProduct (List.ofFn f).flatten (List.ofFn g).flatten = ∑ j, innerProduct (f j) (g j) :=
  dot_flatten_ofFn (P := F) h

end Dot
end ConfidentialTx
