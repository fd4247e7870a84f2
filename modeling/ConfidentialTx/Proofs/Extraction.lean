import ConfidentialTx.Proofs.Audit
import ConfidentialTx.Proofs.Residues

/-! # Extraction of values from audited shares

A party that has a share for every challenge has committed to a value in its range.

* `eq_zero_of_quadratic`, `coefficients_of_forall`: identities between powers of challenges hold
  coefficient by coefficient.
* `Coordinates`: linear forms that read scalars off independent generators.
* `Coordinates.l_eq`, `Coordinates.r_eq`, `Coordinates.tx_eq`: a share is read off the messages
  before it.
* `Coordinates.identity`: so the messages satisfy one identity for all `y` and `z`.
* `ProofShare.exists_value_of_audit`: the identity leaves only bits and their sum. -/

namespace ConfidentialTx

/-! ### Identities between powers -/

section Identities
variable {F : Type} [Field F] [Fintype F] [DecidableEq F]

theorem card_erase_zero : (Finset.univ.erase (0 : F)).card = Fintype.card F - 1 := by
  rw [Finset.card_erase_of_mem (Finset.mem_univ 0), Finset.card_univ]

/-- A quadratic with points as coefficients that vanishes outside zero has no coefficient. -/
theorem eq_zero_of_quadratic {M : Type} [AddCommGroup M] [Module F M] (hcard : 3 < Fintype.card F)
    {p₀ p₁ p₂ : M} (h : ∀ x : F, x ≠ 0 → p₀ + x • p₁ + x ^ 2 • p₂ = 0) :
    p₀ = 0 ∧ p₁ = 0 ∧ p₂ = 0 := by
  have hlt : 2 < (Finset.univ.erase (0 : F)).card := by
    rw [card_erase_zero]
    omega
  obtain ⟨a, ha, b, hb, c, hc, hab, hac, hbc⟩ := Finset.two_lt_card.mp hlt
  have hA := h a (Finset.ne_of_mem_erase ha)
  have hB := h b (Finset.ne_of_mem_erase hb)
  have hC := h c (Finset.ne_of_mem_erase hc)
  -- the slopes between two of the three places
  have hslope : ∀ {x x' : F}, x ≠ x' → p₀ + x • p₁ + x ^ 2 • p₂ = 0 →
      p₀ + x' • p₁ + x' ^ 2 • p₂ = 0 → p₁ + (x + x') • p₂ = 0 := by
    intro x x' hne hx hx'
    have hdiff : (x - x') • (p₁ + (x + x') • p₂) = 0 := by
      calc (x - x') • (p₁ + (x + x') • p₂)
        _ = (p₀ + x • p₁ + x ^ 2 • p₂) - (p₀ + x' • p₁ + x' ^ 2 • p₂) := by module
        _ = 0 := by rw [hx, hx', sub_zero]
    exact (smul_eq_zero.mp hdiff).resolve_left (sub_ne_zero.mpr hne)
  have hp₂ : (b - c) • p₂ = 0 := by
    calc (b - c) • p₂
      _ = (p₁ + (a + b) • p₂) - (p₁ + (a + c) • p₂) := by module
      _ = 0 := by rw [hslope hab hA hB, hslope hac hA hC, sub_zero]
  have hp₂ : p₂ = 0 := (smul_eq_zero.mp hp₂).resolve_left (sub_ne_zero.mpr hbc)
  have hp₁ := hslope hab hA hB
  rw [hp₂, smul_zero, add_zero] at hp₁
  rw [hp₁, hp₂, smul_zero, smul_zero, add_zero, add_zero] at hA
  exact ⟨hA, hp₁, hp₂⟩

open Polynomial in
/-- A sum of powers from `y ^ k` on that is the same for all `y` other than zero has no coefficient but
that of `y ^ 0`. -/
theorem coefficients_of_forall {n k : ℕ} (hn : 0 < n) (hcard : k + n < Fintype.card F) {c : Fin n → F}
    {e : F} (h : ∀ y : F, y ≠ 0 → ∑ i, c i * y ^ (k + i : ℕ) = e) :
    (∀ i : Fin n, 0 < k + i → c i = 0) ∧ (∀ i : Fin n, k + i = 0 → c i = e) ∧ (0 < k → e = 0) := by
  let f : F[X] := ∑ i, C (c i) * X ^ (k + i : ℕ) - C e
  have hterm : ∀ (a : F) {d : ℕ}, d < k + n → C a * X ^ d ∈ degreeLT F (k + n) := by
    intro a d hd
    rw [mem_degreeLT]
    exact (degree_C_mul_X_pow_le d a).trans_lt (by exact_mod_cast hd)
  have hdegree : f.degree < (Finset.univ.erase (0 : F)).card := by
    have hmem : f ∈ degreeLT F (k + n) := by
      refine sub_mem (sum_mem fun i _ => hterm _ (Nat.add_lt_add_left i.isLt k)) ?_
      simpa using hterm e (Nat.add_pos_right k hn)
    have hlt := mem_degreeLT.mp hmem
    rw [card_erase_zero]
    exact hlt.trans_le (by exact_mod_cast Nat.le_sub_one_of_lt hcard)
  have hzero : f = 0 := by
    refine eq_zero_of_degree_lt_of_eval_finset_eq_zero _ hdegree fun y hy => ?_
    simp only [f, eval_sub, eval_finsetSum, eval_mul, eval_C, eval_pow, eval_X]
    rw [h y (Finset.ne_of_mem_erase hy), sub_self]
  have hcoeff : ∀ d : ℕ, (∑ i : Fin n, if d = k + i then c i else 0) - (if d = 0 then e else 0) = 0 := by
    intro d
    have hd := congrArg (coeff · d) hzero
    simpa only [f, coeff_sub, finsetSum_coeff, coeff_C_mul_X_pow, coeff_C, coeff_zero] using hd
  have hplace : ∀ i : Fin n, c i - (if k + i = 0 then e else 0) = 0 := by
    intro i
    have hsum : (∑ i' : Fin n, if (k + i : ℕ) = k + i' then c i' else 0) = c i := by
      simp [Fin.val_inj]
    have hi := hcoeff (k + i)
    rwa [hsum] at hi
  refine ⟨fun i hi => ?_, fun i hi => ?_, fun hk => ?_⟩
  · have hci := hplace i
    rwa [if_neg hi.ne', sub_zero] at hci
  · have hci := hplace i
    rw [if_pos hi] at hci
    exact sub_eq_zero.mp hci
  · -- no power is the first one
    have he := hcoeff 0
    rw [if_pos rfl, Finset.sum_eq_zero fun i _ => if_neg (by omega), zero_sub] at he
    exact neg_eq_zero.mp he

/-- An identity between powers of two challenges that leaves only roots of `b (b - 1)`. -/
theorem bits_of_forall {n j : ℕ} (hn : 0 < n) (hcard : (j + 1) * n < Fintype.card F)
    (hquadratic : 3 < Fintype.card F) {a b : Fin n → F} {e : F}
    (h : ∀ y z : F, y ≠ 0 → z ≠ 0 →
      ∑ i, (a i * b i + z * (a i - b i - 1)) * y ^ (j * n + i : ℕ) = z ^ (2 + j) * e) :
    (∀ i, a i * (a i - 1) = 0) ∧ e = 0 := by
  have hcard' : j * n + n < Fintype.card F := by rwa [← Nat.succ_mul]
  have hpowers := fun (z : F) (hz : z ≠ 0) =>
    coefficients_of_forall hn hcard' fun y hy => h y z hy hz
  -- the constant is zero: it is alone, or is behind another power of `z` than the first coefficient
  have he : e = 0 := by
    rcases Nat.eq_zero_or_pos j with rfl | hj
    · have hfirst : ∀ z : F, z ≠ 0 →
          a ⟨0, hn⟩ * b ⟨0, hn⟩ + z • (a ⟨0, hn⟩ - b ⟨0, hn⟩ - 1) + z ^ 2 • (-e) = 0 := by
        intro z hz
        have hc := (hpowers z hz).2.1 ⟨0, hn⟩ (by simp)
        simp only [smul_eq_mul]
        linear_combination hc
      exact neg_eq_zero.mp (eq_zero_of_quadratic hquadratic hfirst).2.2
    · have hconstant := (hpowers 1 one_ne_zero).2.2 (Nat.mul_pos hj hn)
      rwa [one_pow, one_mul] at hconstant
  refine ⟨fun i => ?_, he⟩
  have hcoefficient : ∀ z : F, z ≠ 0 →
      a i * b i + z • (a i - b i - 1) + z ^ 2 • (0 : F) = 0 := by
    intro z hz
    obtain ⟨hlater, hfirst, -⟩ := hpowers z hz
    rw [smul_zero, add_zero, smul_eq_mul]
    rcases Nat.eq_zero_or_pos (j * n + i) with hi | hi
    · rw [hfirst i hi, he, mul_zero]
    · exact hlater i hi
  obtain ⟨hproduct, hdifference, -⟩ := eq_zero_of_quadratic hquadratic hcoefficient
  linear_combination hproduct + a i * hdifference

end Identities

/-! ### Linear forms on independent points -/

section Forms
variable {F P : Type} [Field F] [AddCommGroup P] [Module F P]

/-- Whether a linear form is one at place `k` of a list and zero at all others. -/
def ReadsAt (φ : P →ₗ[F] F) (ps : List P) (k : ℕ) : Prop :=
  ∀ (i : ℕ) (hi : i < ps.length), φ ps[i] = if i = k then 1 else 0

theorem exists_readsAt {ps : List P} (h : LinearIndependent F ps.get) {k : ℕ} (hk : k < ps.length) :
    ∃ φ : P →ₗ[F] F, ReadsAt φ ps k := by
  obtain ⟨g, hg⟩ := (Finsupp.linearCombination F ps.get).exists_leftInverse_of_injective
    (LinearMap.ker_eq_bot.mpr h)
  refine ⟨(Finsupp.lapply ⟨k, hk⟩).comp g, fun i hi => ?_⟩
  have hpoint : Finsupp.linearCombination F ps.get (Finsupp.single ⟨i, hi⟩ 1) = ps[i] := by
    rw [Finsupp.linearCombination_single, one_smul]
    rfl
  have hread : g ps[i] = Finsupp.single ⟨i, hi⟩ 1 := by
    rw [← hpoint]
    exact LinearMap.congr_fun hg _
  rw [LinearMap.comp_apply, hread, Finsupp.lapply_apply, Finsupp.single_apply]
  simp [Fin.ext_iff]

/-- The form of a place reads its scalar off a product with a part of the list. -/
theorem ReadsAt.map_dot {φ : P →ₗ[F] F} {before G after : List P} {k : ℕ}
    (h : ReadsAt φ (before ++ G ++ after) k) {ss : List F} (hs : ss.length = G.length) :
    φ (dot ss G) = if before.length ≤ k then ss.getD (k - before.length) 0 else 0 := by
  have hG : ∀ i : Fin G.length, φ G[i] = if before.length + i = k then 1 else 0 := by
    intro i
    rw [← h (before.length + i) (by simp; omega)]
    simp
  rw [dot_eq_sum hs rfl, map_sum]
  simp only [map_smul, hG, smul_eq_mul, mul_ite, mul_one, mul_zero]
  split
  · next hle =>
    by_cases hk : k - before.length < G.length
    · have hplace : ∀ i : Fin G.length, before.length + i = k ↔ i = ⟨k - before.length, hk⟩ := by
        intro i
        simp only [Fin.ext_iff]
        omega
      simp only [hplace, Finset.sum_ite_eq', Finset.mem_univ, if_true]
      simp [hs, hk]
    · rw [List.getD_eq_default _ _ (by omega)]
      exact Finset.sum_eq_zero fun i _ => if_neg (by omega)
  · exact Finset.sum_eq_zero fun i _ => if_neg (by omega)

/-- Linear forms that read the scalar of the point of values, and those of two rows of generators, in
a combination of these and of the blinding point. -/
structure Coordinates (F : Type) {P : Type} [Field F] [AddCommGroup P] [Module F P]
    (key : CommitmentKey P) (G H : List P) (n : ℕ) where
  length_G : G.length = n
  length_H : H.length = n
  value : P →ₗ[F] F
  left : Fin n → P →ₗ[F] F
  right : Fin n → P →ₗ[F] F
  value_value : value key.value = 1
  value_blinding : value key.blinding = 0
  left_blinding : ∀ i, left i key.blinding = 0
  right_blinding : ∀ i, right i key.blinding = 0
  left_dot : ∀ i {ss : List F} (hs : ss.length = n), left i (dot ss G) = ss[i]
  left_other : ∀ i {ss : List F}, ss.length = n → left i (dot ss H) = 0
  right_dot : ∀ i {ss : List F} (hs : ss.length = n), right i (dot ss H) = ss[i]
  right_other : ∀ i {ss : List F}, ss.length = n → right i (dot ss G) = 0

theorem nonempty_coordinates {key : CommitmentKey P} {G H : List P} {n : ℕ} (hG : G.length = n)
    (hH : H.length = n)
    (h : LinearIndependent F (key.value :: key.blinding :: (G ++ H)).get) :
    Nonempty (Coordinates F key G H n) := by
  have hlength : (key.value :: key.blinding :: (G ++ H)).length = 2 + n + n := by
    simp [hG, hH]
    omega
  have hforms : ∀ k : Fin (2 + n + n), ∃ φ : P →ₗ[F] F,
      ReadsAt φ (key.value :: key.blinding :: (G ++ H)) k := by
    intro k
    exact exists_readsAt h (by rw [hlength]; exact k.isLt)
  choose form hform using hforms
  have hvalue : ∀ k, form k key.value = if 0 = (k : ℕ) then 1 else 0 := fun k =>
    hform k 0 (by simp)
  have hblinding : ∀ k, form k key.blinding = if 1 = (k : ℕ) then 1 else 0 := fun k =>
    hform k 1 (by simp)
  -- the two rows as parts of the list
  have hrowG : ∀ k {ss : List F}, ss.length = n →
      form k (dot ss G) = if 2 ≤ (k : ℕ) then ss.getD (k - 2) 0 else 0 := by
    intro k ss hs
    have hparts : ReadsAt (form k) ([key.value, key.blinding] ++ G ++ H) k := hform k
    exact hparts.map_dot (hs.trans hG.symm)
  have hrowH : ∀ k {ss : List F}, ss.length = n →
      form k (dot ss H) = if 2 + n ≤ (k : ℕ) then ss.getD (k - (2 + n)) 0 else 0 := by
    intro k ss hs
    have hparts : ReadsAt (form k) (key.value :: key.blinding :: G ++ H ++ []) k := by
      simpa using hform k
    have hbefore : (key.value :: key.blinding :: G).length = 2 + n := by
      simp [hG]
      omega
    rw [hparts.map_dot (hs.trans hH.symm), hbefore]
  exact ⟨{
    length_G := hG
    length_H := hH
    value := form ⟨0, by omega⟩
    left := fun i => form ⟨2 + i, by omega⟩
    right := fun i => form ⟨2 + n + i, by omega⟩
    value_value := by simp [hvalue]
    value_blinding := by simp [hblinding]
    left_blinding := fun i => (hblinding _).trans (if_neg (by simp only; omega))
    right_blinding := fun i => (hblinding _).trans (if_neg (by simp only; omega))
    left_dot := fun i ss hs => by simp [hrowG _ hs, hs]
    left_other := fun i ss hs => (hrowH _ hs).trans (if_neg (by simp only; omega))
    right_dot := fun i ss hs => by simp [hrowH _ hs, hs]
    right_other := fun i ss hs => by
      have hout : ss.length ≤ 2 + n + i - 2 := by omega
      rw [hrowG _ hs, List.getD_eq_default _ _ hout, ite_self] }⟩

namespace Coordinates
variable {key : CommitmentKey P}

section Rows
variable {G H : List P} {n : ℕ} (c : Coordinates F key G H n)

include c in
theorem sum_eq_dot : G.sum = dot (List.replicate n (1 : F)) G := by
  rw [← c.length_G, dot_replicate, one_smul]

theorem left_sum (i : Fin n) : c.left i G.sum = 1 := by
  rw [c.sum_eq_dot, c.left_dot i List.length_replicate, Fin.getElem_fin, List.getElem_replicate]

theorem right_sum (i : Fin n) : c.right i G.sum = 0 := by
  rw [c.sum_eq_dot, c.right_other i List.length_replicate]

end Rows

/-! ### Shares and the messages before them -/

variable {gens : Generators P} {n j : ℕ}
variable (c : Coordinates F key (gens.rowD .G n j) (gens.rowD .H n j) n)
variable {share : ProofShare F} {bits : BitCommitment P} {ch : BitChallenge F}
variable {polys : PolyCommitment P} {x : F}

theorem l_eq (h : share.Agrees gens key n j bits ch polys x) :
    share.l = List.ofFn fun i : Fin n => c.left i bits.A + x * c.left i bits.S - ch.z := by
  have hl := h.length_l
  have hright : (List.zipWith (· * ·) share.r (ProofShare.inversePowers n j ch.y)).length = n := by
    simp [h.length_r]
  apply List.ext_getElem
  · rw [hl, List.length_ofFn]
  · intro i h₁ h₂
    have hi : i < n := hl ▸ h₁
    have hvector := congrArg (c.left ⟨i, hi⟩) h.vector
    simp only [ProofShare.vectorDefect, map_add, map_sub, map_smul, map_zero, smul_eq_mul, dot₃,
      c.left_blinding, c.left_sum, c.left_dot _ hl, c.left_other _ (ProofShare.length_offsets n j ch),
      c.left_other _ hright, Fin.getElem_fin] at hvector
    rw [List.getElem_ofFn]
    linear_combination -hvector

theorem r_eq (h : share.Agrees gens key n j bits ch polys x) (hy : ch.y ≠ 0) :
    share.r = List.ofFn fun i : Fin n =>
      ch.y ^ (j * n + i : ℕ) * (c.right i bits.A + ch.z + x * c.right i bits.S)
        + ch.z ^ (2 + j) * 2 ^ (i : ℕ) := by
  have hr := h.length_r
  have hright : (List.zipWith (· * ·) share.r (ProofShare.inversePowers n j ch.y)).length = n := by
    simp [hr]
  apply List.ext_getElem
  · rw [hr, List.length_ofFn]
  · intro i h₁ h₂
    have hi : i < n := hr ▸ h₁
    have hvector := congrArg (c.right ⟨i, hi⟩) h.vector
    simp only [ProofShare.vectorDefect, map_add, map_sub, map_smul, map_zero, smul_eq_mul, dot₃,
      c.right_blinding, c.right_sum, c.right_other _ h.length_l,
      c.right_dot _ (ProofShare.length_offsets n j ch), c.right_dot _ hright] at hvector
    simp only [Fin.getElem_fin, List.getElem_zipWith, ProofShare.offsets, ProofShare.inversePowers,
      getElem_powersFrom, List.getElem_ofFn, ← pow_add] at hvector
    have hcancel : ch.y ^ (j * n + i) * ch.y⁻¹ ^ (j * n + i) = 1 := by
      rw [← mul_pow, mul_inv_cancel₀ hy, one_pow]
    rw [List.getElem_ofFn]
    linear_combination -ch.y ^ (j * n + i) * hvector
      + (ch.z ^ (2 + j) * 2 ^ i - share.r[i]) * hcancel

theorem tx_eq (h : share.Agrees gens key n j bits ch polys x) :
    share.tx = ch.z ^ (2 + j) * c.value bits.V + ProofShare.delta n j ch + x * c.value polys.T₁
      + x ^ 2 * c.value polys.T₂ := by
  have hvalue := congrArg c.value h.value
  simp only [ProofShare.valueDefect, map_add, map_sub, map_smul, map_zero, smul_eq_mul, c.value_value,
    c.value_blinding] at hvalue
  linear_combination -hvalue

end Coordinates

theorem ProofShare.delta_eq_sum_entries (n j : ℕ) (ch : BitChallenge F) :
    ProofShare.delta n j ch = ∑ i : Fin n,
      ((ch.z - ch.z ^ 2) * ch.y ^ (j * n + i : ℕ) - ch.z ^ (3 + j) * 2 ^ (i : ℕ)) := by
  rw [Finset.sum_sub_distrib, ← Finset.mul_sum, ← Finset.mul_sum,
    Fin.sum_univ_eq_sum_range fun i => ch.y ^ (j * n + i),
    Fin.sum_univ_eq_sum_range fun i => (2 : F) ^ i]
  simp only [ProofShare.delta, powerSum_eq, pow_eq, Nat.cast_ofNat, pow_add, ← Finset.mul_sum]
  ring

variable [Fintype F] [DecidableEq F]

/-- A party that has a share for every `x` satisfies one identity between its messages. -/
theorem Coordinates.identity {key : CommitmentKey P} {gens : Generators P} {n j : ℕ}
    (c : Coordinates F key (gens.rowD .G n j) (gens.rowD .H n j) n) {bits : BitCommitment P}
    {ch : BitChallenge F} {polys : PolyCommitment P} (hcard : 3 < Fintype.card F) (hy : ch.y ≠ 0)
    (h : ∀ x : F, x ≠ 0 → ∃ share : ProofShare F, share.Agrees gens key n j bits ch polys x) :
    ∑ i : Fin n, (c.left i bits.A * c.right i bits.A + ch.z * (c.left i bits.A - c.right i bits.A - 1))
        * ch.y ^ (j * n + i : ℕ) =
      ch.z ^ (2 + j) * (c.value bits.V - ∑ i : Fin n, 2 ^ (i : ℕ) * c.left i bits.A) := by
  -- the coefficients of the inner product in `x`, less those of `t`
  let a := fun i => c.left i bits.A - ch.z
  let s := fun i => c.left i bits.S
  let b := fun i : Fin n => ch.y ^ (j * n + i : ℕ) * (c.right i bits.A + ch.z)
    + ch.z ^ (2 + j) * 2 ^ (i : ℕ)
  let r := fun i : Fin n => ch.y ^ (j * n + i : ℕ) * c.right i bits.S
  have hquadratic : ∀ x : F, x ≠ 0 →
      (∑ i, a i * b i - ch.z ^ (2 + j) * c.value bits.V - ProofShare.delta n j ch)
        + x • (∑ i, (s i * b i + a i * r i) - c.value polys.T₁)
        + x ^ 2 • (∑ i, s i * r i - c.value polys.T₂) = 0 := by
    intro x hx
    obtain ⟨share, hshare⟩ := h x hx
    have hproduct : share.tx =
        ∑ i, a i * b i + x * ∑ i, (s i * b i + a i * r i) + x ^ 2 * ∑ i, s i * r i := by
      rw [hshare.tx_eq, c.l_eq hshare, c.r_eq hshare hy,
        innerProduct_eq_sum List.length_ofFn List.length_ofFn, Finset.mul_sum, Finset.mul_sum,
        ← Finset.sum_add_distrib, ← Finset.sum_add_distrib]
      refine Finset.sum_congr rfl fun i _ => ?_
      simp only [Fin.getElem_fin, List.getElem_ofFn, a, s, b, r]
      ring
    simp only [smul_eq_mul]
    linear_combination c.tx_eq hshare - hproduct
  have hconstant := (eq_zero_of_quadratic hcard hquadratic).1
  rw [ProofShare.delta_eq_sum_entries] at hconstant
  have hentries : ∑ i, a i * b i - ∑ i : Fin n,
      ((ch.z - ch.z ^ 2) * ch.y ^ (j * n + i : ℕ) - ch.z ^ (3 + j) * 2 ^ (i : ℕ)) =
      ∑ i : Fin n, (c.left i bits.A * c.right i bits.A
        + ch.z * (c.left i bits.A - c.right i bits.A - 1)) * ch.y ^ (j * n + i : ℕ)
        + ch.z ^ (2 + j) * ∑ i : Fin n, 2 ^ (i : ℕ) * c.left i bits.A := by
    rw [Finset.mul_sum, ← Finset.sum_add_distrib, ← Finset.sum_sub_distrib]
    refine Finset.sum_congr rfl fun i _ => ?_
    simp only [a, b]
    ring
  linear_combination hconstant - hentries

/-- A party that has a share for some `y` and `z` and every `x` has committed with the two points of the
key. -/
theorem ProofShare.exists_opening {key : CommitmentKey P} {gens : Generators P} {n j : ℕ}
    {bits : BitCommitment P} {ch : BitChallenge F} {polys : PolyCommitment P}
    (hcard : 3 < Fintype.card F) (hz : ch.z ≠ 0)
    (h : ∀ x : F, x ≠ 0 → ∃ share : ProofShare F, share.Agrees gens key n j bits ch polys x) :
    ∃ v γ : F, bits.V = v • key.value + γ • key.blinding := by
  let S := Submodule.span F {key.value, key.blinding}
  have hvalue : S.mkQ key.value = 0 := (Submodule.Quotient.mk_eq_zero S).mpr
    (Submodule.subset_span (Set.mem_insert _ _))
  have hblinding : S.mkQ key.blinding = 0 := (Submodule.Quotient.mk_eq_zero S).mpr
    (Submodule.subset_span (Set.mem_insert_of_mem _ rfl))
  -- modulo the two points, the equation of the inner product has three terms
  have hquadratic : ∀ x : F, x ≠ 0 →
      ch.z ^ (2 + j) • S.mkQ bits.V + x • S.mkQ polys.T₁ + x ^ 2 • S.mkQ polys.T₂ = 0 := by
    intro x hx
    obtain ⟨share, hshare⟩ := h x hx
    have hdefect := congrArg S.mkQ hshare.value
    simpa only [valueDefect, map_add, map_sub, map_smul, map_zero, hvalue, hblinding, smul_zero,
      add_zero, sub_zero] using hdefect
  have hV := (smul_eq_zero.mp (eq_zero_of_quadratic hcard hquadratic).1).resolve_left
    (pow_ne_zero _ hz)
  obtain ⟨v, γ, hopening⟩ := Submodule.mem_span_pair.mp ((Submodule.Quotient.mk_eq_zero S).mp hV)
  exact ⟨v, γ, hopening.symm⟩

/-! ### The value -/

variable [MultiScalar F P] [LawfulMultiScalar F P] [BEq F] [LawfulBEq F] [BEq P] [LawfulBEq P]

/-- **Soundness of the audit.**  Let the two points of the key and the generators of a party be
independent.  If for all `y` and `z` there are polynomial commitments under which some share passes the
audit for every `x`, zero being left out everywhere, then the party has committed to a value of `n`
bits. -/
theorem ProofShare.exists_value_of_audit {gens : Generators P} {key : CommitmentKey P} {n j : ℕ}
    (hn : n = 8 ∨ n = 16 ∨ n = 32 ∨ n = 64) (hcard : (j + 1) * n < Fintype.card F)
    (hind : LinearIndependent F
      (key.value :: key.blinding :: (gens.rowD .G n j ++ gens.rowD .H n j)).get)
    (bits : BitCommitment P)
    (h : ∀ y z : F, y ≠ 0 → z ≠ 0 → ∃ polys : PolyCommitment P, ∀ x : F, x ≠ 0 →
      ∃ share : ProofShare F, share.l.length = n ∧ share.r.length = n ∧
        share.audit gens key j bits ⟨y, z⟩ polys x = true) :
    ∃ v < 2 ^ n, ∃ γ : F, bits.V = ((v : ℕ) : F) • key.value + γ • key.blinding := by
  have hsmall : 8 ≤ (j + 1) * n := by
    have hn8 : 8 ≤ n := by omega
    exact hn8.trans (Nat.le_mul_of_pos_left n j.succ_pos)
  have hquadratic : 3 < Fintype.card F := by omega
  have hagrees : ∀ y z : F, y ≠ 0 → z ≠ 0 → ∃ polys : PolyCommitment P, ∀ x : F, x ≠ 0 →
      ∃ share : ProofShare F, share.Agrees gens key n j bits ⟨y, z⟩ polys x := by
    intro y z hy hz
    obtain ⟨polys, hpolys⟩ := h y z hy hz
    refine ⟨polys, fun x hx => ?_⟩
    obtain ⟨share, hl, -, haudit⟩ := hpolys x hx
    exact ⟨share, ((audit_eq_true_iff hl).mp haudit).2.2⟩
  -- the table is large enough, since there is a share that passes
  obtain ⟨polys, hpolys⟩ := h 1 1 one_ne_zero one_ne_zero
  obtain ⟨share, hl, -, haudit⟩ := hpolys 1 one_ne_zero
  obtain ⟨hcap, hj, -⟩ := (audit_eq_true_iff hl).mp haudit
  obtain ⟨c⟩ := nonempty_coordinates (Generators.length_rowD hcap hj .G)
    (Generators.length_rowD hcap hj .H) hind
  obtain ⟨hbits, hsum⟩ := bits_of_forall (by omega) hcard hquadratic fun y z hy hz => by
    obtain ⟨polys, hpolys⟩ := hagrees y z hy hz
    exact c.identity hquadratic hy hpolys
  obtain ⟨v, hv, hvalue⟩ := exists_sum_of_bits hbits
  -- the commitment is opened, and the form of the point of values reads the sum of the bits
  obtain ⟨polys, hpolys⟩ := hagrees 1 1 one_ne_zero one_ne_zero
  obtain ⟨v', γ, hopening⟩ := exists_opening hquadratic one_ne_zero hpolys
  have hread : c.value bits.V = v' := by
    rw [hopening, map_add, map_smul, map_smul, c.value_value, c.value_blinding, smul_eq_mul,
      smul_eq_mul, mul_one, mul_zero, add_zero]
  refine ⟨v, hv, γ, ?_⟩
  rw [hopening, ← hread, sub_eq_zero.mp hsum, hvalue]

end Forms

/-! ### A party with independent generators -/

namespace Residue

/-- Points with one coordinate for every point that a party of eight bits commits with. -/
abbrev Tuple : Type := Fin 18 → Residue

instance : MultiScalar Residue Tuple := ⟨dot⟩

instance : LawfulMultiScalar Residue Tuple := ⟨fun _ _ _ => rfl⟩

/-- The point with one coordinate. -/
def unit (i : Fin 18) : Tuple := Pi.single i 1

/-- The first two of these points. -/
def unitKey : CommitmentKey Tuple := ⟨unit 0, unit 1⟩

/-- The others, for two parties. -/
def unitTable : Generators Tuple where
  capacity := 8
  shares := List.replicate 2
    ⟨List.ofFn fun i : Fin 8 => unit ⟨i + 2, by omega⟩, List.ofFn fun i : Fin 8 => unit ⟨i + 10, by omega⟩⟩
  full s hs f := by
    obtain rfl := (List.mem_replicate.mp hs).2
    cases f <;> exact List.length_ofFn

theorem linearIndependent_unit :
    LinearIndependent Residue (unitKey.value :: unitKey.blinding ::
      (unitTable.rowD .G 8 1 ++ unitTable.rowD .H 8 1)).get := by
  have hpoints : unitKey.value :: unitKey.blinding ::
      (unitTable.rowD .G 8 1 ++ unitTable.rowD .H 8 1) = List.ofFn unit := rfl
  have hget : (List.ofFn unit).get = unit ∘ Fin.cast List.length_ofFn := by
    funext i
    rw [List.get_eq_getElem, List.getElem_ofFn]
    rfl
  have hunit : ⇑(Pi.basisFun Residue (Fin 18)) = unit := by
    funext i
    rw [Pi.basisFun_apply, unit]
  have hbasis : LinearIndependent Residue unit := by
    rw [← hunit]
    exact (Pi.basisFun Residue (Fin 18)).linearIndependent
  rw [hpoints, hget]
  exact hbasis.comp _ (Fin.cast_injective _)

/-- The second of two parties, with the value 200. -/
def unitParty : Party Residue Tuple :=
  ⟨200, 7, 8, unitKey.commit ((200 : UInt64).toNat : Residue) 7⟩

/-- The state of the party behind its commitment to the bits, and the commitment. -/
def unitCommitted : Party.Committed Residue × BitCommitment Tuple :=
  unitParty.commitBits unitTable unitKey 1 ⟨3, 4, List.replicate 8 5, List.replicate 8 6⟩

end Residue

/-- An honest party passes under all challenges, and has committed to a value of eight bits. -/
theorem ProofShare.exists_value_of_honest_audit :
    (1 + 1) * 8 < Fintype.card Residue ∧
    (∀ y z : Residue, y ≠ 0 → z ≠ 0 → ∃ polys : PolyCommitment Residue.Tuple, ∀ x : Residue, x ≠ 0 →
      ∃ share : ProofShare Residue, share.l.length = 8 ∧ share.r.length = 8 ∧
        share.audit Residue.unitTable Residue.unitKey 1 Residue.unitCommitted.2 ⟨y, z⟩ polys x = true) ∧
    ∃ v < 2 ^ 8, ∃ γ : Residue, Residue.unitCommitted.2.V =
      ((v : ℕ) : Residue) • Residue.unitKey.value + γ • Residue.unitKey.blinding := by
  have hcard : (1 + 1) * 8 < Fintype.card Residue := by
    rw [ZMod.card]
    decide
  have hparty : Party.create Residue.unitTable Residue.unitKey 200 7 8 = .ok Residue.unitParty :=
    Party.create_eq_ok_iff.mpr ⟨.inl rfl, le_rfl, by decide, rfl⟩
  have hpasses : ∀ y z : Residue, y ≠ 0 → z ≠ 0 → ∃ polys : PolyCommitment Residue.Tuple,
      ∀ x : Residue, x ≠ 0 → ∃ share : ProofShare Residue, share.l.length = 8 ∧ share.r.length = 8 ∧
        share.audit Residue.unitTable Residue.unitKey 1 Residue.unitCommitted.2 ⟨y, z⟩ polys x =
          true := by
    intro y z hy hz
    refine ⟨(Residue.unitCommitted.1.commitPolys Residue.unitKey ⟨y, z⟩ ⟨8, 9⟩).2, fun x hx => ?_⟩
    have hshare : (Residue.unitCommitted.1.commitPolys Residue.unitKey ⟨y, z⟩ ⟨8, 9⟩).1.share x =
        .ok _ := Party.Answering.share_eq_ok_iff.mpr ⟨hx, rfl⟩
    have hagrees := Party.share_agrees hparty (by decide) List.length_replicate List.length_replicate
      hy hshare
    exact ⟨_, hagrees.length_l, hagrees.length_r, Party.audit_share hparty (by decide)
      List.length_replicate List.length_replicate hy hshare⟩
  exact ⟨hcard, hpasses, exists_value_of_audit (.inl rfl) hcard Residue.linearIndependent_unit _ hpasses⟩

end ConfidentialTx
