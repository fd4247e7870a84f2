import ConfidentialTx.Proofs.Laws
import ConfidentialTx.Proofs.Runs
import ConfidentialTx.Range.Proof

/-! # Rows of a generator table

Every party owns one row of each family.  For a table that is large enough, the vector of an
aggregated proof is the rows of the first parties one after the other (`Generators.vector_eq_flatten`),
so a product with it is a sum over the parties (`Generators.dot_vector`).  `checkParameters` only lets
tables pass that are large enough (`checkParameters_eq_ok_iff`). -/

namespace ConfidentialTx

variable {P : Type}

namespace Generators

/-- The first `n` generators of one family of party `j`; none if there is no such party. -/
def rowD (t : Generators P) (family : Family) (n j : ℕ) : List P := (t.row family j n).getD []

theorem capacity_increase [PointEncoding P] (stream : Bytes → ℕ → Bytes) (t : Generators P)
    (larger : ℕ) : (t.increase stream larger).capacity = max t.capacity larger := by
  unfold increase
  split
  · rw [Nat.max_eq_left ‹_›]
  · rw [Nat.max_eq_right (by omega)]

theorem parties_increase [PointEncoding P] (stream : Bytes → ℕ → Bytes) (t : Generators P)
    (larger : ℕ) : (t.increase stream larger).parties = t.parties := by
  unfold increase Generators.parties
  split
  · rfl
  · rw [List.length_mapIdx]

theorem capacity_build [PointEncoding P] (stream : Bytes → ℕ → Bytes) (capacity parties : ℕ) :
    (build stream capacity parties : Generators P).capacity = capacity :=
  (capacity_increase stream (empty parties) capacity).trans (Nat.zero_max capacity)

theorem parties_build [PointEncoding P] (stream : Bytes → ℕ → Bytes) (capacity parties : ℕ) :
    (build stream capacity parties : Generators P).parties = parties :=
  (parties_increase stream (empty parties) capacity).trans List.length_replicate

variable {t : Generators P} {n m : ℕ}

theorem rowD_eq {j : ℕ} (hj : j < t.shares.length) (family : Family) (n : ℕ) :
    t.rowD family n j = (t.shares[j].family family).take n := by
  have hshare : t.share j = some t.shares[j] := List.getElem?_eq_getElem hj
  simp [rowD, row, hshare]

theorem length_rowD (hn : n ≤ t.capacity) {j : ℕ} (hj : j < t.parties) (family : Family) :
    (t.rowD family n j).length = n := by
  rw [rowD_eq hj, List.length_take, t.full _ (List.getElem_mem hj) family]
  exact Nat.min_eq_left hn

theorem vector_eq_flatten (hm : m ≤ t.parties) (family : Family) :
    t.vector family n m = (List.ofFn fun j : Fin m => t.rowD family n j).flatten := by
  have hrows : (t.shares.take m).map (fun s => (s.family family).take n) =
      List.ofFn fun j : Fin m => t.rowD family n j := by
    apply List.ext_getElem
    · rw [List.length_map, List.length_take, List.length_ofFn]
      exact Nat.min_eq_left hm
    · intro j h₁ h₂
      have hj : j < t.shares.length := by
        rw [List.length_map, List.length_take] at h₁
        omega
      simp [rowD_eq hj]
  rw [vector, List.flatMap_def, hrows]

theorem length_vector (hn : n ≤ t.capacity) (hm : m ≤ t.parties) (family : Family) :
    (t.vector family n m).length = n * m := by
  have hrow : ∀ j : Fin m, (t.rowD family n j).length = n := fun j =>
    length_rowD hn (j.isLt.trans_le hm) family
  rw [vector_eq_flatten hm]
  simp [List.length_flatten, List.map_ofFn, Function.comp_def, hrow, Nat.mul_comm]

section Sums
variable {F : Type} [Field F] [AddCommGroup P] [Module F P]

theorem sum_vector (hm : m ≤ t.parties) (family : Family) :
    (t.vector family n m).sum = ∑ j : Fin m, (t.rowD family n j).sum := by
  rw [vector_eq_flatten hm, List.sum_flatten, List.map_ofFn, List.sum_ofFn]
  rfl

theorem dot_vector (hn : n ≤ t.capacity) (hm : m ≤ t.parties) (family : Family) {f : Fin m → List F}
    (hf : ∀ j, (f j).length = n) :
    dot (List.ofFn f).flatten (t.vector family n m) = ∑ j, dot (f j) (t.rowD family n j) := by
  rw [vector_eq_flatten hm]
  refine dot_flatten_ofFn fun j => ?_
  rw [hf, length_rowD hn (j.isLt.trans_le hm)]

end Sums

end Generators

/-- The parameters that a range proof can have. -/
structure ParametersFit (gens : Generators P) (n m : ℕ) : Prop where
  bits : n = 8 ∨ n = 16 ∨ n = 32 ∨ n = 64
  parties_ne : m ≠ 0
  parties_pow : isPowerOfTwo m = true
  capacity : n ≤ gens.capacity
  parties : m ≤ gens.parties

theorem checkParameters_eq_ok_iff {gens : Generators P} {n m : ℕ} :
    checkParameters gens n m = .ok () ↔ ParametersFit gens n m := by
  rw [checkParameters, unless_throw_eq_ok, if_throw_eq_ok, unless_throw_eq_ok, if_throw_eq_ok]
  simp only [Bool.or_eq_true, beq_iff_eq, or_assoc, Nat.not_lt]
  constructor
  · rintro ⟨hbits, hne, hpow, hcap, h⟩
    refine ⟨hbits, hne, hpow, hcap, ?_⟩
    by_contra hlt
    rw [if_pos (by omega)] at h
    simp at h
  · rintro ⟨hbits, hne, hpow, hcap, hparties⟩
    exact ⟨hbits, hne, hpow, hcap, by rw [if_neg (by omega)]; rfl⟩

end ConfidentialTx
