import ConfidentialTx.Proofs.Draws
import ConfidentialTx.Proofs.Laws
import ConfidentialTx.Proofs.Runs
import ConfidentialTx.Tx.Signature

/-! # Balance of a transaction

The signer chooses the last blinding factor of the pseudo-outputs so that all of them sum to those of
the outputs.  The commitments then balance exactly as the amounts do.

* `TxSignature.drawBlindings_eq`: how many blinding factors are drawn, and their sum.
* `TxSignature.sum_commitAmount`: the sum of commitments to amounts.
* `TxSignature.isBalanced_of_total`: amounts that are conserved, under blinding factors of one sum,
  have commitments that balance.
* `TxSignature.checkShape_eq_ok_iff`: the inputs and outputs that are not refused. -/

namespace ConfidentialTx
namespace TxSignature
variable {F P : Type}

/-! ### Inputs and outputs -/

/-- The inputs and outputs of a transaction that can be signed. -/
structure ShapeFits (rings : List (List (RingMember P))) (indices : List ℕ)
    (secrets : List (InputSecret F)) (outputs : List (Opening F)) (fee : UInt64) : Prop where
  inputs : rings ≠ []
  outputs_ne_nil : outputs ≠ []
  maxInputs : rings.length ≤ ConfidentialTx.maxInputs
  length_indices : indices.length = rings.length
  length_secrets : secrets.length = rings.length
  conserved : totalAmount (secrets.map (·.value)) =
    totalAmount (outputs.map (·.value)) + fee.toNat

theorem checkShape_eq_ok_iff {rings : List (List (RingMember P))} {indices : List ℕ}
    {secrets : List (InputSecret F)} {outputs : List (Opening F)} {fee : UInt64} :
    checkShape rings indices secrets outputs fee = .ok () ↔
      ShapeFits rings indices secrets outputs fee := by
  unfold checkShape
  rw [if_throw_eq_ok, if_throw_eq_ok, if_throw_eq_ok, if_throw_eq_ok, if_throw_eq_ok]
  simp only [List.isEmpty_iff, not_lt, not_not]
  constructor
  · rintro ⟨h₁, h₂, h₃, h₄, h₅, h⟩
    split at h
    · cases h
    · next hconserved => exact ⟨h₁, h₂, h₃, h₄, h₅, not_not.mp hconserved⟩
  · rintro ⟨h₁, h₂, h₃, h₄, h₅, hconserved⟩
    exact ⟨h₁, h₂, h₃, h₄, h₅, if_neg (not_not.mpr hconserved)⟩

/-! ### Blinding factors -/

theorem drawBlindings_eq [Ring F] [ScalarEncoding F] {inputs : ℕ} (hinputs : inputs ≠ 0) (total : F)
    (source : RandomSource) :
    ((drawBlindings inputs total).run source).1.length = inputs ∧
      ((drawBlindings inputs total).run source).1.sum = total := by
  let drawn : List F := ((RandomSource.scalars (inputs - 1)).run source).1
  have hlen : drawn.length = inputs - 1 := RandomSource.length_times _ _ _
  have hrun : ((drawBlindings inputs total).run source).1 = drawn ++ [total - drawn.sum] := rfl
  rw [hrun]
  constructor
  · rw [List.length_append, List.length_singleton, hlen]
    omega
  · rw [List.sum_append, List.sum_singleton, add_sub_cancel]

/-! ### Commitments -/

variable [Field F] [AddCommGroup P] [Module F P] [MultiScalar F P] [LawfulMultiScalar F P]
variable [PointEncoding P] [PointHash P] [BasePoint P]

theorem sum_commitAmount {amounts : List UInt64} {blindings : List F}
    (h : amounts.length = blindings.length) :
    (List.zipWith commitAmount amounts blindings).sum =
      (totalAmount amounts : F) • imageBase (base : P) + blindings.sum • (base : P) := by
  induction amounts generalizing blindings with
  | nil =>
    obtain rfl := List.length_eq_zero_iff.mp h.symm
    simp [totalAmount]
  | cons v amounts ih =>
    obtain ⟨r, blindings, rfl⟩ := List.exists_cons_of_length_eq_add_one h.symm
    have htotal : totalAmount (v :: amounts) = v.toNat + totalAmount amounts := rfl
    rw [List.zipWith_cons_cons, List.sum_cons, List.sum_cons, ih (by simpa using h), commitAmount_eq,
      htotal, Nat.cast_add, add_smul, add_smul]
    abel

/-- Conserved amounts balance under blinding factors of one sum. -/
theorem isBalanced_of_total [BEq P] [LawfulBEq P] {spent received : List UInt64} {rs ss : List F}
    {fee : UInt64} (hspent : spent.length = rs.length) (hreceived : received.length = ss.length)
    (htotal : totalAmount spent = totalAmount received + fee.toNat) (hsum : rs.sum = ss.sum) :
    isBalanced F (List.zipWith commitAmount spent rs : List P)
      (List.zipWith commitAmount received ss) fee = true := by
  unfold isBalanced
  rw [beq_iff_eq, List.sum_append, List.sum_singleton, sum_commitAmount hspent,
    sum_commitAmount hreceived, commitAmount_eq, htotal, hsum, Nat.cast_add, add_smul, zero_smul]
  abel

end TxSignature
end ConfidentialTx
