import ConfidentialTx.Proofs.Shares

/-! # Audits of shares

The audit of a share tests two sums of products.  They are what is left of the two equations of the
share, so a share passes exactly if it agrees with the messages of its party.

* `ProofShare.combine_vectorScalars`, `ProofShare.combine_valueScalars`: the two sums, term by term, for
  every share whose vectors have one length.
* `ProofShare.audit_eq_true_iff`: the shares that pass.
* `Party.audit_share`: the share of an honest party passes, at every position and under all challenges
  with a `y` other than zero. -/

namespace ConfidentialTx

namespace ProofShare
variable {F P : Type} [Field F]

theorem rightScalars_eq {n : ℕ} {rs : List F} (hr : rs.length = n) (ch : BitChallenge F) (j : ℕ) :
    List.zipWith (fun r (p : F × F) => ch.z + p.2 * (pow ch.y (j * n))⁻¹ * (-r)
        + p.2 * (pow ch.y (j * n))⁻¹ * (ch.z * ch.z * pow ch.z j * p.1))
      rs ((powers ((2 : Nat) : F) n).zip (powers ch.y⁻¹ n)) =
    List.zipWith (· - ·) (offsets n j ch) (List.zipWith (· * ·) rs (inversePowers n j ch.y)) := by
  apply List.ext_getElem
  · simp [hr]
  · intro i h₁ h₂
    simp only [List.getElem_zipWith, List.getElem_zip, getElem_powers, pow_eq, offsets, inversePowers,
      List.getElem_ofFn, getElem_powersFrom, Nat.cast_ofNat, inv_pow, pow_add]
    ring

theorem leftScalars_eq (ls : List F) (z : F) :
    ls.map (-z - ·) = List.zipWith (· - ·) (List.replicate ls.length (-z)) ls := by
  apply List.ext_getElem
  · simp
  · intro i h₁ h₂
    simp

variable [AddCommGroup P] [Module F P] [MultiScalar F P] [LawfulMultiScalar F P]
variable {share : ProofShare F} {gens : Generators P} {key : CommitmentKey P} {n j : ℕ}
variable {bits : BitCommitment P} {ch : BitChallenge F} {polys : PolyCommitment P} {x : F}

/-- The first sum of the audit is what is left of the equation of the vectors. -/
theorem combine_vectorScalars (hl : share.l.length = n) (hr : share.r.length = n)
    (hcap : n ≤ gens.capacity) (hj : j < gens.parties) :
    combine (share.vectorScalars ch x j)
        ([bits.A, bits.S, key.blinding] ++ gens.rowD .G n j ++ gens.rowD .H n j) =
      share.vectorDefect gens key n j bits ch x := by
  have hG := Generators.length_rowD hcap hj .G
  have hH := Generators.length_rowD hcap hj .H
  have hzs : (List.replicate n (-ch.z)).length = n := List.length_replicate
  have hscaled : (List.zipWith (· * ·) share.r (inversePowers n j ch.y)).length = n := by simp [hr]
  have hfirst : SumsTo [1, x, -share.eBlinding] [bits.A, bits.S, key.blinding]
      (bits.A + x • bits.S - share.eBlinding • key.blinding) := ⟨rfl, by simp; abel⟩
  have hleft : SumsTo (share.l.map (-ch.z - ·)) (gens.rowD .G n j)
      (-(ch.z • (gens.rowD .G n j).sum) - dot share.l (gens.rowD .G n j)) := by
    refine ⟨by simp [hl, hG], ?_⟩
    rw [leftScalars_eq, hl, dot_zipWith_sub hzs hl hG, ← neg_smul, ← dot_replicate, hG]
  have hright : SumsTo
      (List.zipWith (· - ·) (offsets n j ch) (List.zipWith (· * ·) share.r (inversePowers n j ch.y)))
      (gens.rowD .H n j) (dot (offsets n j ch) (gens.rowD .H n j)
        - dot₃ share.r (inversePowers n j ch.y) (gens.rowD .H n j)) :=
    ⟨by simp [hr, hH], dot_zipWith_sub (length_offsets n j ch) hscaled hH⟩
  rw [← rightScalars_eq hr ch j] at hright
  subst hl
  refine ((hfirst.append hleft).append hright).combine_eq.trans ?_
  rw [vectorDefect]
  abel

/-- The second sum of the audit is what is left of the equation of the inner product. -/
theorem combine_valueScalars (hl : share.l.length = n) :
    combine (share.valueScalars ch x j)
        [bits.V, polys.T₁, polys.T₂, key.value, key.blinding] =
      share.valueDefect key n j bits ch polys x := by
  subst hl
  have hlen : (share.valueScalars ch x j).length =
      [bits.V, polys.T₁, polys.T₂, key.value, key.blinding].length := rfl
  rw [combine_eq_dot _ _ hlen, valueScalars, valueDefect, pow_eq]
  simp only [dot_cons, dot_nil, pow_add]
  module

variable [BEq F] [LawfulBEq F] [BEq P] [LawfulBEq P]

/-- The shares that pass their audit: of a possible size, and in agreement with what the party sent
before. -/
theorem audit_eq_true_iff (hl : share.l.length = n) :
    share.audit gens key j bits ch polys x = true ↔
      n ≤ gens.capacity ∧ j < gens.parties ∧ share.Agrees gens key n j bits ch polys x := by
  by_cases hj : j < gens.parties
  · have hrow : ∀ family, gens.row family j n = some (gens.rowD family n j) := by
      intro family
      have hshare : gens.share j = some gens.shares[j] := List.getElem?_eq_getElem hj
      simp [Generators.rowD, Generators.row, hshare]
    simp only [audit, hl, hrow, Bool.and_eq_true, fits_iff, beq_iff_eq, combine_valueScalars hl,
      true_and]
    constructor
    · rintro ⟨⟨⟨⟨hr, hcap, -⟩, htx⟩, hvector⟩, hvalue⟩
      rw [combine_vectorScalars hl hr hcap hj] at hvector
      exact ⟨hcap, hj, hl, hr, htx, hvector, hvalue⟩
    · rintro ⟨hcap, -, -, hr, htx, hvector, hvalue⟩
      rw [combine_vectorScalars hl hr hcap hj]
      exact ⟨⟨⟨⟨hr, hcap, hj⟩, htx⟩, hvector⟩, hvalue⟩
  · have hrow : gens.row .G j n = none := by
      have hshare : gens.share j = none := List.getElem?_eq_none (not_lt.mp hj)
      simp [Generators.row, hshare]
    simp only [audit, hl, hrow]
    exact ⟨fun h => absurd h (by simp), fun h => absurd h.2.1 hj⟩

end ProofShare

theorem Party.audit_share {F P : Type} [Field F] [AddCommGroup P] [Module F P] [MultiScalar F P]
    [LawfulMultiScalar F P] [BEq F] [LawfulBEq F] [BEq P] [LawfulBEq P] {gens : Generators P}
    {key : CommitmentKey P} {value : UInt64} {blinding : F} {n j : ℕ} {party : Party F P}
    {bitBlindings : BitBlindings F} {polyBlindings : PolyBlindings F} {ch : BitChallenge F} {x : F}
    {share : ProofShare F} (hparty : create gens key value blinding n = .ok party)
    (hj : j < gens.parties) (hL : bitBlindings.sL.length = n) (hR : bitBlindings.sR.length = n)
    (hy : ch.y ≠ 0)
    (hshare : (((party.commitBits gens key j bitBlindings).1.commitPolys key ch
      polyBlindings).1).share x = .ok share) :
    share.audit gens key j (party.commitBits gens key j bitBlindings).2 ch
      ((party.commitBits gens key j bitBlindings).1.commitPolys key ch polyBlindings).2 x = true := by
  have hagrees := share_agrees hparty hj hL hR hy hshare
  obtain ⟨-, hcap, -, -⟩ := create_eq_ok_iff.mp hparty
  exact (ProofShare.audit_eq_true_iff hagrees.length_l).mpr ⟨hcap, hj, hagrees⟩

end ConfidentialTx
