import ConfidentialTx.Proofs.Completeness

/-! # Padded proofs

A proof over amounts in any number repeats the last amount up to the next power of two, and the verifier
repeats the last commitment.

* `nextPowerOfTwo_eq`, `nextPowerOfTwo_isLeast`: the power of two, by a logarithm and by what it is for.
* `zipWith_padToPowerOfTwo`: padding commutes with what is done entry by entry, so both sides speak of
  the same commitments.
* `verifyPadded_of_provePadded`: the padded verifier accepts what the padded prover gives. -/

namespace ConfidentialTx

/-! ### Powers of two -/

theorem nextPowerOfTwo_eq (n : ℕ) : nextPowerOfTwo n = 2 ^ Nat.clog 2 n := by
  unfold nextPowerOfTwo
  split
  · next hn => rw [Nat.clog_of_right_le_one hn, pow_zero]
  · next hn =>
    have hfits : n ≤ 2 ^ ((n - 1).log2 + 1) := Nat.le_of_pred_lt Nat.lt_log2_self
    have hhalf : 2 ^ (n - 1).log2 < n :=
      (Nat.log2_self_le (by omega : n - 1 ≠ 0)).trans_lt (by omega)
    have hle : Nat.clog 2 n ≤ (n - 1).log2 + 1 := (Nat.clog_le_iff_le_pow one_lt_two).mpr hfits
    have hlt : (n - 1).log2 < Nat.clog 2 n := (Nat.lt_clog_iff_pow_lt one_lt_two).mpr hhalf
    rw [Nat.one_shiftLeft, hle.antisymm hlt]

theorem le_nextPowerOfTwo (n : ℕ) : n ≤ nextPowerOfTwo n := by
  rw [nextPowerOfTwo_eq]
  exact Nat.le_pow_clog one_lt_two n

theorem nextPowerOfTwo_isLeast (n : ℕ) : IsLeast {m | n ≤ m ∧ ∃ k, m = 2 ^ k} (nextPowerOfTwo n) := by
  refine ⟨⟨le_nextPowerOfTwo n, _, nextPowerOfTwo_eq n⟩, ?_⟩
  rintro _ ⟨hle, k, rfl⟩
  rw [nextPowerOfTwo_eq]
  exact Nat.pow_le_pow_right two_pos ((Nat.clog_le_iff_le_pow one_lt_two).mpr hle)

/-- From a number up to its power of two, all numbers have that power of two. -/
theorem nextPowerOfTwo_eq_of_le {k k' : ℕ} (hk : k ≤ k') (hk' : k' ≤ nextPowerOfTwo k) :
    nextPowerOfTwo k' = nextPowerOfTwo k := by
  rw [nextPowerOfTwo_eq] at hk' ⊢
  rw [nextPowerOfTwo_eq]
  have hle : Nat.clog 2 k' ≤ Nat.clog 2 k := (Nat.clog_le_iff_le_pow one_lt_two).mpr hk'
  rw [hle.antisymm (Nat.clog_mono_right 2 hk)]

/-! ### Padded lists -/

section Lists
variable {α β γ : Type}

theorem padToPowerOfTwo_of_ne_nil {xs : List α} (h : xs ≠ []) :
    padToPowerOfTwo xs =
      xs ++ List.replicate (nextPowerOfTwo xs.length - xs.length) (xs.getLast h) := by
  unfold padToPowerOfTwo
  rw [List.getLast?_eq_some_getLast h]

theorem length_le_padToPowerOfTwo (xs : List α) : xs.length ≤ (padToPowerOfTwo xs).length := by
  by_cases h : xs = []
  · rw [h]
    exact Nat.zero_le _
  · rw [padToPowerOfTwo_of_ne_nil h, List.length_append]
    exact Nat.le_add_right _ _

theorem length_padToPowerOfTwo_congr {as : List α} {bs : List β} (h : as.length = bs.length) :
    (padToPowerOfTwo as).length = (padToPowerOfTwo bs).length := by
  by_cases has : as = []
  · subst has
    obtain rfl := List.length_eq_zero_iff.mp h.symm
    rfl
  · have hbs : bs ≠ [] := fun hbs => has (List.length_eq_zero_iff.mp (h.trans (by simp [hbs])))
    rw [padToPowerOfTwo_of_ne_nil has, padToPowerOfTwo_of_ne_nil hbs, List.length_append,
      List.length_append, List.length_replicate, List.length_replicate, h]

theorem mem_of_mem_padToPowerOfTwo {xs : List α} {x : α} (h : x ∈ padToPowerOfTwo xs) : x ∈ xs := by
  by_cases hxs : xs = []
  · subst hxs
    exact h
  · rw [padToPowerOfTwo_of_ne_nil hxs, List.mem_append, List.mem_replicate] at h
    rcases h with h | ⟨-, rfl⟩
    · exact h
    · exact List.getLast_mem hxs

theorem length_padToPowerOfTwo {xs : List α} (hxs : xs ≠ []) :
    (padToPowerOfTwo xs).length = nextPowerOfTwo xs.length := by
  rw [padToPowerOfTwo_of_ne_nil hxs, List.length_append, List.length_replicate]
  exact Nat.add_sub_of_le (le_nextPowerOfTwo _)

theorem take_padToPowerOfTwo {xs : List α} {k : ℕ} (hk : k ≤ xs.length) :
    (padToPowerOfTwo xs).take k = xs.take k := by
  by_cases h : xs = []
  · rw [h]
    rfl
  · rw [padToPowerOfTwo_of_ne_nil h, List.take_append_of_le_length hk]

theorem getElem?_padToPowerOfTwo_of_lt {xs : List α} {i : ℕ} (hi : i < xs.length) :
    (padToPowerOfTwo xs)[i]? = xs[i]? := by
  have htake := congrArg (·[i]?) (take_padToPowerOfTwo (Nat.le_refl xs.length))
  simpa [List.getElem?_take, hi] using htake

theorem getElem?_padToPowerOfTwo_of_le {xs : List α} {i : ℕ} (hi : xs.length ≤ i)
    (hi' : i < (padToPowerOfTwo xs).length) : (padToPowerOfTwo xs)[i]? = xs[xs.length - 1]? := by
  by_cases h : xs = []
  · subst h
    exact absurd hi' (Nat.not_lt_zero i)
  · rw [padToPowerOfTwo_of_ne_nil h] at hi' ⊢
    rw [List.length_append, List.length_replicate] at hi'
    rw [List.getElem?_append_right hi, List.getElem?_replicate, if_pos (by omega),
      ← List.getLast?_eq_getElem?, List.getLast?_eq_some_getLast h]

/-- A padded list that is cut anywhere behind what is there is padded to the same list. -/
theorem padToPowerOfTwo_take {xs : List α} {k : ℕ} (hk : xs.length ≤ k)
    (hk' : k ≤ nextPowerOfTwo xs.length) :
    padToPowerOfTwo ((padToPowerOfTwo xs).take k) = padToPowerOfTwo xs := by
  by_cases h : xs = []
  · subst h
    exact congrArg padToPowerOfTwo List.take_nil
  · have hcut : (padToPowerOfTwo xs).take k = xs ++ List.replicate (k - xs.length) (xs.getLast h) := by
      rw [padToPowerOfTwo_of_ne_nil h, List.take_append, List.take_of_length_le hk, List.take_replicate]
      congr 2
      omega
    have hne : xs ++ List.replicate (k - xs.length) (xs.getLast h) ≠ [] := by simp [h]
    have hlast : (xs ++ List.replicate (k - xs.length) (xs.getLast h)).getLast hne = xs.getLast h := by
      rcases Nat.eq_zero_or_pos (k - xs.length) with hzero | hpos
      · simp [hzero]
      · rw [List.getLast_append_of_ne_nil _ (by simp [hpos.ne']), List.getLast_replicate]
    have hlength : (xs ++ List.replicate (k - xs.length) (xs.getLast h)).length = k := by
      rw [List.length_append, List.length_replicate]
      omega
    rw [hcut, padToPowerOfTwo_of_ne_nil hne, hlast, hlength, nextPowerOfTwo_eq_of_le hk hk',
      padToPowerOfTwo_of_ne_nil h, List.append_assoc, List.replicate_append_replicate]
    congr 2
    omega

theorem zipWith_padToPowerOfTwo (f : α → β → γ) {as : List α} {bs : List β}
    (h : as.length = bs.length) :
    List.zipWith f (padToPowerOfTwo as) (padToPowerOfTwo bs) =
      padToPowerOfTwo (List.zipWith f as bs) := by
  by_cases has : as = []
  · subst has
    obtain rfl := List.length_eq_zero_iff.mp h.symm
    rfl
  · have hbs : bs ≠ [] := fun hbs => has (List.length_eq_zero_iff.mp (h.trans (by simp [hbs])))
    have hzip : List.zipWith f as bs ≠ [] := by
      simp [has, hbs]
    have hlast : (List.zipWith f as bs).getLast hzip = f (as.getLast has) (bs.getLast hbs) := by
      simp [List.getLast_eq_getElem, h]
    rw [padToPowerOfTwo_of_ne_nil has, padToPowerOfTwo_of_ne_nil hbs, padToPowerOfTwo_of_ne_nil hzip,
      hlast, List.zipWith_append h, List.zipWith_replicate, List.length_zipWith, h]
    simp

end Lists

/-- The table of every transaction has generators for the commitments whose number, rounded up to a power
of two, is at most the number of parties. -/
theorem parametersFit_padToPowerOfTwo_iff {P α : Type} [PointEncoding P] (stream : Bytes → ℕ → Bytes)
    {xs : List α} (hxs : xs ≠ []) :
    ParametersFit (.build stream 64 64 : Generators P) amountBits (padToPowerOfTwo xs).length ↔
      2 ^ Nat.clog 2 xs.length ≤ 64 := by
  rw [length_padToPowerOfTwo hxs, nextPowerOfTwo_eq]
  constructor
  · intro h
    have hparties := h.parties
    rwa [Generators.parties_build] at hparties
  · intro h
    refine ⟨.inr (.inr (.inr rfl)), (Nat.two_pow_pos _).ne', isPowerOfTwo_two_pow _, ?_, ?_⟩
    · exact (Generators.capacity_build _ _ _).ge
    · rwa [Generators.parties_build]

theorem parametersFit_padToPowerOfTwo {P α : Type} [PointEncoding P] (stream : Bytes → ℕ → Bytes)
    {xs : List α} (hxs : xs ≠ []) (hle : xs.length ≤ 64) :
    ParametersFit (.build stream 64 64 : Generators P) amountBits (padToPowerOfTwo xs).length := by
  refine (parametersFit_padToPowerOfTwo_iff stream hxs).mpr ?_
  have hclog : Nat.clog 2 xs.length ≤ 6 := (Nat.clog_le_iff_le_pow one_lt_two).mpr hle
  exact Nat.pow_le_pow_right Nat.two_pos hclog

/-! ### Padded proofs -/

variable {F P : Type} (T : Type) [Transcript T] [Field F] [AddCommGroup P] [Module F P]
variable [MultiScalar F P] [LawfulMultiScalar F P] [ScalarEncoding F] [PointEncoding P]
variable [BEq F] [LawfulBEq F]
variable {gens : Generators P} {key : CommitmentKey P} {values : List UInt64} {blindings : List F}
variable {proof : RangeProof F P} {commitments : List P} {source : RandomSource}

/-- Whether nothing is zero that must not be, for a proof of amounts. -/
structure RegularAmounts (proof : RangeProof F P) (commitments : List P) : Prop where
  challenges : proof.HasNonzeroChallenges amountBits (padToPowerOfTwo commitments)
    (Transcript.start amountLabel : T)
  points : ∀ p ∈ proof.points, p ≠ 0

omit [LawfulMultiScalar F P] [LawfulBEq F] in
theorem fst_run_provePadded (hlen : values.length = blindings.length) (hvalues : values ≠ [])
    (source : RandomSource) :
    ((provePadded T gens key values blindings).run source).1 =
      ((RangeProof.prove gens key (Transcript.start amountLabel : T) (padToPowerOfTwo values)
        (padToPowerOfTwo blindings) amountBits).run source).1 := by
  unfold provePadded
  rw [if_neg (not_not.mpr hlen), if_neg (mt List.isEmpty_iff.mp hvalues)]

theorem madeBy_of_provePadded
    (h : ((provePadded T gens key values blindings).run source).1 = .ok (proof, commitments)) :
    values.length = blindings.length ∧
    commitments = padToPowerOfTwo (List.zipWith (fun v r => key.commit (v.toNat : F) r) values blindings) ∧
    ∃ dealer shares inner ch t, proof.MadeBy commitments gens key
      (Transcript.start amountLabel : T) amountBits (padToPowerOfTwo values).length dealer shares inner
        ch t := by
  unfold provePadded at h
  rw [fst_run_if_throw_eq_ok, fst_run_if_throw_eq_ok, not_not] at h
  obtain ⟨hlen, -, h⟩ := h
  obtain ⟨-, hcommitments, hmade⟩ := RangeProof.madeBy_of_prove h
  exact ⟨hlen, hcommitments.trans (zipWith_padToPowerOfTwo _ hlen), hmade⟩

omit [Module F P] [LawfulMultiScalar F P] [BEq F] [LawfulBEq F] in
theorem verifyPadded_fst [BEq P] (source : RandomSource) :
    ((verifyPadded T gens key proof commitments).run source).1 =
      (proof.verify gens key amountBits (padToPowerOfTwo commitments)
        (Transcript.start amountLabel : T) source).1 := by
  unfold verifyPadded
  rw [run_bind_of_ok (run_get source)]
  rcases proof.verify gens key amountBits (padToPowerOfTwo commitments)
    (Transcript.start amountLabel : T) source with ⟨e | ⟨⟩, t, source'⟩
  · rfl
  · rfl

variable {T}

/-- The padded verifier accepts what the padded prover gives, from every source, if nothing is zero that
must not be; the table may only have as many parties as the sizes can count. -/
theorem verifyPadded_of_provePadded [BEq P] [LawfulBEq P]
    (h : ((provePadded T gens key values blindings).run source).1 = .ok (proof, commitments))
    (hsize : amountBits * gens.parties < 2 ^ 32)
    (hregular : RegularAmounts T proof
      (List.zipWith (fun v r => key.commit (v.toNat : F) r) values blindings)) (source' : RandomSource) :
    ((verifyPadded T gens key proof
      (List.zipWith (fun v r => key.commit (v.toNat : F) r) values blindings)).run source').1 =
        .ok () := by
  obtain ⟨-, rfl, dealer, shares, inner, ch, t, hmade⟩ := madeBy_of_provePadded T h
  have hm : amountBits * (padToPowerOfTwo values).length < 2 ^ 32 :=
    (Nat.mul_le_mul_left _ hmade.fit.parties).trans_lt hsize
  rw [verifyPadded_fst, RangeProof.verify_fst]
  exact hmade.accepts hm hregular.challenges hregular.points _

end ConfidentialTx
