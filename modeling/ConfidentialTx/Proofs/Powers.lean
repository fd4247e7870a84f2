import ConfidentialTx.Proofs.Laws
import ConfidentialTx.Range.Party
import ConfidentialTx.Range.Proof

/-! # Powers of challenges

The ladders of powers that the range proof computes, in closed form.

* `powersFrom_eq_ofFn`, `pow_eq`, `powerSum_eq`: a ladder, a single power and the sum of a ladder are
  what their names say, for every scalar and every length.
* `powers_mul`: the ladder over all positions is the ladders of the parties one after the other, each
  starting where the one before it ends.
* `delta_eq_sum`: the part of `t(0)` that the challenges fix is the sum of the parties' parts.
* `sum_bits`, `exists_sum_of_bits`: a value below `2ⁿ` is the sum of its bits with their weights, and
  every such sum is a value below `2ⁿ`. -/

namespace ConfidentialTx

theorem isPowerOfTwo_iff {n : ℕ} : isPowerOfTwo n = true ↔ n = 2 ^ n.log2 := by
  rw [isPowerOfTwo, beq_iff_eq, Nat.one_shiftLeft]

theorem isPowerOfTwo_two_pow (k : ℕ) : isPowerOfTwo (2 ^ k) = true := by
  rw [isPowerOfTwo_iff, Nat.log2_two_pow]

section Ladders
variable {F : Type} [Field F]

theorem powersFrom_eq_ofFn (start x : F) (n : ℕ) :
    powersFrom start x n = List.ofFn fun i : Fin n => start * x ^ (i : ℕ) := by
  induction n generalizing start with
  | zero => rfl
  | succ n ih =>
    rw [powersFrom, ih, List.ofFn_succ]
    simp [pow_succ', mul_assoc]

theorem powers_eq_ofFn (x : F) (n : ℕ) : powers x n = List.ofFn fun i : Fin n => x ^ (i : ℕ) := by
  simp [powers, powersFrom_eq_ofFn]

@[simp] theorem length_powersFrom (start x : F) (n : ℕ) : (powersFrom start x n).length = n := by
  simp [powersFrom_eq_ofFn]

@[simp] theorem length_powers (x : F) (n : ℕ) : (powers x n).length = n := length_powersFrom 1 x n

@[simp] theorem getElem_powersFrom (start x : F) (n i : ℕ) (h : i < (powersFrom start x n).length) :
    (powersFrom start x n)[i] = start * x ^ i := by
  simp [powersFrom_eq_ofFn]

@[simp] theorem getElem_powers (x : F) (n i : ℕ) (h : i < (powers x n).length) :
    (powers x n)[i] = x ^ i := by
  simp [powers]

/-- The ladders of `m` positions with `n` powers each follow on from one another. -/
theorem powers_mul (x : F) (n m : ℕ) :
    powers x (n * m) = (List.ofFn fun j : Fin m => powersFrom (x ^ (j * n : ℕ)) x n).flatten := by
  rw [Nat.mul_comm, powers_eq_ofFn, List.ofFn_mul]
  simp [powersFrom_eq_ofFn, pow_add]

theorem pow_eq (x : F) (n : ℕ) : pow x n = x ^ n := by
  fun_induction pow x n with
  | case1 x => simp
  | case2 x n hn half hodd ih =>
    have hdiv : 2 * (n / 2) + 1 = n := by omega
    rw [show half = (x * x) ^ (n / 2) from ih, ← sq, ← pow_mul, ← pow_succ', hdiv]
  | case3 x n hn half hodd ih =>
    have hdiv : 2 * (n / 2) = n := by omega
    rw [show half = (x * x) ^ (n / 2) from ih, ← sq, ← pow_mul, hdiv]

/-- A ladder of even length is a ladder of squares times the sum of its first two powers. -/
theorem sum_pow_two_mul (x : F) (n : ℕ) :
    ∑ i ∈ Finset.range (2 * n), x ^ i = (1 + x) * ∑ i ∈ Finset.range n, (x * x) ^ i := by
  induction n with
  | zero => simp
  | succ n ih =>
    rw [Nat.mul_succ, Finset.sum_range_succ, Finset.sum_range_succ, ih, Finset.sum_range_succ,
      ← sq, ← pow_mul]
    ring

theorem doublingSum_eq (x : F) (k : ℕ) : doublingSum x k = ∑ i ∈ Finset.range (2 ^ k), x ^ i := by
  induction k generalizing x with
  | zero => simp [doublingSum]
  | succ k ih => rw [doublingSum, ih, pow_succ', sum_pow_two_mul]

theorem sum_powers (x : F) (n : ℕ) : (powers x n).sum = ∑ i ∈ Finset.range n, x ^ i := by
  rw [powers_eq_ofFn, List.sum_ofFn, Fin.sum_univ_eq_sum_range]

theorem powerSum_eq (x : F) (n : ℕ) : powerSum x n = ∑ i ∈ Finset.range n, x ^ i := by
  rw [powerSum]
  split
  · next h => rw [doublingSum_eq, ← isPowerOfTwo_iff.mp h]
  · exact sum_powers x n

/-- The sum over all positions is a sum of geometric sums, one a party. -/
theorem sum_pow_mul (x : F) (n m : ℕ) :
    ∑ i ∈ Finset.range (n * m), x ^ i =
      ∑ j : Fin m, x ^ (j * n : ℕ) * ∑ i ∈ Finset.range n, x ^ i := by
  induction m with
  | zero => simp
  | succ m ih =>
    rw [Nat.mul_succ, Finset.sum_range_add, ih, Fin.sum_univ_castSucc]
    simp [Finset.mul_sum, pow_add, Nat.mul_comm]

/-- The part of `t(0)` that the challenges fix, party by party. -/
theorem delta_eq_sum (n m : ℕ) (y z : F) :
    delta n m y z = ∑ j : Fin m, ProofShare.delta n j ⟨y, z⟩ := by
  have hz : powerSum z m = ∑ j : Fin m, z ^ (j : ℕ) := by
    rw [powerSum_eq, Fin.sum_univ_eq_sum_range]
  have hy : powerSum y (n * m) = ∑ j : Fin m, y ^ (j * n : ℕ) * powerSum y n := by
    simp only [powerSum_eq, sum_pow_mul]
  simp only [delta, ProofShare.delta, hy, hz, pow_eq, Finset.mul_sum, ← Finset.sum_sub_distrib]
  refine Finset.sum_congr rfl fun j _ => ?_
  ring

end Ladders

/-! ### Bits -/

section Bits
variable {F : Type} [Field F]

theorem sum_testBit (v n : ℕ) :
    ∑ i ∈ Finset.range n, 2 ^ i * (v.testBit i).toNat = v % 2 ^ n := by
  induction n with
  | zero => simp [Nat.mod_one]
  | succ n ih => rw [Finset.sum_range_succ, ih, Nat.toNat_testBit, Nat.mod_pow_succ]

@[simp] theorem length_valueBits (v : UInt64) (n : ℕ) : (valueBits v n : List F).length = n := by
  simp [valueBits]

@[simp] theorem getElem_valueBits (v : UInt64) (n i : ℕ) (h : i < (valueBits v n : List F).length) :
    (valueBits v n : List F)[i] = ((v.toNat.testBit i).toNat : F) := by
  simp [valueBits]

theorem sum_testBit_cast {v n : ℕ} (h : v < 2 ^ n) :
    ∑ i : Fin n, (2 : F) ^ (i : ℕ) * ((v.testBit i).toNat : F) = (v : F) := by
  have hsum := sum_testBit v n
  rw [Nat.mod_eq_of_lt h, ← Fin.sum_univ_eq_sum_range fun i => 2 ^ i * (v.testBit i).toNat] at hsum
  have hcast := congrArg (Nat.cast : ℕ → F) hsum
  push_cast at hcast
  exact hcast

theorem sum_bits {v : UInt64} {n : ℕ} (h : v.toNat < 2 ^ n) :
    ∑ i : Fin n, (2 : F) ^ (i : ℕ) * ((v.toNat.testBit i).toNat : F) = (v.toNat : F) :=
  sum_testBit_cast h

/-- Roots of `b (b - 1)` with their weights sum to a number of `n` bits. -/
theorem exists_sum_of_bits {n : ℕ} {b : Fin n → F} (h : ∀ i, b i * (b i - 1) = 0) :
    ∃ v < 2 ^ n, ∑ i : Fin n, (2 : F) ^ (i : ℕ) * b i = ((v : ℕ) : F) := by
  have hbit : ∀ i, ∃ bit : Bool, (bit.toNat : F) = b i := by
    intro i
    rcases mul_eq_zero.mp (h i) with hzero | hone
    · exact ⟨false, by simp [hzero]⟩
    · exact ⟨true, by simp [sub_eq_zero.mp hone]⟩
  choose bit hbit using hbit
  refine ⟨Nat.ofBits bit, Nat.ofBits_lt_two_pow bit, ?_⟩
  rw [← sum_testBit_cast (Nat.ofBits_lt_two_pow bit)]
  refine Finset.sum_congr rfl fun i _ => ?_
  rw [Nat.testBit_ofBits_lt bit i i.isLt, hbit]

theorem bit_mul_bit_sub_one (b : Bool) : (b.toNat : F) * ((b.toNat : F) - 1) = 0 := by
  cases b <;> simp

end Bits
end ConfidentialTx
