import ConfidentialTx.Proofs.Powers

/-! # Loops that square

Powers, and sums of as many powers as a power of two, are defined by recursion on the square.  A program finds
them in a loop that squares a scalar in its place in every round.

* `PowerLoop.step_invariant`: a round over a bit of the exponent keeps the product of the result and of the
  power that is still to come.
* `PowerLoop.run_eq_iterate`, `PowerLoop.result_run`: the loop ends after as many rounds as the exponent has
  bits, with the power.
* `SumLoop.step_sums`, `SumLoop.run_sums`: a round doubles the number of summed powers, up to the length of the
  ladder.
* `sums_of_powers_regroup`: every way to sum a ladder gives the same, and the part of `t(0)` that the
  challenges fix is the sum of the parts of the parties. -/

namespace ConfidentialTx

variable {F : Type}

/-! ### Powers -/

/-- The variables of the loop that raises a scalar to the exponent of a word. -/
structure PowerLoop (F : Type) where
  (result square : F)
  exponent : UInt64

namespace PowerLoop

theorem toNat_half (n : UInt64) : (n >>> 1).toNat = n.toNat / 2 := by
  rw [UInt64.toNat_shiftRight]
  exact Nat.shiftRight_eq_div_pow _ 1

theorem lowest_bit_iff (n : UInt64) : n &&& 1 = 1 ↔ n.toNat % 2 = 1 := by
  rw [← UInt64.toNat_inj, UInt64.toNat_and]
  exact Nat.and_one_is_mod n.toNat ▸ Iff.rfl

theorem size_half {n : ℕ} (hn : 0 < n) : n.size = (n / 2).size + 1 := by
  have hbit : Nat.bit n.bodd (n / 2) = n := by rw [← Nat.div2_val, Nat.bit_bodd_div2]
  have hsize := Nat.size_bit (hbit.trans_ne hn.ne')
  rwa [hbit] at hsize

/-- The loop before its first round. -/
def start [One F] (x : F) (n : UInt64) : PowerLoop F := ⟨1, x, n⟩

section Rounds
variable [Mul F]

/-- One round: the lowest bit of the exponent says whether the square is taken into the result. -/
def step (s : PowerLoop F) : PowerLoop F where
  result := if s.exponent &&& 1 = 1 then s.result * s.square else s.result
  square := s.square * s.square
  exponent := s.exponent >>> 1

/-- All rounds. -/
def run (s : PowerLoop F) : PowerLoop F := if 0 < s.exponent then run s.step else s
termination_by s.exponent.toNat
decreasing_by
  rename_i hpos
  have hpos' : 0 < s.exponent.toNat := UInt64.lt_iff_toNat_lt.mp hpos
  rw [step, toNat_half]
  omega

/-- The loop runs one round for every bit of the exponent. -/
theorem run_eq_iterate (s : PowerLoop F) : s.run = step^[s.exponent.toNat.size] s := by
  fun_induction run s with
  | case1 s hpos ih =>
    rw [size_half (UInt64.lt_iff_toNat_lt.mp hpos), Function.iterate_succ_apply, ih]
    rw [step, toNat_half]
  | case2 s hzero =>
    have hexponent : s.exponent.toNat = 0 :=
      Nat.eq_zero_of_not_pos fun hpos => hzero (UInt64.lt_iff_toNat_lt.mpr hpos)
    rw [hexponent]
    rfl

theorem exponent_run (s : PowerLoop F) : s.run.exponent = 0 := by
  fun_induction run s with
  | case1 s hpos ih => exact ih
  | case2 s hzero => exact UInt64.le_zero_iff.mp (UInt64.not_lt.mp hzero)

end Rounds

section Laws
variable [CommMonoid F]

/-- A round keeps the product of the result and of the power that is still to come. -/
theorem step_invariant (s : PowerLoop F) :
    s.step.result * s.step.square ^ s.step.exponent.toNat = s.result * s.square ^ s.exponent.toNat := by
  have hpower : (s.square * s.square) ^ (s.exponent.toNat / 2) = s.square ^ (2 * (s.exponent.toNat / 2)) := by
    rw [← sq, pow_mul]
  simp only [step, toNat_half, hpower]
  split
  · next hbit =>
    have hone := (lowest_bit_iff s.exponent).mp hbit
    have hodd : 2 * (s.exponent.toNat / 2) + 1 = s.exponent.toNat := by omega
    rw [mul_assoc, ← pow_succ', hodd]
  · next hbit =>
    have hzero := mt (lowest_bit_iff s.exponent).mpr hbit
    have heven : 2 * (s.exponent.toNat / 2) = s.exponent.toNat := by omega
    rw [heven]

/-- The exponent is used up at the end, and so the product is the result. -/
theorem result_run (s : PowerLoop F) : s.run.result = s.result * s.square ^ s.exponent.toNat := by
  have hinvariant : s.run.result * s.run.square ^ s.run.exponent.toNat =
      s.result * s.square ^ s.exponent.toNat := by
    rw [run_eq_iterate]
    generalize s.exponent.toNat.size = rounds
    induction rounds with
    | zero => rfl
    | succ rounds ih => rw [Function.iterate_succ_apply', step_invariant, ih]
  rwa [exponent_run, UInt64.toNat_zero, pow_zero, mul_one] at hinvariant

theorem result_start (x : F) (n : UInt64) : (start x n).run.result = x ^ n.toNat := by
  rw [result_run]
  exact one_mul _

end Laws

theorem result_start_ofNat [Field F] (x : F) {n : ℕ} (hn : n < 2 ^ 64) :
    (start x (.ofNat n)).run.result = pow x n := by
  rw [result_start, pow_eq, UInt64.toNat_ofNat_of_lt' hn]

end PowerLoop

/-! ### Sums of powers -/

/-- The variables of the loop that sums as many powers as a power of two. -/
structure SumLoop (F : Type) where
  remaining : ℕ
  (result factor : F)

namespace SumLoop

section Definitions
variable [Add F] [Mul F]

/-- One round: the sum, and the sum with the factor of the powers behind it. -/
def step (s : SumLoop F) : SumLoop F where
  remaining := s.remaining / 2
  result := s.result + s.factor * s.factor * s.result
  factor := s.factor * s.factor

/-- All rounds. -/
def run (s : SumLoop F) : SumLoop F := if 2 < s.remaining then run s.step else s
termination_by s.remaining
decreasing_by
  change s.remaining / 2 < s.remaining
  omega

end Definitions

variable [Field F] {x : F} {c : ℕ} {s : SumLoop F}

/-- The result is the sum of the first `2c` powers, and the factor is the power of `c`. -/
structure Sums (x : F) (c : ℕ) (s : SumLoop F) : Prop where
  factor : s.factor = x ^ c
  result : s.result = ∑ i ∈ Finset.range (c + c), x ^ i

/-- The sum and the sum times `xᶜ⁺ᶜ` are the sum of twice as many powers. -/
theorem step_sums (h : s.Sums x c) : s.step.Sums x (c + c) where
  factor := by rw [step, h.factor, pow_add]
  result := by
    rw [Finset.sum_range_add]
    simp only [step, h.factor, h.result, pow_add, Finset.mul_sum]

/-- From `2ᵏ⁺¹` powers on, the loop goes through the doublings that are left. -/
theorem run_sums {k : ℕ} (hk : s.remaining = 2 ^ (k + 1)) (h : s.Sums x c) : s.run.Sums x (2 ^ k * c) := by
  induction k generalizing s c with
  | zero =>
    rw [run, if_neg (by omega), pow_zero, one_mul]
    exact h
  | succ k ih =>
    have hremaining : s.step.remaining = 2 ^ (k + 1) := by
      change s.remaining / 2 = 2 ^ (k + 1)
      rw [hk, pow_succ, Nat.mul_div_cancel _ Nat.two_pos]
    have hmore : 2 < s.remaining := by
      rw [hk, pow_succ, pow_succ]
      have := Nat.two_pow_pos k
      omega
    rw [run, if_pos hmore, pow_succ, mul_assoc, two_mul]
    exact ih hremaining (step_sums h)

end SumLoop

/-- The sum of the first `n` powers: for a power of two by the loop, otherwise along the ladder. -/
def loopSum [Add F] [Mul F] [Zero F] [One F] [NatCast F] (x : F) (n : ℕ) : F :=
  if isPowerOfTwo n then
    if n = 0 ∨ n = 1 then (n : F) else (SumLoop.run ⟨n, 1 + x, x⟩).result
  else (powers x n).sum

section Sums
variable [Field F]

theorem loopSum_eq (x : F) (n : ℕ) : loopSum x n = ∑ i ∈ Finset.range n, x ^ i := by
  rw [loopSum]
  split
  · next h =>
    obtain ⟨k, rfl⟩ : ∃ k, n = 2 ^ k := ⟨_, isPowerOfTwo_iff.mp h⟩
    cases k with
    | zero => simp
    | succ k =>
      have hfirst : SumLoop.Sums x 1 ⟨2 ^ (k + 1), 1 + x, x⟩ := by
        constructor <;> simp [Finset.sum_range_succ]
      have hlarge : ¬(2 ^ (k + 1) = 0 ∨ 2 ^ (k + 1) = 1) := by
        have := Nat.two_pow_pos k
        rw [pow_succ]
        omega
      rw [if_neg hlarge, (SumLoop.run_sums rfl hfirst).result, mul_one, pow_succ, mul_two]
  · exact sum_powers x n

theorem ProofShare.delta_eq (n j : ℕ) (ch : BitChallenge F) :
    ProofShare.delta n j ch = (ch.z - ch.z ^ 2) * ch.y ^ (j * n) * ∑ i ∈ Finset.range n, ch.y ^ i
      - ch.z ^ 3 * ch.z ^ j * (2 ^ n - 1) := by
  have htwo : ∑ i ∈ Finset.range n, (2 : F) ^ i = 2 ^ n - 1 := by
    rw [← geom_sum_mul (2 : F) n]
    ring
  rw [ProofShare.delta, powerSum_eq, powerSum_eq, pow_eq, pow_eq, Nat.cast_ofNat, htwo]
  ring

/-- **Sums of powers.**  The sum of the first `n` powers of any scalar is the same along the ladder, by the
product that doubles and by the loop that doubles, for every `n`.  What the challenges fix of `t(0)` is, for any
number of parties and any challenges, the sum of what they fix for the parties, with the geometric sums of
each. -/
theorem sums_of_powers_regroup :
    (∀ (x : F) (n : ℕ),
      powerSum x n = ∑ i ∈ Finset.range n, x ^ i ∧
      (powers x n).sum = powerSum x n ∧ loopSum x n = powerSum x n) ∧
    (∀ (x : F) (k : ℕ), doublingSum x k = (powers x (2 ^ k)).sum) ∧
    ∀ (n m : ℕ) (y z : F),
      delta n m y z = ∑ j ∈ Finset.range m,
        ((z - z ^ 2) * y ^ (j * n) * ∑ i ∈ Finset.range n, y ^ i - z ^ 3 * z ^ j * (2 ^ n - 1)) ∧
      delta n m y z = ∑ j ∈ Finset.range m, ProofShare.delta n j ⟨y, z⟩ := by
  have hdelta : ∀ (n m : ℕ) (y z : F),
      delta n m y z = ∑ j ∈ Finset.range m, ProofShare.delta n j ⟨y, z⟩ := by
    intro n m y z
    rw [delta_eq_sum, Fin.sum_univ_eq_sum_range fun j => ProofShare.delta n j ⟨y, z⟩]
  refine ⟨fun x n => ⟨powerSum_eq x n, ?_, ?_⟩, fun x k => ?_, fun n m y z => ⟨?_, hdelta n m y z⟩⟩
  · rw [sum_powers, powerSum_eq]
  · rw [loopSum_eq, powerSum_eq]
  · rw [doublingSum_eq, sum_powers]
  · rw [hdelta]
    exact Finset.sum_congr rfl fun j _ => ProofShare.delta_eq n j ⟨y, z⟩

end Sums
end ConfidentialTx
