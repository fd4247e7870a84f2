import ConfidentialTx.Proofs.Residues
import ConfidentialTx.Proofs.SquaringLoops

/-! # Ladders over all positions

The dealer and the verifier go through the powers of a challenge one by one, for the bits of all parties.  A
party and its audit jump to the first power of a position and go on from there.

* `Ladder.next_iterate`, `Ladder.take_eq`: what an iterator over powers gives, item by item and as a list.
* `itemsAt_powers`, `powersFrom_inv`: what a party and its audit compute after the jump is the part of the
  ladder over all positions that belongs to the position.
* `Party.Committed.rightAlong`, `ProofShare.vectorScalarsAlong`, `ProofShare.valueScalarsAlong`: the vectors of
  a party and the scalars of its audit, with the powers of the challenges given.
* `jumps_continue_ladders`: with the powers of the whole ladders, these are what the party and the audit
  compute. -/

namespace ConfidentialTx

/-! ### Iterators -/

/-- An iterator over the powers of a scalar: the scalar, and the power that comes next. -/
structure Ladder (F : Type) where
  (base power : F)

namespace Ladder
variable {F : Type}

/-- The iterator before its first item. -/
def start [One F] (x : F) : Ladder F := ⟨x, 1⟩

section Definitions
variable [Mul F]

/-- The next power, and the iterator behind it. -/
def next (l : Ladder F) : F × Ladder F := (l.power, ⟨l.base, l.power * l.base⟩)

/-- The next items. -/
def take : ℕ → Ladder F → List F
  | 0, _ => []
  | n + 1, l => l.next.1 :: take n l.next.2

theorem take_eq (l : Ladder F) (n : ℕ) : l.take n = powersFrom l.power l.base n := by
  induction n generalizing l with
  | zero => rfl
  | succ n ih =>
    rw [take, powersFrom, ih]
    rfl

end Definitions

theorem next_iterate [CommMonoid F] (l : Ladder F) (n : ℕ) :
    ((fun l : Ladder F => l.next.2)^[n] l).next.1 = l.power * l.base ^ n := by
  induction n generalizing l with
  | zero => rw [pow_zero, mul_one]; rfl
  | succ n ih =>
    rw [Function.iterate_succ_apply, ih, pow_succ', ← mul_assoc]
    rfl

end Ladder

/-! ### Positions -/

section Positions
variable {F : Type} [Field F]

/-- The items of position `j` in a list with `n` items for every position. -/
def itemsAt {α : Type} (xs : List α) (n j : ℕ) : List α := (xs.drop (j * n)).take n

theorem itemsAt_powers (x : F) {n m j : ℕ} (hj : j < m) :
    itemsAt (powers x (n * m)) n j = powersFrom (pow x (j * n)) x n := by
  have hend : j * n + n ≤ n * m := by
    rw [← Nat.succ_mul, Nat.mul_comm n m]
    exact Nat.mul_le_mul_right n hj
  apply List.ext_getElem
  · simp only [itemsAt, List.length_take, List.length_drop, length_powers, length_powersFrom]
    omega
  · intro i h₁ h₂
    simp [itemsAt, pow_add, pow_eq]

/-- The inverse of a jump brings the first inverse powers to those behind it. -/
theorem powersFrom_inv (x : F) (k n : ℕ) :
    powersFrom (pow x⁻¹ k) x⁻¹ n = (powers x⁻¹ n).map (· * (pow x k)⁻¹) := by
  apply List.ext_getElem
  · simp
  · intro i h₁ h₂
    simp only [getElem_powersFrom, List.getElem_map, getElem_powers, pow_eq, inv_pow]
    rw [mul_comm]

theorem sum_itemsAt_powers (x : F) {n m j : ℕ} (hj : j < m) :
    (itemsAt (powers x (n * m)) n j).sum = powerSum x n * pow x (j * n) := by
  rw [itemsAt_powers x hj, powersFrom_eq_ofFn, List.sum_ofFn, ← Finset.mul_sum,
    Fin.sum_univ_eq_sum_range fun i => x ^ i, powerSum_eq, mul_comm]

/-- The ladder over all positions, piece by piece, each from a jump on. -/
theorem powers_eq_flatten (x : F) (n m : ℕ) :
    powers x (n * m) = (List.ofFn fun j : Fin m => powersFrom (pow x (j * n)) x n).flatten := by
  simp only [powers_mul, pow_eq]

theorem pow_mem_powers (x : F) {m j : ℕ} (hj : j < m) : pow x j ∈ (powers x m)[j]? := by
  rw [Option.mem_def, List.getElem?_eq_some_iff]
  exact ⟨(length_powers x m).symm ▸ hj, (getElem_powers x m j _).trans (pow_eq x j).symm⟩

end Positions

/-! ### Vectors and scalars along given powers -/

section Along
variable {F : Type} [Field F]

/-- The right vector of a party, with its powers of `y` and its power of `z` given. -/
def Party.Committed.rightAlong (party : Party.Committed F) (z zj : F) (ys : List F) : LinearVector F :=
  let bits := List.zipWith (fun y b => y * (b - 1 + z)) ys (valueBits party.value party.n)
  ⟨List.zipWith (· + ·) bits ((powers ((2 : ℕ) : F) party.n).map (z * z * zj * ·)),
    List.zipWith (· * ·) ys party.bitBlindings.sR⟩

namespace ProofShare
variable (share : ProofShare F) (z zj x : F)

/-- The scalars in the audit of the vectors, with the powers of `y⁻¹` and the power of `z` given. -/
def vectorScalarsAlong (ys : List F) : List F :=
  [1, x, -share.eBlinding] ++ share.l.map (-z - ·) ++
    List.zipWith (fun r (two, y) => z + y * (-r) + y * (z * z * zj * two)) share.r
      ((powers ((2 : ℕ) : F) share.l.length).zip ys)

/-- The scalars in the audit of the inner product, with the powers of `y` and the power of `z` given. -/
def valueScalarsAlong (ys : List F) : List F :=
  [z * z * zj, x, x * x,
    (z - z * z) * ys.sum - z * (z * z) * (powers ((2 : ℕ) : F) share.l.length).sum * zj - share.tx,
    -share.txBlinding]

end ProofShare

theorem Party.Committed.right_eq_rightAlong (party : Party.Committed F) (ch : BitChallenge F) {m : ℕ}
    (hj : party.position < m) :
    party.right ch = party.rightAlong ch.z (pow ch.z party.position)
      (itemsAt (powers ch.y (party.n * m)) party.n party.position) := by
  rw [itemsAt_powers ch.y hj]
  rfl

namespace ProofShare
variable (share : ProofShare F) (ch : BitChallenge F) (x : F) {m j : ℕ}

theorem vectorScalars_eq_along (hj : j < m) :
    share.vectorScalars ch x j = share.vectorScalarsAlong ch.z (pow ch.z j) x
      (itemsAt (powers ch.y⁻¹ (share.l.length * m)) share.l.length j) := by
  rw [itemsAt_powers ch.y⁻¹ hj, powersFrom_inv, vectorScalars, vectorScalarsAlong]
  congr 1
  apply List.ext_getElem
  · simp
  · intro i h₁ h₂
    simp

theorem valueScalars_eq_along (hj : j < m) :
    share.valueScalars ch x j = share.valueScalarsAlong ch.z (pow ch.z j) x
      (itemsAt (powers ch.y (share.l.length * m)) share.l.length j) := by
  have htwo : powerSum ((2 : ℕ) : F) share.l.length = (powers ((2 : ℕ) : F) share.l.length).sum := by
    rw [powerSum_eq, sum_powers]
  rw [valueScalars, delta, valueScalarsAlong, sum_itemsAt_powers ch.y hj, htwo,
    ← mul_assoc (ch.z - ch.z * ch.z)]

end ProofShare

variable {P : Type} [MultiScalar F P]

/-- **Jumps and ladders.**  For every scalar and every word `n`, the loop over the bits of `n` ends within
sixty-four rounds, one for each bit, with the power; it is the item with the number `n` of the iterator over
the powers.  The power zero is one, also of zero, and a word makes any jump that it can count.  The powers over
all positions, and those of the inverse, are the pieces of the positions behind one another, each piece from a
jump on.  So at every position the vectors that a party commits to are those along the powers of the whole
ladder, and so are the scalars of its audit. -/
theorem jumps_continue_ladders :
    (∀ (x : F) (n : UInt64),
      (PowerLoop.start x n).run = PowerLoop.step^[n.toNat.size] (.start x n) ∧ n.toNat.size ≤ 64 ∧
      (PowerLoop.start x n).run.exponent = 0 ∧
      (PowerLoop.start x n).run.result = x ^ n.toNat ∧ pow x n.toNat = x ^ n.toNat ∧
      ((fun l : Ladder F => l.next.2)^[n.toNat] (.start x)).next.1 = x ^ n.toNat) ∧
    (PowerLoop.start (0 : F) 0).run.result = 1 ∧
    (∀ (x : F) (n : ℕ), n < 2 ^ 64 → (PowerLoop.start x (.ofNat n)).run.result = pow x n) ∧
    (∀ (x : F) (n m : ℕ),
      (Ladder.start x).take (n * m) = powers x (n * m) ∧
      powers x (n * m) = (List.ofFn fun j : Fin m => powersFrom (pow x (j * n)) x n).flatten ∧
      powers x⁻¹ (n * m) =
        (List.ofFn fun j : Fin m => (powers x⁻¹ n).map (· * (pow x (j * n))⁻¹)).flatten ∧
      powers x m = List.ofFn fun j : Fin m => pow x j) ∧
    (∀ (party : Party.Committed F) (key : CommitmentKey P) (ch : BitChallenge F) (blindings : PolyBlindings F)
      (m : ℕ), party.position < m →
      ∃ zj ∈ (powers ch.z m)[party.position]?,
        (party.commitPolys key ch blindings).1.r =
          party.rightAlong ch.z zj (itemsAt (powers ch.y (party.n * m)) party.n party.position) ∧
        (party.commitPolys key ch blindings).1.offset = ch.z * ch.z * zj) ∧
    ∀ (share : ProofShare F) (ch : BitChallenge F) (x : F) (m j : ℕ), j < m →
      ∃ zj ∈ (powers ch.z m)[j]?,
        share.vectorScalars ch x j = share.vectorScalarsAlong ch.z zj x
          (itemsAt (powers ch.y⁻¹ (share.l.length * m)) share.l.length j) ∧
        share.valueScalars ch x j = share.valueScalarsAlong ch.z zj x
          (itemsAt (powers ch.y (share.l.length * m)) share.l.length j) := by
  refine ⟨?_, (PowerLoop.result_start 0 0).trans (pow_zero _), fun x n => PowerLoop.result_start_ofNat x,
    ?_, ?_, ?_⟩
  · intro x n
    refine ⟨PowerLoop.run_eq_iterate _, Nat.size_le.mpr n.toNat_lt, PowerLoop.exponent_run _,
      PowerLoop.result_start x n, pow_eq x _, ?_⟩
    rw [Ladder.next_iterate]
    exact one_mul _
  · intro x n m
    refine ⟨Ladder.take_eq _ _, powers_eq_flatten x n m, ?_, ?_⟩
    · rw [powers_eq_flatten]
      simp only [powersFrom_inv]
    · simp only [powers_eq_ofFn, pow_eq]
  · exact fun party key ch blindings m hj =>
      ⟨_, pow_mem_powers ch.z hj, party.right_eq_rightAlong ch hj, rfl⟩
  · exact fun share ch x m j hj =>
      ⟨_, pow_mem_powers ch.z hj, share.vectorScalars_eq_along ch x hj, share.valueScalars_eq_along ch x hj⟩

end Along

/-- The last of four parties, with a value of eight bits. -/
def lastOfFour : Party.Committed Residue :=
  ⟨200, 17, 8, 3, ⟨2, 3, [5, 7, 11, 13, 17, 19, 23, 29], [31, 37, 41, 43, 47, 53, 59, 61]⟩⟩

/-- A share of the third of four parties. -/
def thirdShare : ProofShare Residue := ⟨19, 23, 29, [2, 0, 5, 1, 7, 1, 0, 3], [4, 9, 0, 6, 8, 2, 5, 1]⟩

/-- A power with an exponent of six bits, a party at the last of four positions and an audit at the third. -/
theorem jumps_continue_ladders_of_four :
    (PowerLoop.start (3 : Residue) 41).run = PowerLoop.step^[6] (.start 3 41) ∧
    (PowerLoop.start (3 : Residue) 41).run.result = 3 ^ 41 ∧
    (PowerLoop.start (5 : Residue) (.ofNat (3 * 8))).run.result = pow 5 (3 * 8) ∧
    lastOfFour.position < 4 ∧
    (∃ zj ∈ (powers (7 : Residue) 4)[3]?,
      (lastOfFour.commitPolys Residue.key ⟨5, 7⟩ ⟨11, 13⟩).1.r =
        lastOfFour.rightAlong 7 zj (itemsAt (powers 5 (8 * 4)) 8 3)) ∧
    2 < 4 ∧
    ∃ zj ∈ (powers (7 : Residue) 4)[2]?,
      thirdShare.vectorScalars ⟨5, 7⟩ 11 2 =
        thirdShare.vectorScalarsAlong 7 zj 11 (itemsAt (powers 5⁻¹ (8 * 4)) 8 2) ∧
      thirdShare.valueScalars ⟨5, 7⟩ 11 2 =
        thirdShare.valueScalarsAlong 7 zj 11 (itemsAt (powers 5 (8 * 4)) 8 2) := by
  obtain ⟨hloop, -, hjump, -, hparty, haudit⟩ := jumps_continue_ladders (F := Residue) (P := Residue)
  obtain ⟨hrounds, -, -, hpower, -⟩ := hloop 3 41
  have hposition : lastOfFour.position < 4 := by decide
  obtain ⟨zj, hzj, hright, -⟩ := hparty lastOfFour Residue.key ⟨5, 7⟩ ⟨11, 13⟩ 4 hposition
  exact ⟨hrounds, hpower, hjump 5 (3 * 8) (by decide), hposition, ⟨zj, hzj, hright⟩, by decide,
    haudit thirdShare ⟨5, 7⟩ 11 4 2 (by decide)⟩

end ConfidentialTx
