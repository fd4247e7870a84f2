import ConfidentialTx.Proofs.Ladders
import ConfidentialTx.Proofs.Shares
import ConfidentialTx.Proofs.Traps

/-! # The polynomials of a party

A party fills its vectors in one loop over the bits of its value, with the powers of `y` and of two in
variables, and then finds the coefficients of their inner product.

* `Party.Committed.fill_eq`: the loop does not trap, and it ends with the vectors of the party.
* `Party.Committed.innerProduct_closed`: the constant coefficient of the inner product, in closed form.
* `coefficients_closed`: the coefficients of any inner product are those of the product of the values, and the
  constant one of a party is the one that the verifier reckons with. -/

namespace ConfidentialTx

open Trapping

namespace Party.Committed
variable {F : Type} [Field F]

/-! ### The loop -/

/-- The variables of the loop that fills the vectors: the vectors, the power of `y` and the power of two. -/
structure Filling (F : Type) where
  (l r : LinearVector F)
  (expY expTwo : F)

/-- The bit of a word at a position. -/
def shiftedBit (v : UInt64) (i : ℕ) : Except Trap UInt64 :=
  if i < 64 then .ok ((v >>> .ofNat i) &&& 1) else .error .shift

/-- One round: the entries of the bit at position `i`, and the next two powers. -/
def fillEntry (party : Committed F) (ch : BitChallenge F) (offset : F) (s : Filling F) (i : ℕ) :
    Except Trap (Filling F) := do
  let bit ← shiftedBit party.value i
  let aL : F := (bit.toNat : F)
  let aR := aL - 1
  let sL ← entry party.bitBlindings.sL i
  let sR ← entry party.bitBlindings.sR i
  let l₀ ← replace s.l.c₀ i (aL - ch.z)
  let l₁ ← replace s.l.c₁ i sL
  let r₀ ← replace s.r.c₀ i (s.expY * (aR + ch.z) + offset * s.expTwo)
  let r₁ ← replace s.r.c₁ i (s.expY * sR)
  pure ⟨⟨l₀, l₁⟩, ⟨r₀, r₁⟩, s.expY * ch.y, s.expTwo + s.expTwo⟩

/-- The vectors of a party, from vectors of zeros and the powers at which its position starts. -/
def fill (party : Committed F) (ch : BitChallenge F) : Except Trap (LinearVector F × LinearVector F) := do
  let before ← mul party.position party.n
  let expY := (PowerLoop.start ch.y (.ofNat before)).run.result
  let offset := ch.z * ch.z * (PowerLoop.start ch.z (.ofNat party.position)).run.result
  let zeros : LinearVector F := ⟨.replicate party.n 0, .replicate party.n 0⟩
  let filled ← (List.range party.n).foldlM (party.fillEntry ch offset) ⟨zeros, zeros, expY, 1⟩
  pure (filled.l, filled.r)

theorem shiftedBit_eq (v : UInt64) {i : ℕ} (hi : i < 64) :
    ∃ bit : UInt64, shiftedBit v i = .ok bit ∧ bit.toNat = (v.toNat.testBit i).toNat := by
  have hshift : (UInt64.ofNat i).toNat = i := UInt64.toNat_ofNat_of_lt' (hi.trans (by decide))
  refine ⟨_, if_pos hi, ?_⟩
  rw [UInt64.toNat_and, UInt64.toNat_shiftRight, hshift, Nat.mod_eq_of_lt hi, Nat.toNat_testBit,
    ← Nat.shiftRight_eq_div_pow]
  exact Nat.and_one_is_mod _

/-- The vectors before the round at position `i`: the entries before the position, and zeros behind them. -/
def filled (party : Committed F) (ch : BitChallenge F) (i : ℕ) : Filling F :=
  let zeros : List F := .replicate party.n 0
  let l := party.left ch
  let r := party.right ch
  { l := ⟨l.c₀.take i ++ zeros.drop i, l.c₁.take i ++ zeros.drop i⟩
    r := ⟨r.c₀.take i ++ zeros.drop i, r.c₁.take i ++ zeros.drop i⟩
    expY := pow ch.y (party.position * party.n) * ch.y ^ i
    expTwo := ((2 : ℕ) : F) ^ i }

theorem getElem?_right (party : Committed F) (ch : BitChallenge F)
    (hR : party.bitBlindings.sR.length = party.n) {i : ℕ} (hi : i < party.n)
    (hsR : i < party.bitBlindings.sR.length) :
    (party.right ch).c₀[i]? = some (pow ch.y (party.position * party.n) * ch.y ^ i *
        (((party.value.toNat.testBit i).toNat : F) - 1 + ch.z)
      + ch.z * ch.z * pow ch.z party.position * ((2 : ℕ) : F) ^ i) ∧
    (party.right ch).c₁[i]? =
      some (pow ch.y (party.position * party.n) * ch.y ^ i * party.bitBlindings.sR[i]) := by
  obtain ⟨hr₀, hr₁⟩ := party.length_right hR ch
  refine ⟨List.getElem?_eq_some_iff.mpr ⟨hr₀.symm ▸ hi, ?_⟩, List.getElem?_eq_some_iff.mpr ⟨hr₁.symm ▸ hi, ?_⟩⟩
  · simp [right]
  · simp [right]

section Filled
variable (party : Committed F) (ch : BitChallenge F) (hn : party.n ≤ 64)
variable (hL : party.bitBlindings.sL.length = party.n) (hR : party.bitBlindings.sR.length = party.n)
include hn hL hR

theorem fillEntry_filled {i : ℕ} (hi : i < party.n) :
    party.fillEntry ch (ch.z * ch.z * pow ch.z party.position) (party.filled ch i) i =
      .ok (party.filled ch (i + 1)) := by
  obtain ⟨bit, hbit, hvalue⟩ := shiftedBit_eq party.value (hi.trans_le hn)
  have hzeros : i < (List.replicate party.n (0 : F)).length := by rwa [List.length_replicate]
  have hsL : i < party.bitBlindings.sL.length := hL.symm ▸ hi
  have hsR : i < party.bitBlindings.sR.length := hR.symm ▸ hi
  have hl₀ : (party.left ch).c₀[i]? = some (((party.value.toNat.testBit i).toNat : F) - ch.z) := by
    simp [left, valueBits, hi]
  have hl₁ : (party.left ch).c₁[i]? = some party.bitBlindings.sL[i] := List.getElem?_eq_getElem hsL
  obtain ⟨hr₀, hr₁⟩ := party.getElem?_right ch hR hi hsR
  have htwo : ((2 : ℕ) : F) ^ i + ((2 : ℕ) : F) ^ i = ((2 : ℕ) : F) ^ (i + 1) := by
    rw [pow_succ, Nat.cast_ofNat, mul_two]
  simp only [fillEntry, filled, hbit, hvalue, entry_eq hsL, entry_eq hsR, replace_take_append_drop hzeros hl₀,
    replace_take_append_drop hzeros hl₁, replace_take_append_drop hzeros hr₀,
    replace_take_append_drop hzeros hr₁, bind, Except.bind]
  rw [htwo, pow_succ ch.y, ← mul_assoc]
  rfl

/-- The loop ends with the vectors of the party, for the bits of a word and positions that words count. -/
theorem fill_eq (hposition : party.position < 2 ^ 64) (hbefore : party.position * party.n < 2 ^ 64) :
    party.fill ch = .ok (party.left ch, party.right ch) := by
  have hloop : (List.range party.n).foldlM
      (party.fillEntry ch (ch.z * ch.z * pow ch.z party.position)) (party.filled ch 0) =
      .ok (party.filled ch party.n) :=
    foldlM_range_eq_ok (party.filled ch) rfl rfl fun i hi => party.fillEntry_filled ch hn hL hR hi
  have hfirst : party.filled ch 0 = ⟨⟨.replicate party.n 0, .replicate party.n 0⟩,
      ⟨.replicate party.n 0, .replicate party.n 0⟩, pow ch.y (party.position * party.n), 1⟩ := by
    simp [filled]
  have hlast : (party.filled ch party.n).l = party.left ch ∧ (party.filled ch party.n).r = party.right ch := by
    have hl := party.length_left hL ch
    have hr := party.length_right hR ch
    simp [filled, List.take_of_length_le, hl, hr]
  rw [hfirst] at hloop
  simp only [fill, mul_eq hbefore, PowerLoop.result_start_ofNat _ hposition,
    PowerLoop.result_start_ofNat _ hbefore, hloop, bind, Except.bind, hlast.1, hlast.2]
  rfl

end Filled

/-! ### The coefficients -/

/-- The constant coefficient of a party: its value with its factor, and what the challenges fix. -/
theorem innerProduct_closed (party : Committed F) (h : party.value.toNat < 2 ^ party.n) (ch : BitChallenge F) :
    ((party.left ch).innerProduct (party.right ch)).c₀ =
      ch.z ^ (2 + party.position) * (party.value.toNat : F)
        + (ch.z - ch.z ^ 2) * ∑ i ∈ Finset.range party.n, ch.y ^ (party.position * party.n + i)
        - ch.z ^ (3 + party.position) * (2 ^ party.n - 1) := by
  have hsum : ch.y ^ (party.position * party.n) * ∑ i ∈ Finset.range party.n, ch.y ^ i =
      ∑ i ∈ Finset.range party.n, ch.y ^ (party.position * party.n + i) := by
    simp only [Finset.mul_sum, pow_add]
  rw [party.innerProduct_constant h ch, ProofShare.delta_eq, mul_assoc, hsum, pow_add ch.z 3]
  ring

end Party.Committed

section Coefficients
variable {F P : Type} [Field F] [MultiScalar F P]

/-- **Coefficients.**  For vectors of linear polynomials of one length, the inner product as a polynomial has
at every `x` the inner product of the values; the middle coefficient is right although it is found from the
sums.  For a value that its bits can hold, any position and any challenges, the constant coefficient of a party
is the value with its factor and what the challenges fix, in closed form.  The vectors are those that the loop
over the bits of the value fills, with running powers and without a trap. -/
theorem coefficients_closed :
    (∀ (n : ℕ) (l r : LinearVector F), l.c₀.length = n → l.c₁.length = n →
      r.c₀.length = n → r.c₁.length = n →
      ∀ x : F, (l.innerProduct r).eval x = innerProduct (l.eval x) (r.eval x)) ∧
    (∀ (party : Party.Committed F) (key : CommitmentKey P) (ch : BitChallenge F) (blindings : PolyBlindings F),
      party.value.toNat < 2 ^ party.n →
      (party.commitPolys key ch blindings).1.t.c₀ =
        ch.z ^ (2 + party.position) * (party.value.toNat : F)
          + (ch.z - ch.z ^ 2) * ∑ i ∈ Finset.range party.n, ch.y ^ (party.position * party.n + i)
          - ch.z ^ (3 + party.position) * (2 ^ party.n - 1)) ∧
    (∀ (party : Party.Committed F) (key : CommitmentKey P) (ch : BitChallenge F) (blindings : PolyBlindings F),
      party.n ≤ 64 → party.bitBlindings.sL.length = party.n → party.bitBlindings.sR.length = party.n →
      party.position < 2 ^ 64 → party.position * party.n < 2 ^ 64 →
      party.fill ch =
        .ok ((party.commitPolys key ch blindings).1.l, (party.commitPolys key ch blindings).1.r) ∧
      ∀ x : F, (party.commitPolys key ch blindings).1.t.eval x =
        innerProduct ((party.commitPolys key ch blindings).1.l.eval x)
          ((party.commitPolys key ch blindings).1.r.eval x)) := by
  refine ⟨fun n l r hl₀ hl₁ hr₀ hr₁ x => LinearVector.eval_innerProduct hl₀ hl₁ hr₀ hr₁ x, ?_, ?_⟩
  · intro party key ch blindings hvalue
    exact party.innerProduct_closed hvalue ch
  · intro party key ch blindings hn hL hR hposition hbefore
    obtain ⟨hl₀, hl₁⟩ := party.length_left hL ch
    obtain ⟨hr₀, hr₁⟩ := party.length_right hR ch
    exact ⟨party.fill_eq ch hn hL hR hposition hbefore, LinearVector.eval_innerProduct hl₀ hl₁ hr₀ hr₁⟩

/-- Vectors of two entries, and the last of four parties under the challenges zero and seven. -/
theorem coefficients_closed_of_four :
    (LinearVector.innerProduct ⟨[2, 3], [5, 7]⟩ ⟨[11, 13], [17, 0]⟩ : Quadratic Residue).eval 19 =
      innerProduct (LinearVector.eval ⟨[2, 3], [5, 7]⟩ 19) (LinearVector.eval ⟨[11, 13], [17, 0]⟩ 19) ∧
    lastOfFour.value.toNat < 2 ^ lastOfFour.n ∧
    (lastOfFour.commitPolys Residue.key ⟨0, 7⟩ ⟨11, 13⟩).1.t.c₀ =
      7 ^ 5 * ((200 : ℕ) : Residue) + (7 - 7 ^ 2) * ∑ i ∈ Finset.range 8, 0 ^ (3 * 8 + i)
        - 7 ^ 6 * (2 ^ 8 - 1) ∧
    lastOfFour.n ≤ 64 ∧ lastOfFour.position * lastOfFour.n < 2 ^ 64 ∧
    lastOfFour.fill ⟨0, 7⟩ =
      .ok ((lastOfFour.commitPolys Residue.key ⟨0, 7⟩ ⟨11, 13⟩).1.l,
        (lastOfFour.commitPolys Residue.key ⟨0, 7⟩ ⟨11, 13⟩).1.r) := by
  obtain ⟨hproducts, hconstants, hfills⟩ := coefficients_closed (F := Residue) (P := Residue)
  have hvalue : lastOfFour.value.toNat < 2 ^ lastOfFour.n := by decide
  have hn : lastOfFour.n ≤ 64 := by decide
  have hbefore : lastOfFour.position * lastOfFour.n < 2 ^ 64 := by decide
  have hfill := hfills lastOfFour Residue.key ⟨0, 7⟩ ⟨11, 13⟩ hn rfl rfl (by decide) hbefore
  exact ⟨hproducts 2 ⟨[2, 3], [5, 7]⟩ ⟨[11, 13], [17, 0]⟩ rfl rfl rfl rfl 19, hvalue,
    hconstants lastOfFour Residue.key ⟨0, 7⟩ ⟨11, 13⟩ hvalue, hn, hbefore, hfill.1⟩

end Coefficients
end ConfidentialTx
