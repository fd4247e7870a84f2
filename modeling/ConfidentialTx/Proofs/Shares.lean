import ConfidentialTx.Proofs.Equation
import ConfidentialTx.Range.Party

/-! # Shares of parties

What one party contributes to the two points of a proof.

* `ProofShare.vectorDefect`, `ProofShare.valueDefect`: what is left of the equations of a share, at
  the position of its party.
* `ProofShare.Agrees`: the share has vectors of the right length, gives their inner product, and leaves
  nothing of the two equations.
* `Party.vectorDefect_share`, `Party.valueDefect_share`: both equations hold for the share of an honest
  party.
* `Party.share_agrees`: the share of a party that follows the protocol agrees with its commitments,
  at every position and under all challenges with a `y` other than zero. -/

namespace ConfidentialTx

/-! ### Inner products of linear vectors -/

namespace LinearVector
variable {F : Type} [Field F]

/-- The coefficients of an inner product, one of them found from the sums of the vectors, are those
of the product of the values. -/
theorem eval_innerProduct {n : ℕ} {l r : LinearVector F} (hl₀ : l.c₀.length = n)
    (hl₁ : l.c₁.length = n) (hr₀ : r.c₀.length = n) (hr₁ : r.c₁.length = n) (x : F) :
    (l.innerProduct r).eval x = ConfidentialTx.innerProduct (l.eval x) (r.eval x) := by
  have hl : (l.eval x).length = n := by simp [eval, hl₀, hl₁]
  have hr : (r.eval x).length = n := by simp [eval, hr₀, hr₁]
  have hls : (List.zipWith (· + ·) l.c₀ l.c₁).length = n := by simp [hl₀, hl₁]
  have hrs : (List.zipWith (· + ·) r.c₀ r.c₁).length = n := by simp [hr₀, hr₁]
  simp only [Quadratic.eval, innerProduct]
  rw [innerProduct_eq_sum hl hr, innerProduct_eq_sum hls hrs, innerProduct_eq_sum hl₀ hr₀,
    innerProduct_eq_sum hl₁ hr₁]
  simp only [Finset.mul_sum, ← Finset.sum_add_distrib, ← Finset.sum_sub_distrib]
  refine Finset.sum_congr rfl fun i _ => ?_
  simp only [eval, Fin.getElem_fin, List.getElem_zipWith]
  ring

end LinearVector

/-! ### The equations of a share -/

namespace ProofShare
variable {F P : Type} [Field F]

/-- The powers of `y⁻¹` at position `j`. -/
def inversePowers (n j : ℕ) (y : F) : List F := powersFrom (y⁻¹ ^ (j * n)) y⁻¹ n

@[simp] theorem length_inversePowers (n j : ℕ) (y : F) : (inversePowers n j y).length = n := by
  simp [inversePowers]

omit [Field F] in
theorem fits_iff {share : ProofShare F} {gens : Generators P} {n j : ℕ} :
    share.fits gens n j = true ↔
      share.l.length = n ∧ share.r.length = n ∧ n ≤ gens.capacity ∧ j < gens.parties := by
  simp [fits, and_assoc]

variable [AddCommGroup P] [Module F P]

/-- What is left of the equation of a share's vectors. -/
def vectorDefect (share : ProofShare F) (gens : Generators P) (key : CommitmentKey P) (n j : ℕ)
    (bits : BitCommitment P) (ch : BitChallenge F) (x : F) : P :=
  bits.A + x • bits.S - share.eBlinding • key.blinding
    - ch.z • (gens.rowD .G n j).sum + dot (offsets n j ch) (gens.rowD .H n j)
    - dot share.l (gens.rowD .G n j) - dot₃ share.r (inversePowers n j ch.y) (gens.rowD .H n j)

/-- What is left of the equation of a share's inner product. -/
def valueDefect (share : ProofShare F) (key : CommitmentKey P) (n j : ℕ) (bits : BitCommitment P)
    (ch : BitChallenge F) (polys : PolyCommitment P) (x : F) : P :=
  ch.z ^ (2 + j) • bits.V + delta n j ch • key.value + x • polys.T₁ + x ^ 2 • polys.T₂
    - share.tx • key.value - share.txBlinding • key.blinding

/-- Whether a share agrees with what the party at position `j` sent before. -/
structure Agrees (share : ProofShare F) (gens : Generators P) (key : CommitmentKey P) (n j : ℕ)
    (bits : BitCommitment P) (ch : BitChallenge F) (polys : PolyCommitment P) (x : F) : Prop where
  length_l : share.l.length = n
  length_r : share.r.length = n
  tx_eq : share.tx = innerProduct share.l share.r
  vector : share.vectorDefect gens key n j bits ch x = 0
  value : share.valueDefect key n j bits ch polys x = 0

end ProofShare

/-! ### Honest parties -/

namespace Party
variable {F P : Type} [Field F]

namespace Committed
variable (party : Committed F)

theorem length_left (hL : party.bitBlindings.sL.length = party.n) (ch : BitChallenge F) :
    (party.left ch).c₀.length = party.n ∧ (party.left ch).c₁.length = party.n := by
  simp [left, hL]

theorem length_right (hR : party.bitBlindings.sR.length = party.n) (ch : BitChallenge F) :
    (party.right ch).c₀.length = party.n ∧ (party.right ch).c₁.length = party.n := by
  simp [right, hR]

/-- The constant coefficient of an honest inner product: the value with its factor, and what the
challenges fix.  The products of the bits and their complements fall away. -/
theorem innerProduct_constant (h : party.value.toNat < 2 ^ party.n) (ch : BitChallenge F) :
    ((party.left ch).innerProduct (party.right ch)).c₀ =
      ch.z ^ (2 + party.position) * (party.value.toNat : F)
        + ProofShare.delta party.n party.position ch := by
  have hl : (party.left ch).c₀.length = party.n := by simp [left]
  have hr : (party.right ch).c₀.length = party.n := by simp [right]
  have hterm : ∀ i : Fin party.n, (party.left ch).c₀[i] * (party.right ch).c₀[i] =
      ch.z ^ (2 + party.position) * (2 ^ (i : ℕ) * ((party.value.toNat.testBit i).toNat : F))
        + (ch.z - ch.z * ch.z) * ch.y ^ (i : ℕ) * ch.y ^ (party.position * party.n)
        - ch.z * (ch.z * ch.z) * 2 ^ (i : ℕ) * ch.z ^ party.position := by
    intro i
    have hbit := bit_mul_bit_sub_one (F := F) (party.value.toNat.testBit i)
    simp only [left, right, Fin.getElem_fin, List.getElem_map, List.getElem_zipWith,
      getElem_valueBits, getElem_powersFrom, getElem_powers, pow_eq, Nat.cast_ofNat]
    linear_combination ch.y ^ (party.position * party.n) * ch.y ^ (i : ℕ) * hbit
  simp only [LinearVector.innerProduct]
  rw [innerProduct_eq_sum hl hr, Finset.sum_congr rfl fun i _ => hterm i, Finset.sum_sub_distrib,
    Finset.sum_add_distrib, ← Finset.mul_sum, sum_bits h]
  simp only [ProofShare.delta, powerSum_eq, pow_eq, ← Finset.sum_mul, ← Finset.mul_sum,
    Nat.cast_ofNat, Fin.sum_univ_eq_sum_range fun i => ch.y ^ i,
    Fin.sum_univ_eq_sum_range fun i => (2 : F) ^ i]
  ring

variable [AddCommGroup P] [Module F P]

theorem left_points (hL : party.bitBlindings.sL.length = party.n) (ch : BitChallenge F) (x : F)
    {G : List P} (hG : G.length = party.n) :
    dot (valueBits party.value party.n : List F) G + x • dot party.bitBlindings.sL G - ch.z • G.sum
      = dot ((party.left ch).eval x) G := by
  have hl : ((party.left ch).eval x).length = party.n := by
    simp [LinearVector.eval, party.length_left hL ch]
  have hbits : (valueBits party.value party.n : List F).length = party.n := length_valueBits _ _
  have hz : (List.replicate G.length ch.z).length = party.n := by simp [hG]
  rw [← dot_replicate, dot_eq_sum hbits hG, dot_eq_sum hL hG, dot_eq_sum hz hG, dot_eq_sum hl hG,
    Finset.smul_sum, ← Finset.sum_add_distrib, ← Finset.sum_sub_distrib]
  refine Finset.sum_congr rfl fun i _ => ?_
  simp only [left, LinearVector.eval, Fin.getElem_fin, List.getElem_zipWith, List.getElem_map,
    List.getElem_replicate]
  module

/-- The points of an honest right vector, with its powers of `y` taken off, are those of its
commitments and of the offsets. -/
theorem right_points (hR : party.bitBlindings.sR.length = party.n) {ch : BitChallenge F}
    (hy : ch.y ≠ 0) (x : F) {H : List P} (hH : H.length = party.n) :
    dot ((valueBits party.value party.n : List F).map (· - 1)) H + x • dot party.bitBlindings.sR H
        + dot (ProofShare.offsets party.n party.position ch) H
      = dot₃ ((party.right ch).eval x) (ProofShare.inversePowers party.n party.position ch.y) H := by
  have hr : ((party.right ch).eval x).length = party.n := by
    simp [LinearVector.eval, party.length_right hR ch]
  have hbits : ((valueBits party.value party.n : List F).map (· - 1)).length = party.n := by simp
  rw [dot_eq_sum hbits hH, dot_eq_sum hR hH, dot_eq_sum (ProofShare.length_offsets _ _ _) hH,
    dot₃_eq_sum hr (ProofShare.length_inversePowers _ _ _) hH, Finset.smul_sum, ← Finset.sum_add_distrib,
    ← Finset.sum_add_distrib]
  refine Finset.sum_congr rfl fun i _ => ?_
  have hcancel : ch.y ^ (party.position * party.n) * ch.y ^ (i : ℕ) *
      (ch.y⁻¹ ^ (party.position * party.n) * ch.y⁻¹ ^ (i : ℕ)) = 1 := by
    rw [← pow_add, ← pow_add, ← mul_pow, mul_inv_cancel₀ hy, one_pow]
  simp only [right, LinearVector.eval, ProofShare.inversePowers, ProofShare.offsets,
    Fin.getElem_fin, List.getElem_zipWith, List.getElem_map, List.getElem_ofFn, getElem_powersFrom,
    getElem_powers, getElem_valueBits, pow_eq, Nat.cast_ofNat]
  match_scalars
  linear_combination (-((party.value.toNat.testBit i).toNat : F) + 1 - ch.z
    - party.bitBlindings.sR[(i : ℕ)] * x) * hcancel

end Committed

theorem create_eq_ok_iff [MultiScalar F P] {gens : Generators P} {key : CommitmentKey P}
    {value : UInt64} {blinding : F} {n : ℕ} {party : Party F P} :
    create gens key value blinding n = .ok party ↔
      (n = 8 ∨ n = 16 ∨ n = 32 ∨ n = 64) ∧ n ≤ gens.capacity ∧ value.toNat < 2 ^ n ∧
        ⟨value, blinding, n, key.commit (value.toNat : F) blinding⟩ = party := by
  rw [create, unless_throw_eq_ok, if_throw_eq_ok, if_throw_eq_ok, pure_eq_ok]
  simp only [Bool.or_eq_true, beq_iff_eq, or_assoc, Nat.not_lt, Nat.not_le, Nat.one_shiftLeft]

omit [Field F] in
theorem checkPosition_eq_ok_iff {gens : Generators P} {j : ℕ} :
    checkPosition gens j = .ok () ↔ j < gens.parties := by
  unfold checkPosition
  split
  · next h => exact iff_of_false nofun (not_lt.mpr h)
  · next h => exact iff_of_true rfl (not_le.mp h)

variable [AddCommGroup P] [Module F P] [MultiScalar F P] [LawfulMultiScalar F P]

theorem combine_rows {n : ℕ} {ss ts : List F} {G H : List P} (hs : ss.length = n)
    (ht : ts.length = n) (hG : G.length = n) (hH : H.length = n) (a : F) (B : P) :
    combine ([a] ++ ss ++ ts) ([B] ++ G ++ H) = a • B + dot ss G + dot ts H :=
  (((SumsTo.single a B).append (.of_length (hs.trans hG.symm))).append
    (.of_length (ht.trans hH.symm))).combine_eq

theorem Answering.share_eq_ok_iff [BEq F] [LawfulBEq F] {party : Answering F} {x : F}
    {share : ProofShare F} :
    party.share x = .ok share ↔ x ≠ 0 ∧
      { tx := party.t.eval x
        txBlinding := (⟨party.offset * party.blinding, party.polyBlindings.t₁,
          party.polyBlindings.t₂⟩ : Quadratic F).eval x
        eBlinding := party.bitBlindings.a + party.bitBlindings.s * x
        l := party.l.eval x
        r := party.r.eval x } = share := by
  rw [Answering.share]
  by_cases hx : x = 0 <;> simp [hx]

section Honest
variable {gens : Generators P} {key : CommitmentKey P} {party : Party F P} {j : ℕ}
variable {bitBlindings : BitBlindings F} {polyBlindings : PolyBlindings F} {ch : BitChallenge F} {x : F}

theorem commitBits_message (hcap : party.n ≤ gens.capacity) (hj : j < gens.parties)
    (hL : bitBlindings.sL.length = party.n) (hR : bitBlindings.sR.length = party.n) :
    (party.commitBits gens key j bitBlindings).2 =
      { V := party.V
        A := bitBlindings.a • key.blinding
          + dot (valueBits party.value party.n : List F) (gens.rowD .G party.n j)
          + dot ((valueBits party.value party.n : List F).map (· - 1)) (gens.rowD .H party.n j)
        S := bitBlindings.s • key.blinding + dot bitBlindings.sL (gens.rowD .G party.n j)
          + dot bitBlindings.sR (gens.rowD .H party.n j) } := by
  have hG := Generators.length_rowD hcap hj .G
  have hH := Generators.length_rowD hcap hj .H
  exact congrArg₂ (BitCommitment.mk party.V) (combine_rows (by simp) (by simp) hG hH _ _)
    (combine_rows hL hR hG hH _ _)

variable [BEq F] [LawfulBEq F] {share : ProofShare F}

theorem vectorDefect_share (hcap : party.n ≤ gens.capacity) (hj : j < gens.parties)
    (hL : bitBlindings.sL.length = party.n) (hR : bitBlindings.sR.length = party.n) (hy : ch.y ≠ 0)
    (hshare : (((party.commitBits gens key j bitBlindings).1.commitPolys key ch
      polyBlindings).1).share x = .ok share) :
    share.vectorDefect gens key party.n j (party.commitBits gens key j bitBlindings).2 ch x = 0 := by
  obtain ⟨-, rfl⟩ := Answering.share_eq_ok_iff.mp hshare
  have hG := Generators.length_rowD hcap hj .G
  have hH := Generators.length_rowD hcap hj .H
  -- the state of the party after its first message
  let committed : Committed F := ⟨party.value, party.blinding, party.n, j, bitBlindings⟩
  have hleft := committed.left_points hL ch x hG
  have hright := committed.right_points hR hy x hH
  rw [commitBits_message hcap hj hL hR]
  change _ + x • _ - (bitBlindings.a + bitBlindings.s * x) • key.blinding - _ + _
    - dot ((committed.left ch).eval x) _ - dot₃ ((committed.right ch).eval x) _ _ = 0
  rw [← hleft, ← hright]
  module

theorem valueDefect_share (hV : party.V = key.commit (party.value.toNat : F) party.blinding)
    (hvalue : party.value.toNat < 2 ^ party.n)
    (hshare : (((party.commitBits gens key j bitBlindings).1.commitPolys key ch
      polyBlindings).1).share x = .ok share) :
    share.valueDefect key party.n j (party.commitBits gens key j bitBlindings).2 ch
      ((party.commitBits gens key j bitBlindings).1.commitPolys key ch polyBlindings).2 x = 0 := by
  obtain ⟨-, rfl⟩ := Answering.share_eq_ok_iff.mp hshare
  let committed : Committed F := ⟨party.value, party.blinding, party.n, j, bitBlindings⟩
  have hconstant := committed.innerProduct_constant hvalue ch
  generalize ht : (committed.left ch).innerProduct (committed.right ch) = t at hconstant
  change ch.z ^ (2 + j) • party.V + _
    + x • key.commit ((committed.left ch).innerProduct (committed.right ch)).c₁ polyBlindings.t₁
    + x ^ 2 • key.commit ((committed.left ch).innerProduct (committed.right ch)).c₂ polyBlindings.t₂
    - ((committed.left ch).innerProduct (committed.right ch)).eval x • key.value
    - (ch.z * ch.z * pow ch.z j * party.blinding + x * (polyBlindings.t₁ + x * polyBlindings.t₂))
      • key.blinding = 0
  rw [ht, hV, key.commit_eq, key.commit_eq, key.commit_eq, Quadratic.eval, hconstant, pow_eq]
  module

omit [AddCommGroup P] [Module F P] [LawfulMultiScalar F P] in
theorem length_share (hL : bitBlindings.sL.length = party.n) (hR : bitBlindings.sR.length = party.n)
    (hshare : (((party.commitBits gens key j bitBlindings).1.commitPolys key ch
      polyBlindings).1).share x = .ok share) :
    share.l.length = party.n ∧ share.r.length = party.n := by
  obtain ⟨-, rfl⟩ := Answering.share_eq_ok_iff.mp hshare
  let committed : Committed F := ⟨party.value, party.blinding, party.n, j, bitBlindings⟩
  have hl := committed.length_left hL ch
  have hr := committed.length_right hR ch
  constructor
  · change ((committed.left ch).eval x).length = _
    simp [LinearVector.eval, hl.1, hl.2, committed]
  · change ((committed.right ch).eval x).length = _
    simp [LinearVector.eval, hr.1, hr.2, committed]

/-- **Honest shares.**  The share of a party that follows the protocol agrees with its commitments. -/
theorem share_agrees {value : UInt64} {blinding : F} {n : ℕ}
    (hparty : create gens key value blinding n = .ok party) (hj : j < gens.parties)
    (hL : bitBlindings.sL.length = n) (hR : bitBlindings.sR.length = n) (hy : ch.y ≠ 0)
    (hshare : (((party.commitBits gens key j bitBlindings).1.commitPolys key ch
      polyBlindings).1).share x = .ok share) :
    share.Agrees gens key n j (party.commitBits gens key j bitBlindings).2 ch
      ((party.commitBits gens key j bitBlindings).1.commitPolys key ch polyBlindings).2 x := by
  obtain ⟨-, hcap, hvalue, rfl⟩ := create_eq_ok_iff.mp hparty
  have hvector := vectorDefect_share hcap hj hL hR hy hshare
  have hdefect := valueDefect_share rfl hvalue hshare
  obtain ⟨hlength_l, hlength_r⟩ := length_share hL hR hshare
  obtain ⟨-, rfl⟩ := Answering.share_eq_ok_iff.mp hshare
  let committed : Committed F := ⟨value, blinding, n, j, bitBlindings⟩
  have hl := committed.length_left hL ch
  have hr := committed.length_right hR ch
  exact ⟨hlength_l, hlength_r, LinearVector.eval_innerProduct hl.1 hl.2 hr.1 hr.2 x, hvector, hdefect⟩

end Honest

end Party
end ConfidentialTx
