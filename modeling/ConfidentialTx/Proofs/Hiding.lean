import ConfidentialTx.Proofs.Honesty

/-! # What the messages of a party hide

The messages of a party say nothing about its value.  Whatever the challenges are, as long as `x` is not
zero, the same messages are those of any other value, with blinding factors that the party was as likely
to draw.

The other factors are found from the messages.  The vectors at `x` fix the two blinding vectors, and the
commitments fix the rest: over a blinding point that generates the group, every difference of points is a
multiple of that point.

* `BitBlindings.reopen`, `PolyBlindings.reopen`: the factors that open a commitment to something else.
* `Party.commitBits_reopen`, `Party.Committed.Reopens.answers`: with these factors the messages stay.
* `Party.messages_hide_value`: the messages of one value are messages of every other one. -/

namespace ConfidentialTx

theorem exists_smul_eq {F P : Type} [Field F] [AddCommGroup P] [Module F P]
    (hprime : (Nat.card P).Prime) {B : P} (hB : B ≠ 0) (p : P) : ∃ s : F, s • B = p := by
  have : Fact (Nat.card P).Prime := ⟨hprime⟩
  have hmem : p ∈ AddSubgroup.zmultiples B := mem_zmultiples_of_prime_card rfl hB
  obtain ⟨k, hk⟩ := AddSubgroup.mem_zmultiples_iff.mp hmem
  exact ⟨(k : F), by rw [Int.cast_smul_eq_zsmul, hk]⟩

/-! ### Opening a commitment to something else -/

section Reopen
variable {F : Type} [Field F]

/-- Adds a multiple of a difference of two vectors. -/
def shift (c : F) (ds ds' ss : List F) : List F :=
  List.zipWith (fun s d => s + c * d) ss (List.zipWith (· - ·) ds ds')

/-- The blinding factors for the bits `bits'` in place of `bits`, where `d` is the discrete logarithm of
the difference of their points. -/
def BitBlindings.reopen (drawn : BitBlindings F) (x d : F) (bits bits' : List F) : BitBlindings F :=
  ⟨drawn.a + d, drawn.s - x⁻¹ * d, shift x⁻¹ bits bits' drawn.sL,
    shift x⁻¹ (bits.map (· - 1)) (bits'.map (· - 1)) drawn.sR⟩

/-- The blinding factors for the inner product `t'` in place of `t`, where `b` is the discrete logarithm
of the point of a value. -/
def PolyBlindings.reopen (drawn : PolyBlindings F) (b : F) (t t' : Quadratic F) : PolyBlindings F :=
  ⟨drawn.t₁ + b * (t.c₁ - t'.c₁), drawn.t₂ + b * (t.c₂ - t'.c₂)⟩

variable {n : ℕ} {ds ds' ss : List F}

theorem BitBlindings.length_reopen {drawn : BitBlindings F} (hL : drawn.sL.length = n)
    (hR : drawn.sR.length = n) (x d : F) (value value' : UInt64) :
    (drawn.reopen x d (valueBits value n) (valueBits value' n)).sL.length = n ∧
      (drawn.reopen x d (valueBits value n) (valueBits value' n)).sR.length = n := by
  simp [reopen, shift, hL, hR]

variable {P : Type} [AddCommGroup P] [Module F P]

theorem dot_shift (hds : ds.length = n) (hds' : ds'.length = n) (hss : ss.length = n) {ps : List P}
    (hps : ps.length = n) (c : F) :
    dot (shift c ds ds' ss) ps = dot ss ps + c • (dot ds ps - dot ds' ps) := by
  have hlen : (shift c ds ds' ss).length = n := by simp [shift, hds, hds', hss]
  rw [dot_eq_sum hlen hps, dot_eq_sum hss hps, dot_eq_sum hds hps,
    dot_eq_sum hds' hps, ← Finset.sum_sub_distrib, Finset.smul_sum, ← Finset.sum_add_distrib]
  refine Finset.sum_congr rfl fun i _ => ?_
  simp only [shift, Fin.getElem_fin, List.getElem_zipWith]
  module

theorem CommitmentKey.commit_reopen [MultiScalar F P] [LawfulMultiScalar F P] {key : CommitmentKey P}
    {b : F} (hb : b • key.blinding = key.value) (v v' r : F) :
    key.commit v' (r + b * (v - v')) = key.commit v r := by
  rw [key.commit_eq, key.commit_eq, ← hb]
  module

end Reopen

namespace Party
variable {F P : Type} [Field F]

/-! ### The vectors of a share -/

namespace Committed

/-- Whether a party at the same position made up for its other bits at `x` by its blinding factors. -/
structure Reopens (party party' : Committed F) (x : F) : Prop where
  ne_zero : x ≠ 0
  n_eq : party'.n = party.n
  position_eq : party'.position = party.position
  length_sL : party.bitBlindings.sL.length = party.n
  length_sR : party.bitBlindings.sR.length = party.n
  bitBlindings_eq : ∃ d, party'.bitBlindings = party.bitBlindings.reopen x d
    (valueBits party.value party.n) (valueBits party'.value party.n)

namespace Reopens
variable {party party' : Committed F} {x : F} (h : party.Reopens party' x)
include h

theorem eval_vectors (ch : BitChallenge F) : (party'.left ch).eval x = (party.left ch).eval x ∧
    (party'.right ch).eval x = (party.right ch).eval x := by
  obtain ⟨hx, hn, hposition, hL, hR, d, hreopen⟩ := h
  constructor
  · apply List.ext_getElem
    · simp [LinearVector.eval, left, hreopen, BitBlindings.reopen, hn, hL, shift]
    · intro i hi hi'
      simp only [LinearVector.eval, left, hreopen, BitBlindings.reopen, hn, shift,
        List.getElem_zipWith, List.getElem_map, getElem_valueBits]
      field_simp
      ring
  · apply List.ext_getElem
    · simp [LinearVector.eval, right, hreopen, BitBlindings.reopen, hn, hR, shift]
    · intro i hi hi'
      simp only [LinearVector.eval, right, hreopen, BitBlindings.reopen, hn, hposition, shift,
        List.getElem_zipWith, List.getElem_map, getElem_valueBits]
      field_simp
      ring

theorem eval_innerProduct (ch : BitChallenge F) :
    ((party'.left ch).innerProduct (party'.right ch)).eval x =
      ((party.left ch).innerProduct (party.right ch)).eval x := by
  obtain ⟨hl, hr⟩ := h.eval_vectors ch
  obtain ⟨d, hreopen⟩ := h.bitBlindings_eq
  obtain ⟨hL', hR'⟩ := BitBlindings.length_reopen h.length_sL h.length_sR x d party.value party'.value
  rw [← hreopen, ← h.n_eq] at hL' hR'
  have hleft := party.length_left h.length_sL ch
  have hright := party.length_right h.length_sR ch
  have hleft' := party'.length_left hL' ch
  have hright' := party'.length_right hR' ch
  rw [LinearVector.eval_innerProduct hleft'.1 hleft'.2 hright'.1 hright'.2,
    LinearVector.eval_innerProduct hleft.1 hleft.2 hright.1 hright.2, hl, hr]

end Reopens
end Committed

/-- The blinding factors of the polynomials make up for the value at `x` where the constant coefficients
of the inner products differ as the values do. -/
theorem eval_blindings_reopen {t t' : Quadratic F} {w v v' c x : F} (h : t.c₀ = w * v + c)
    (h' : t'.c₀ = w * v' + c) (heval : t'.eval x = t.eval x) (b r : F) (drawn : PolyBlindings F) :
    (⟨w * (r + b * (v - v')), (drawn.reopen b t t').t₁, (drawn.reopen b t t').t₂⟩ : Quadratic F).eval x =
      (⟨w * r, drawn.t₁, drawn.t₂⟩ : Quadratic F).eval x := by
  simp only [Quadratic.eval, PolyBlindings.reopen] at heval ⊢
  linear_combination b * h' - b * h - b * heval

/-! ### The messages -/

section Messages
variable [AddCommGroup P] [Module F P] [MultiScalar F P] [LawfulMultiScalar F P]
variable {gens : Generators P} {key : CommitmentKey P} {n j : ℕ} {x : F}

theorem commitBits_reopen (party party' : Party F P) (hn : party'.n = party.n) (hV : party'.V = party.V)
    (hcap : party.n ≤ gens.capacity) (hj : j < gens.parties) {drawn : BitBlindings F}
    (hL : drawn.sL.length = party.n) (hR : drawn.sR.length = party.n) {bits bits' : List F}
    (hbits : valueBits party.value party.n = bits) (hbits' : valueBits party'.value party.n = bits')
    {d : F} (hd : d • key.blinding = dot bits (gens.rowD .G party.n j)
      - dot bits' (gens.rowD .G party.n j) + (dot (bits.map (· - 1)) (gens.rowD .H party.n j)
        - dot (bits'.map (· - 1)) (gens.rowD .H party.n j))) :
    (party'.commitBits gens key j (drawn.reopen x d bits bits')).2 =
      (party.commitBits gens key j drawn).2 := by
  have hG := Generators.length_rowD hcap hj .G
  have hH := Generators.length_rowD hcap hj .H
  obtain ⟨hL', hR'⟩ := BitBlindings.length_reopen hL hR x d party.value party'.value
  have hlen : bits.length = party.n := by rw [← hbits, length_valueBits]
  have hlen' : bits'.length = party.n := by rw [← hbits', length_valueBits]
  rw [hbits, hbits'] at hL' hR'
  rw [← hn] at hL' hR' hcap
  rw [commitBits_message hcap hj hL' hR', commitBits_message (hn ▸ hcap) hj hL hR, hn, hV, hbits, hbits',
    BitCommitment.mk.injEq]
  refine ⟨rfl, ?_, ?_⟩
  · simp only [BitBlindings.reopen]
    rw [add_smul, hd]
    abel
  · simp only [BitBlindings.reopen]
    rw [dot_shift hlen hlen' hL hG, dot_shift (by simpa using hlen) (by simpa using hlen') hR hH,
      sub_smul, mul_smul, hd]
    module

variable [BEq F] [LawfulBEq F]

/-- The second message and the share of a party are those of a party that made up for its other bits, if
its other blinding factors make up for the rest. -/
theorem Committed.Reopens.answers {party party' : Committed F} (h : party.Reopens party' x)
    (hvalue : party.value.toNat < 2 ^ party.n) (hvalue' : party'.value.toNat < 2 ^ party.n) {b : F}
    (hb : b • key.blinding = key.value) (hblinding : party'.blinding =
      party.blinding + b * ((party.value.toNat : F) - (party'.value.toNat : F)))
    (ch : BitChallenge F) (polys : PolyBlindings F) :
    ∃ polys', (party'.commitPolys key ch polys').2 = (party.commitPolys key ch polys).2 ∧
      (party'.commitPolys key ch polys').1.share x = (party.commitPolys key ch polys).1.share x := by
  obtain ⟨hl, hr⟩ := h.eval_vectors ch
  have heval := h.eval_innerProduct ch
  have hconstant := party.innerProduct_constant hvalue ch
  have hconstant' := party'.innerProduct_constant (h.n_eq.symm ▸ hvalue') ch
  rw [h.n_eq, h.position_eq] at hconstant'
  let t := (party.left ch).innerProduct (party.right ch)
  let t' := (party'.left ch).innerProduct (party'.right ch)
  refine ⟨polys.reopen b t t', ?_, ?_⟩
  · exact congrArg₂ PolyCommitment.mk (key.commit_reopen hb _ _ _) (key.commit_reopen hb _ _ _)
  · have htx := eval_blindings_reopen hconstant hconstant' heval b party.blinding polys
    have hoffset : ch.z * ch.z * pow ch.z party.position = ch.z ^ (2 + party.position) := by
      rw [pow_eq]
      ring
    rw [← hblinding, ← hoffset] at htx
    have hx := h.ne_zero
    have he : party'.bitBlindings.a + party'.bitBlindings.s * x =
        party.bitBlindings.a + party.bitBlindings.s * x := by
      obtain ⟨d, hreopen⟩ := h.bitBlindings_eq
      simp only [hreopen, BitBlindings.reopen]
      field_simp
      ring
    rw [Answering.share_eq_ok_iff.mpr ⟨hx, rfl⟩, Answering.share_eq_ok_iff.mpr ⟨hx, rfl⟩]
    refine congrArg Except.ok ((ProofShare.mk.injEq ..).mpr ⟨heval, ?_, he, hl, hr⟩)
    simp only [Committed.commitPolys, h.position_eq]
    exact htx

variable [ScalarEncoding F] [LawfulScalarEncoding F]
variable {value value' : UInt64} {drawn : PartyBlindings F}

/-- **Hiding.**  Over a blinding point other than zero of a group of prime order, and under every `x`
other than zero, whatever `y` and `z` are: the messages of a party at a position of the table are also
those of a party with any other value of the same size, with another blinding factor of the value and
other blinding factors that it can draw. -/
theorem messages_hide_value (hprime : (Nat.card P).Prime) (hB : key.blinding ≠ 0)
    (hn : n = 8 ∨ n = 16 ∨ n = 32 ∨ n = 64) (hcap : n ≤ gens.capacity) (hj : j < gens.parties)
    (hvalue : value.toNat < 2 ^ n) (hvalue' : value'.toNat < 2 ^ n) (ch : BitChallenge F) (hx : x ≠ 0)
    (blinding : F) (hdrawn : drawn.IsDrawn n) :
    ∃ (blinding' : F) (drawn' : PartyBlindings F) (messages : PartyMessages F P),
      drawn'.IsDrawn n ∧
      play gens key value blinding n j drawn ch x = .ok messages ∧
      play gens key value' blinding' n j drawn' ch x = .ok messages := by
  obtain ⟨hL, hR⟩ := hdrawn.lengths
  let bits : List F := valueBits value n
  let bits' : List F := valueBits value' n
  -- the discrete logarithms of the point of a value and of the difference of the bits
  obtain ⟨b, hb⟩ := exists_smul_eq (F := F) hprime hB key.value
  obtain ⟨d, hd⟩ := exists_smul_eq (F := F) hprime hB (dot bits (gens.rowD .G n j)
    - dot bits' (gens.rowD .G n j) + (dot (bits.map (· - 1)) (gens.rowD .H n j)
      - dot (bits'.map (· - 1)) (gens.rowD .H n j)))
  let blinding' := blinding + b * ((value.toNat : F) - (value'.toNat : F))
  let party : Party F P := ⟨value, blinding, n, key.commit (value.toNat : F) blinding⟩
  let party' : Party F P := ⟨value', blinding', n, key.commit (value'.toNat : F) blinding'⟩
  have hV : party'.V = party.V := key.commit_reopen hb _ _ _
  have hbits' := commitBits_reopen (x := x) party party' rfl hV hcap hj hL hR rfl rfl hd
  let committed := (party.commitBits gens key j drawn.bits).1
  let committed' := (party'.commitBits gens key j (drawn.bits.reopen x d bits bits')).1
  have hreopens : committed.Reopens committed' x := ⟨hx, rfl, rfl, hL, hR, d, rfl⟩
  obtain ⟨polys', hpolys', hshare'⟩ := hreopens.answers hvalue hvalue' hb rfl ch drawn.polys
  obtain ⟨messages, hplay⟩ := exists_play hn hcap hj hvalue key blinding drawn ch hx
  obtain ⟨party₀, hcreate, -, hbits, hpolys, hshare⟩ := play_eq_ok_iff.mp hplay
  obtain rfl : party = party₀ := (create_eq_ok_iff.mp hcreate).2.2.2
  refine ⟨blinding', ⟨drawn.bits.reopen x d bits bits', polys'⟩, messages, ?_, hplay, ?_⟩
  · obtain ⟨hL', hR'⟩ := BitBlindings.length_reopen hL hR x d value value'
    exact .of_lengths hL' hR'
  · exact play_eq_ok_iff.mpr ⟨party', create_eq_ok_iff.mpr ⟨hn, hcap, hvalue', rfl⟩, hj,
      hbits'.trans hbits, hpolys'.trans hpolys, hshare'.trans hshare⟩

end Messages

/-- The messages of a party at position 1 for the value 200 are also messages for the value 13, although
`y` is zero. -/
theorem messages_hide_two_hundred :
    (Nat.card Residue).Prime ∧ Residue.key.blinding ≠ 0 ∧ Dealer.WithPolys.honestDraws.IsDrawn 8 ∧
      ∃ (blinding' : Residue) (drawn' : PartyBlindings Residue) (messages : PartyMessages Residue Residue),
        drawn'.IsDrawn 8 ∧
        play (Residue.table 8 2) Residue.key 200 7 8 1 Dealer.WithPolys.honestDraws ⟨0, 9⟩ 4 =
          .ok messages ∧
        play (Residue.table 8 2) Residue.key 13 blinding' 8 1 drawn' ⟨0, 9⟩ 4 = .ok messages := by
  have hprime : (Nat.card Residue).Prime := by
    rw [Nat.card_zmod]
    exact Fact.out
  have hdrawn : Dealer.WithPolys.honestDraws.IsDrawn 8 := ⟨_, _, rfl⟩
  exact ⟨hprime, by decide, hdrawn, messages_hide_value hprime (by decide) (by decide) (by decide)
    (by decide) (by decide) (by decide) ⟨0, 9⟩ (by decide) 7 hdrawn⟩

end Party
end ConfidentialTx
