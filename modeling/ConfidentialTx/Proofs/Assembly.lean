import ConfidentialTx.Proofs.Shares
import ConfidentialTx.Range.Dealer

/-! # Assembled proofs

The proof that a dealer assembles, for whatever messages it has taken in.

* `Dealer.WithPolys.IsReached`: the states of a dealer that waits for shares.
* `Dealer.WithPolys.exists_assemble_eq`: shares of the right lengths are assembled; the verifier draws the
  dealer's challenges on the proof, from the dealer's first transcript to its last.
* `Dealer.WithPolys.exists_assembled`: so the verifier compares the point of the dealer's vectors.
* `Dealer.WithPolys.vectorPoint_sub_point`, `Dealer.WithPolys.valueDefect_eq_sum`: the two points of the
  verifier's equation are the sums of what is left of the equations of the shares. -/

namespace ConfidentialTx

open Transcript

/-! ### Lists with one entry a party -/

section Entries
variable {α M : Type} {l : List α} {m : ℕ}

theorem sum_map_eq_sum [AddCommMonoid M] (h : l.length = m) (f : α → M) :
    (l.map f).sum = ∑ j : Fin m, f l[j] := by
  subst h
  exact (Fin.sum_univ_fun_getElem l f).symm

theorem flatMap_eq_flatten_ofFn {β : Type} (h : l.length = m) (f : α → List β) :
    l.flatMap f = (List.ofFn fun j : Fin m => f l[j]).flatten := by
  subst h
  rw [List.flatMap_def]
  congr 1
  apply List.ext_getElem <;> simp

end Entries

theorem ParametersFit.exists_eq_two_pow {P : Type} {gens : Generators P} {n m : ℕ}
    (h : ParametersFit gens n m) : ∃ k, n * m = 2 ^ k := by
  have hm := isPowerOfTwo_iff.mp h.parties_pow
  have hn : ∃ i, n = 2 ^ i := by
    rcases h.bits with rfl | rfl | rfl | rfl
    exacts [⟨3, rfl⟩, ⟨4, rfl⟩, ⟨5, rfl⟩, ⟨6, rfl⟩]
  obtain ⟨i, hi⟩ := hn
  exact ⟨i + m.log2, by rw [pow_add, ← hm, ← hi]⟩

namespace Dealer
variable {F P T : Type} [Transcript T]

/-! ### The states of a dealer -/

theorem create_eq_ok_iff {gens : Generators P} {t : T} {n m : ℕ} {dealer : Dealer T} :
    create gens t n m = .ok dealer ↔
      ParametersFit gens n m ∧ ⟨t, ((absorbRange n m).run t).2, n, m⟩ = dealer := by
  rw [create, bind_eq_ok, ← checkParameters_eq_ok_iff]
  constructor
  · rintro ⟨⟨⟩, hparams, h⟩
    exact ⟨hparams, pure_eq_ok.mp h⟩
  · rintro ⟨hparams, h⟩
    exact ⟨(), hparams, pure_eq_ok.mpr h⟩

variable [ScalarEncoding F] [PointEncoding P] [AddCommGroup P]

/-- The transcript of the first two rounds, with their challenges. -/
def opening (n m : ℕ) (bits : List (BitCommitment P)) (polys : List (PolyCommitment P)) :
    StateM T (BitChallenge F × F) := do
  absorbRange n m
  let ch ← bitRound bits
  let x ← polyRound polys
  pure (ch, x)

/-- Whether a dealer took in one message of every party in each of the first two rounds. -/
structure WithPolys.IsReached (dealer : WithPolys F P T) (gens : Generators P) : Prop where
  fit : ParametersFit gens dealer.n dealer.m
  length_bits : dealer.bits.length = dealer.m
  length_polys : dealer.polys.length = dealer.m
  run_opening : (opening dealer.n dealer.m dealer.bits dealer.polys).run dealer.initial =
    ((dealer.bitChallenge, dealer.polyChallenge), dealer.transcript)

theorem receiveBits_eq_ok_iff {dealer : Dealer T} {bits : List (BitCommitment P)}
    {next : WithBits F P T} :
    dealer.receiveBits bits = .ok next ↔ dealer.m = bits.length ∧
      { dealer with
        transcript := ((bitRound (F := F) bits).run dealer.transcript).2
        bits := bits
        bitChallenge := ((bitRound bits).run dealer.transcript).1 } = next := by
  rw [receiveBits, if_throw_eq_ok, not_not]
  exact and_congr_right fun _ => pure_eq_ok

theorem WithBits.receivePolys_eq_ok_iff {dealer : WithBits F P T} {polys : List (PolyCommitment P)}
    {next : WithPolys F P T} :
    dealer.receivePolys polys = .ok next ↔ dealer.m = polys.length ∧
      { dealer with
        transcript := ((polyRound (F := F) polys).run dealer.transcript).2
        polys := polys
        polyChallenge := ((polyRound polys).run dealer.transcript).1 } = next := by
  rw [receivePolys, if_throw_eq_ok, not_not]
  exact and_congr_right fun _ => pure_eq_ok

theorem isReached {gens : Generators P} {t : T} {n m : ℕ} {bits : List (BitCommitment P)}
    {polys : List (PolyCommitment P)} {created : Dealer T} {withBits : WithBits F P T}
    {dealer : WithPolys F P T} (hcreate : create gens t n m = .ok created)
    (hbits : created.receiveBits bits = .ok withBits)
    (hpolys : withBits.receivePolys polys = .ok dealer) :
    dealer.IsReached gens ∧ dealer.initial = t ∧ dealer.n = n ∧ dealer.m = m ∧ dealer.bits = bits ∧
      dealer.polys = polys ∧ dealer.bitChallenge = withBits.bitChallenge := by
  obtain ⟨hfit, rfl⟩ := create_eq_ok_iff.mp hcreate
  obtain ⟨hlen, rfl⟩ := receiveBits_eq_ok_iff.mp hbits
  obtain ⟨hlen', rfl⟩ := WithBits.receivePolys_eq_ok_iff.mp hpolys
  exact ⟨⟨hfit, hlen.symm, hlen'.symm, rfl⟩, rfl, rfl, rfl, rfl, rfl, rfl⟩

/-! ### The assembled proof -/

namespace WithPolys
variable {dealer : WithPolys F P T} {gens : Generators P} {shares : List (ProofShare F)}

/-- The transcript of the sums of the shares, with its challenge. -/
def absorbSums (tx txBlinding eBlinding : F) : StateM T F := do
  absorbScalar "t_x" tx
  absorbScalar "t_x_blinding" txBlinding
  absorbScalar "e_blinding" eBlinding
  challenge "w"

theorem run_outerDraws (h : dealer.IsReached gens) {proof : RangeProof F P} {w : F} {t : T}
    (hA : proof.A = (dealer.bits.map (·.A)).sum) (hS : proof.S = (dealer.bits.map (·.S)).sum)
    (hT₁ : proof.T₁ = (dealer.polys.map (·.T₁)).sum) (hT₂ : proof.T₂ = (dealer.polys.map (·.T₂)).sum)
    (hw : (absorbSums proof.tx proof.txBlinding proof.eBlinding).run dealer.transcript = (w, t)) :
    (proof.outerDraws dealer.n (dealer.bits.map (·.V))).run dealer.initial =
      (⟨dealer.bitChallenge.y, dealer.bitChallenge.z, dealer.polyChallenge, w, []⟩, t) := by
  have hrounds : (proof.outerDraws dealer.n (dealer.bits.map (·.V))).run dealer.initial =
      (do
        let (ch, x) ← opening dealer.n dealer.m dealer.bits dealer.polys
        let w ← absorbSums proof.tx proof.txBlinding proof.eBlinding
        pure (⟨ch.y, ch.z, x, w, []⟩ : Challenges F)).run dealer.initial := by
    rw [RangeProof.outerDraws, List.length_map, h.length_bits, hA, hS, hT₁, hT₂]
    simp only [List.forM_eq_forM, List.forM_map]
    rfl
  rw [hrounds, run_bind_of_eq h.run_opening]
  exact run_bind_of_eq hw

variable [Field F]

/-- The vectors that the dealer proves the inner product of. -/
def argument (dealer : WithPolys F P T) (gens : Generators P) (shares : List (ProofShare F)) :
    Argument F P where
  G := gens.vector .G dealer.n dealer.m
  H := gens.vector .H dealer.n dealer.m
  x := List.replicate (dealer.n * dealer.m) 1
  y := powers dealer.bitChallenge.y⁻¹ (dealer.n * dealer.m)
  a := shares.flatMap (·.l)
  b := shares.flatMap (·.r)

/-- The sums of all messages, with an inner-product argument. -/
def proofWith (dealer : WithPolys F P T) (shares : List (ProofShare F))
    (inner : InnerProductProof F P) : RangeProof F P where
  A := (dealer.bits.map (·.A)).sum
  S := (dealer.bits.map (·.S)).sum
  T₁ := (dealer.polys.map (·.T₁)).sum
  T₂ := (dealer.polys.map (·.T₂)).sum
  tx := (shares.map (·.tx)).sum
  txBlinding := (shares.map (·.txBlinding)).sum
  eBlinding := (shares.map (·.eBlinding)).sum
  inner := inner

theorem argument_hasLength (h : dealer.IsReached gens) (hlen : shares.length = dealer.m)
    (hlengths : ∀ s ∈ shares, s.l.length = dealer.n ∧ s.r.length = dealer.n) :
    (dealer.argument gens shares).HasLength (dealer.n * dealer.m) := by
  have hflat : ∀ f : ProofShare F → List F, (∀ s ∈ shares, (f s).length = dealer.n) →
      (shares.flatMap f).length = dealer.n * dealer.m := by
    intro f hf
    rw [List.length_flatMap, List.map_congr_left hf, List.map_const', List.sum_replicate, hlen,
      smul_eq_mul, Nat.mul_comm]
  exact ⟨Generators.length_vector h.fit.capacity h.fit.parties .G,
    Generators.length_vector h.fit.capacity h.fit.parties .H, List.length_replicate,
    length_powers _ _, hflat _ fun s hs => (hlengths s hs).1, hflat _ fun s hs => (hlengths s hs).2⟩

omit [ScalarEncoding F] [Field F] in
theorem positions_eq_nil_iff {bad : ℕ → ProofShare F → Bool} :
    positions bad shares = [] ↔ ∀ (j : ℕ) (hj : j < shares.length), bad j shares[j] = false := by
  rw [positions, List.map_eq_nil_iff, List.filter_eq_nil_iff]
  constructor
  · intro h j hj
    have hentry := h (shares[j], j)
      (List.mk_mem_zipIdx_iff_getElem?.mpr (List.getElem?_eq_getElem hj))
    simpa using hentry
  · rintro h ⟨share, j⟩ hmem
    obtain ⟨hj, rfl⟩ := List.getElem?_eq_some_iff.mp (List.mk_mem_zipIdx_iff_getElem?.mp hmem)
    simp [h j hj]

omit [Field F] in
theorem positions_not_fits_iff (h : dealer.IsReached gens) (hlen : shares.length = dealer.m) :
    positions (fun j (share : ProofShare F) => !share.fits gens dealer.n j) shares = [] ↔
      ∀ s ∈ shares, s.l.length = dealer.n ∧ s.r.length = dealer.n := by
  simp only [positions_eq_nil_iff, Bool.not_eq_false', ProofShare.fits_iff, List.forall_mem_iff_getElem]
  refine forall₂_congr fun j hj => ⟨fun hfit => ⟨hfit.1, hfit.2.1⟩, fun hfit => ⟨hfit.1, hfit.2, ?_⟩⟩
  exact ⟨h.fit.capacity, (hlen ▸ hj).trans_le h.fit.parties⟩

variable [Module F P] [MultiScalar F P] {key : CommitmentKey P}

/-- The proof that a dealer assembles under the challenges `ch`. -/
def proofUnder (dealer : WithPolys F P T) (gens : Generators P) (key : CommitmentKey P)
    (shares : List (ProofShare F)) (ch : Challenges F) : RangeProof F P :=
  dealer.proofWith shares
    (.ofChallenges (ch.w • key.value) ch.us (dealer.argument gens shares))

/-- The dealer assembles shares of the right number and lengths, and the proof is the one under the
challenges that the verifier draws on it, from the dealer's first transcript to its last. -/
theorem exists_assemble_eq (h : dealer.IsReached gens) (key : CommitmentKey P)
    (hlen : shares.length = dealer.m)
    (hlengths : ∀ s ∈ shares, s.l.length = dealer.n ∧ s.r.length = dealer.n) :
    ∃ (ch : Challenges F) (t : T),
      dealer.assemble gens key shares = .ok (dealer.proofUnder gens key shares ch, t) ∧
      ((dealer.proofUnder gens key shares ch).draws dealer.n (dealer.bits.map (·.V))).run
        dealer.initial = (ch, t) ∧
      dealer.bitChallenge = ⟨ch.y, ch.z⟩ ∧ dealer.polyChallenge = ch.x ∧
      dealer.n * dealer.m = 2 ^ ch.us.length := by
  obtain ⟨k, hk⟩ := h.fit.exists_eq_two_pow
  have hargument := argument_hasLength h hlen hlengths
  rw [hk] at hargument
  -- the challenge behind the sums, and the inner-product argument from there on
  let sums : StateM T F := absorbSums (shares.map (·.tx)).sum (shares.map (·.txBlinding)).sum
    (shares.map (·.eBlinding)).sum
  rcases hw : sums.run dealer.transcript with ⟨w, t₁⟩
  obtain ⟨us, t, rfl, hcreate, hdraws⟩ :=
    InnerProductProof.exists_create_eq (w • key.value) hargument t₁
  let ch : Challenges F :=
    ⟨dealer.bitChallenge.y, dealer.bitChallenge.z, dealer.polyChallenge, w, us⟩
  have hround : (dealer.shareRound gens key shares).run dealer.transcript =
      (.ok (dealer.proofUnder gens key shares ch), t) :=
    calc (dealer.shareRound gens key shares).run dealer.transcript
      _ = (liftM sums >>= fun w => InnerProductProof.create (w • key.value)
            (dealer.argument gens shares) >>= fun inner =>
              pure (dealer.proofWith shares inner)).run dealer.transcript := rfl
      _ = (InnerProductProof.create (w • key.value) (dealer.argument gens shares) >>= fun inner =>
            pure (dealer.proofWith shares inner)).run t₁ := run_bind_of_ok (run_lift_of_eq hw)
      _ = (.ok (dealer.proofUnder gens key shares ch), t) := run_bind_of_ok hcreate
  refine ⟨ch, t, ?_, ?_, rfl, rfl, hk⟩
  · rw [assemble, if_neg (by simp [hlen]), (positions_not_fits_iff h hlen).mpr hlengths, hround]
    rfl
  · rw [RangeProof.draws, run_bind_of_eq (run_outerDraws h rfl rfl rfl rfl hw), List.length_map,
      h.length_bits, hk]
    exact run_bind_of_eq hdraws

/-- What the inner-product argument of an assembled proof has to do with the messages: one pair of
points for every halving, the challenges that the verifier draws, and the point that it compares. -/
structure Assembled (dealer : WithPolys F P T) (gens : Generators P) (key : CommitmentKey P)
    (shares : List (ProofShare F)) (inner : InnerProductProof F P) (ch : Challenges F) (t : T) :
    Prop where
  length_L : inner.L.length = (dealer.n * dealer.m).log2
  length_R : inner.R.length = (dealer.n * dealer.m).log2
  bitChallenge : dealer.bitChallenge = ⟨ch.y, ch.z⟩
  polyChallenge : dealer.polyChallenge = ch.x
  run_draws : ((dealer.proofWith shares inner).draws dealer.n (dealer.bits.map (·.V))).run
    dealer.initial = (ch, t)
  combination_eq : (∀ u ∈ ch.us, u ≠ 0) →
    inner.combination (List.replicate (dealer.n * dealer.m) 1)
        (powers ch.y⁻¹ (dealer.n * dealer.m)) ch.us (ch.w • key.value)
        (gens.vector .G dealer.n dealer.m) (gens.vector .H dealer.n dealer.m) =
      (dealer.argument gens shares).point (ch.w • key.value)

variable [LawfulMultiScalar F P]

theorem exists_assembled (h : dealer.IsReached gens) (key : CommitmentKey P)
    (hlen : shares.length = dealer.m)
    (hlengths : ∀ s ∈ shares, s.l.length = dealer.n ∧ s.r.length = dealer.n) :
    ∃ inner ch t, dealer.assemble gens key shares = .ok (dealer.proofWith shares inner, t) ∧
      dealer.Assembled gens key shares inner ch t := by
  obtain ⟨ch, t, hassemble, hdraws, hbit, hpoly, hsize⟩ := exists_assemble_eq h key hlen hlengths
  have hlog : (dealer.n * dealer.m).log2 = ch.us.length := by rw [hsize, Nat.log2_two_pow]
  refine ⟨_, ch, t, hassemble, ?_, ?_, hbit, hpoly, hdraws, fun hus => ?_⟩
  · rw [InnerProductProof.length_L_ofChallenges, hlog]
  · rw [InnerProductProof.length_R_ofChallenges, hlog]
  · have hargument := argument_hasLength h hlen hlengths
    rw [hsize] at hargument
    have hcombination :=
      InnerProductProof.combination_ofChallenges (ch.w • key.value) hus hargument
    simp only [argument, hbit] at hcombination ⊢
    exact hcombination

omit [LawfulMultiScalar F P] in
theorem lengths_of_assemble (h : dealer.IsReached gens) {proof : RangeProof F P} {t : T}
    (hok : dealer.assemble gens key shares = .ok (proof, t)) :
    shares.length = dealer.m ∧ ∀ s ∈ shares, s.l.length = dealer.n ∧ s.r.length = dealer.n := by
  rw [assemble, if_throw_eq_ok, unless_throw_eq_ok] at hok
  have hlen : shares.length = dealer.m := (not_not.mp hok.1).symm
  exact ⟨hlen, (positions_not_fits_iff h hlen).mp (List.isEmpty_iff.mp hok.2.1)⟩

/-- What is assembled is the sums of the messages, with an argument for the dealer's vectors. -/
theorem assembled_of_assemble (h : dealer.IsReached gens) {proof : RangeProof F P} {t : T}
    (hok : dealer.assemble gens key shares = .ok (proof, t)) :
    shares.length = dealer.m ∧ ∃ inner ch, proof = dealer.proofWith shares inner ∧
      dealer.Assembled gens key shares inner ch t := by
  obtain ⟨hlen, hlengths⟩ := lengths_of_assemble h hok
  obtain ⟨inner, ch, t', hok', hassembled⟩ := exists_assembled h key hlen hlengths
  obtain ⟨rfl, rfl⟩ := Prod.mk.inj (Except.ok.inj (hok.symm.trans hok'))
  exact ⟨hlen, inner, ch, rfl, hassembled⟩

/-! ### The two points, party by party -/

/-- The point of the inner-product argument, and the point that the verifier compares it with, differ
by what is left of the equations of the shares' vectors and by the error of the sum of their inner
products. -/
theorem vectorPoint_sub_point (h : dealer.IsReached gens) (hbits : dealer.bits.length = dealer.m)
    (hlen : shares.length = dealer.m)
    (hlengths : ∀ s ∈ shares, s.l.length = dealer.n ∧ s.r.length = dealer.n) {ch : Challenges F}
    (hch : dealer.bitChallenge = ⟨ch.y, ch.z⟩) (inner : InnerProductProof F P) :
    (dealer.proofWith shares inner).vectorPoint gens key dealer.n dealer.m ch
        - (dealer.argument gens shares).point (ch.w • key.value) =
      ∑ j : Fin dealer.m, shares[j].vectorDefect gens key dealer.n j dealer.bits[j] dealer.bitChallenge
          ch.x
        + (ch.w * ((shares.map (·.tx)).sum
          - innerProduct (shares.flatMap (·.l)) (shares.flatMap (·.r)))) • key.value := by
  have hlj : ∀ j : Fin dealer.m, shares[j].l.length = dealer.n := fun j =>
    (hlengths _ (List.getElem_mem _)).1
  have hrj : ∀ j : Fin dealer.m, shares[j].r.length = dealer.n := fun j =>
    (hlengths _ (List.getElem_mem _)).2
  -- the vectors over all positions, position by position
  have hsum := Generators.sum_vector (n := dealer.n) h.fit.parties .G
  have hoffsets : dot (RangeProof.offsetScalars dealer.n dealer.m ch)
      (gens.vector .H dealer.n dealer.m) =
      ∑ j : Fin dealer.m, dot (ProofShare.offsets dealer.n j dealer.bitChallenge)
        (gens.rowD .H dealer.n j) := by
    rw [hch]
    exact Generators.dot_vector h.fit.capacity h.fit.parties .H fun j => List.length_ofFn
  have hleft : dot₃ (shares.flatMap (·.l)) (List.replicate (dealer.n * dealer.m) 1)
      (gens.vector .G dealer.n dealer.m) =
      ∑ j : Fin dealer.m, dot shares[j].l (gens.rowD .G dealer.n j) := by
    have hlength : (shares.flatMap (·.l)).length = dealer.n * dealer.m :=
      (argument_hasLength h hlen hlengths).a
    have hones : List.replicate (dealer.n * dealer.m) (1 : F) =
        (List.replicate (dealer.n * dealer.m) (1 : F)).map fun _ => 1 := by simp
    rw [hones, dot₃_one _ (hlength.trans List.length_replicate.symm), flatMap_eq_flatten_ofFn hlen]
    exact Generators.dot_vector h.fit.capacity h.fit.parties .G hlj
  have hright : dot₃ (shares.flatMap (·.r)) (powers dealer.bitChallenge.y⁻¹ (dealer.n * dealer.m))
      (gens.vector .H dealer.n dealer.m) =
      ∑ j : Fin dealer.m, dot₃ shares[j].r
        (ProofShare.inversePowers dealer.n j dealer.bitChallenge.y) (gens.rowD .H dealer.n j) := by
    rw [dot₃, powers_mul, flatMap_eq_flatten_ofFn hlen,
      RangeProof.zipWith_flatten_ofFn _ fun j => by rw [hrj, length_powersFrom]]
    refine Generators.dot_vector h.fit.capacity h.fit.parties .H fun j => ?_
    rw [List.length_zipWith, hrj, length_powersFrom, Nat.min_self]
  rw [Argument.point_eq (argument_hasLength h hlen hlengths), RangeProof.vectorPoint]
  simp only [proofWith, argument, ProofShare.vectorDefect, Finset.sum_add_distrib,
    Finset.sum_sub_distrib, ← Finset.smul_sum, ← Finset.sum_smul]
  rw [hsum, hoffsets, hleft, hright, sum_map_eq_sum hbits, sum_map_eq_sum hbits,
    sum_map_eq_sum hlen (·.eBlinding), hch]
  module

omit [Transcript T] [ScalarEncoding F] [PointEncoding P] [MultiScalar F P] [LawfulMultiScalar F P] in
theorem valueDefect_eq_sum (hbits : dealer.bits.length = dealer.m)
    (hpolys : dealer.polys.length = dealer.m) (hlen : shares.length = dealer.m) {ch : Challenges F}
    (hch : dealer.bitChallenge = ⟨ch.y, ch.z⟩) (inner : InnerProductProof F P) :
    (dealer.proofWith shares inner).valueDefect key dealer.n (dealer.bits.map (·.V)) ch =
      ∑ j : Fin dealer.m, shares[j].valueDefect key dealer.n j dealer.bits[j] dealer.bitChallenge
        dealer.polys[j] ch.x := by
  have hvalues : ∑ j : Fin (dealer.bits.map (·.V)).length, ch.z ^ (2 + j : ℕ) •
      (dealer.bits.map (·.V))[j] = ∑ j : Fin dealer.m, ch.z ^ (2 + j : ℕ) • dealer.bits[j].V :=
    Fintype.sum_equiv (finCongr (by simp [hbits])) _ _ fun j => by simp
  have hdelta : delta dealer.n (dealer.bits.map (·.V)).length ch.y ch.z =
      ∑ j : Fin dealer.m, ProofShare.delta dealer.n j dealer.bitChallenge := by
    rw [List.length_map, hbits, delta_eq_sum, hch]
  rw [RangeProof.valueDefect, hvalues, hdelta]
  simp only [proofWith, ProofShare.valueDefect, Finset.sum_add_distrib, Finset.sum_sub_distrib,
    ← Finset.smul_sum, ← Finset.sum_smul]
  rw [sum_map_eq_sum hpolys, sum_map_eq_sum hpolys, sum_map_eq_sum hlen, sum_map_eq_sum hlen, hch]

/-! ### Acceptance -/

/-- Whether every share agrees with the messages of its party. -/
def SharesAgree (dealer : WithPolys F P T) (gens : Generators P) (key : CommitmentKey P)
    (shares : List (ProofShare F)) : Prop :=
  ∀ (j : ℕ) (share : ProofShare F) (bits : BitCommitment P) (polys : PolyCommitment P),
    shares[j]? = some share → dealer.bits[j]? = some bits → dealer.polys[j]? = some polys →
      share.Agrees gens key dealer.n j bits dealer.bitChallenge polys dealer.polyChallenge

omit [Transcript T] [ScalarEncoding F] [PointEncoding P] [MultiScalar F P] [LawfulMultiScalar F P] in
theorem SharesAgree.agrees (hagree : dealer.SharesAgree gens key shares)
    (hbits : dealer.bits.length = dealer.m) (hpolys : dealer.polys.length = dealer.m)
    (hlen : shares.length = dealer.m) (j : Fin dealer.m) :
    shares[j].Agrees gens key dealer.n j dealer.bits[j] dealer.bitChallenge dealer.polys[j]
      dealer.polyChallenge :=
  hagree j _ _ _ (List.getElem?_eq_getElem _) (List.getElem?_eq_getElem _)
    (List.getElem?_eq_getElem _)

omit [MultiScalar F P] [LawfulMultiScalar F P] in
theorem SharesAgree.lengths (hagree : dealer.SharesAgree gens key shares) (h : dealer.IsReached gens)
    (hlen : shares.length = dealer.m) :
    ∀ s ∈ shares, s.l.length = dealer.n ∧ s.r.length = dealer.n := by
  intro s hs
  obtain ⟨j, hj, rfl⟩ := List.getElem_of_mem hs
  have hshare := hagree.agrees h.length_bits h.length_polys hlen ⟨j, hlen ▸ hj⟩
  exact ⟨hshare.length_l, hshare.length_r⟩

/-- The verifier's equation holds of a proof assembled from shares that agree. -/
theorem Assembled.balances {inner : InnerProductProof F P} {ch : Challenges F} {t : T}
    (hassembled : dealer.Assembled gens key shares inner ch t) (h : dealer.IsReached gens)
    (hlen : shares.length = dealer.m) (hagree : dealer.SharesAgree gens key shares)
    (hus : ∀ u ∈ ch.us, u ≠ 0) :
    (dealer.proofWith shares inner).vectorPoint gens key dealer.n dealer.m ch =
        inner.combination (List.replicate (dealer.n * dealer.m) 1)
          (powers ch.y⁻¹ (dealer.n * dealer.m)) ch.us (ch.w • key.value)
          (gens.vector .G dealer.n dealer.m) (gens.vector .H dealer.n dealer.m) ∧
      (dealer.proofWith shares inner).valueDefect key dealer.n (dealer.bits.map (·.V)) ch = 0 := by
  have hbits := h.length_bits
  have hpolys := h.length_polys
  have hshare := hagree.agrees hbits hpolys hlen
  rw [hassembled.polyChallenge] at hshare
  have htx : (shares.map (·.tx)).sum = innerProduct (shares.flatMap (·.l)) (shares.flatMap (·.r)) := by
    rw [sum_map_eq_sum hlen, flatMap_eq_flatten_ofFn hlen, flatMap_eq_flatten_ofFn hlen,
      innerProduct_flatten_ofFn fun j => (hshare j).length_l.trans (hshare j).length_r.symm]
    exact Finset.sum_congr rfl fun j _ => (hshare j).tx_eq
  constructor
  · rw [hassembled.combination_eq hus, ← sub_eq_zero,
      vectorPoint_sub_point h hbits hlen (hagree.lengths h hlen) hassembled.bitChallenge, htx, sub_self,
      mul_zero, zero_smul, add_zero]
    exact Finset.sum_eq_zero fun j _ => (hshare j).vector
  · rw [valueDefect_eq_sum hbits hpolys hlen hassembled.bitChallenge]
    exact Finset.sum_eq_zero fun j _ => (hshare j).value

omit [LawfulMultiScalar F P] in
theorem Assembled.hasShape {inner : InnerProductProof F P} {ch : Challenges F} {t : T}
    (hassembled : dealer.Assembled gens key shares inner ch t) (h : dealer.IsReached gens)
    (hsize : dealer.n * dealer.m < 2 ^ 32) : inner.HasShape (dealer.n * dealer.m) := by
  obtain ⟨k, hk⟩ := h.fit.exists_eq_two_pow
  have hL : inner.L.length = k := by rw [hassembled.length_L, hk, Nat.log2_two_pow]
  refine ⟨?_, hassembled.length_R.trans hassembled.length_L.symm, by rw [hL, hk]⟩
  rw [hk] at hsize
  rw [hL]
  exact (Nat.pow_lt_pow_iff_right (by norm_num)).mp hsize

variable [BEq P] [LawfulBEq P]

omit [Field F] [Module F P] [MultiScalar F P] [LawfulMultiScalar F P] in
/-- A verifier draws its challenges on a proof for the dealer's parameters, if the proof has the right
shape and no point is zero. -/
theorem IsReached.prepare_of_draws (h : dealer.IsReached gens) {proof : RangeProof F P}
    (hshape : proof.inner.HasShape (dealer.n * dealer.m)) (hpoints : ∀ p ∈ proof.points, p ≠ 0)
    {ch : Challenges F} {t : T}
    (hdraws : (proof.draws dealer.n (dealer.bits.map (·.V))).run dealer.initial = (ch, t)) :
    (proof.prepare gens dealer.n (dealer.bits.map (·.V))).run dealer.initial = (.ok ch, t) := by
  have hm : (dealer.bits.map (·.V)).length = dealer.m := by rw [List.length_map, h.length_bits]
  rw [RangeProof.prepare_eq_ok_iff, hm]
  exact ⟨checkParameters_eq_ok_iff.mpr h.fit, hshape, hpoints, hdraws⟩

/-- A proof assembled from shares that agree is accepted under every weight, unless one of its points
or of the challenges of its rounds is zero. -/
theorem Assembled.accepts {inner : InnerProductProof F P} {ch : Challenges F} {t : T}
    (hassembled : dealer.Assembled gens key shares inner ch t) (h : dealer.IsReached gens)
    (hsize : dealer.n * dealer.m < 2 ^ 32) (hlen : shares.length = dealer.m)
    (hagree : dealer.SharesAgree gens key shares) (hus : ∀ u ∈ ch.us, u ≠ 0)
    (hpoints : ∀ p ∈ (dealer.proofWith shares inner).points, p ≠ 0) (c : F) :
    (dealer.proofWith shares inner).Accepts gens key dealer.n (dealer.bits.map (·.V)) dealer.initial
      c := by
  have hm : (dealer.bits.map (·.V)).length = dealer.m := by rw [List.length_map, h.length_bits]
  have hprepare := h.prepare_of_draws (hassembled.hasShape h hsize) hpoints hassembled.run_draws
  obtain ⟨hvector, hvalue⟩ := hassembled.balances h hlen hagree hus
  rw [RangeProof.accepts_iff hprepare, hm, hvector, hvalue, smul_zero, add_zero]
  exact sub_self _

end WithPolys
end Dealer
end ConfidentialTx
