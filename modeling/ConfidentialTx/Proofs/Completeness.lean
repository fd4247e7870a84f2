import ConfidentialTx.Proofs.Assembly
import ConfidentialTx.Proofs.Draws
import ConfidentialTx.Proofs.Residues

/-! # Completeness of range proofs

What the prover gives is accepted by the verifier from the same transcript on, under every weight,
unless a point that is sent, the challenge `y` or a challenge of a round is zero:
`RangeProof.prove_complete`.

* `RangeProof.MadeBy`: how a proof came about, with the dealer and the shares behind it; under this
  alone the verifier accepts (`RangeProof.MadeBy.accepts`).
* `RangeProof.rounds_of_exchange`: the three rounds between a dealer and its parties.
* `RangeProof.HonestRun`: the messages and shares of parties that follow the protocol, and why they agree
  with each other.
* `RangeProof.madeBy_of_prove`: what a prover ends with was made so. -/

namespace ConfidentialTx

namespace RangeProof
variable {F P T : Type} [Field F] [MultiScalar F P] [Transcript T]
variable {gens : Generators P} {key : CommitmentKey P} {start : T} {values : List UInt64}
variable {blindings : List F} {n : ℕ} {dealer : Dealer T} {parties : List (Party F P)}
variable {drawn : List (PartyBlindings F)} {proof : RangeProof F P} {commitments : List P}

/-! ### The rounds of the prover -/

/-- The first messages of all parties, and their states behind them. -/
def bitMessages (gens : Generators P) (key : CommitmentKey P) (parties : List (Party F P))
    (drawn : List (PartyBlindings F)) : List (Party.Committed F × BitCommitment P) :=
  (parties.zip drawn).mapIdx fun j (party, b) => party.commitBits gens key j b.bits

/-- The second messages of all parties, and their states behind them. -/
def polyMessages (gens : Generators P) (key : CommitmentKey P) (parties : List (Party F P))
    (drawn : List (PartyBlindings F)) (ch : BitChallenge F) :
    List (Party.Answering F × PolyCommitment P) :=
  List.zipWith (fun (party, _) (b : PartyBlindings F) => party.commitPolys key ch b.polys)
    (bitMessages gens key parties drawn) drawn

theorem participants_eq_ok_iff :
    participants gens key start values blindings n = .ok (dealer, parties) ↔
      values.length = blindings.length ∧ Dealer.create gens start n values.length = .ok dealer ∧
        List.Forall₂ (fun (vr : UInt64 × F) party => Party.create gens key vr.1 vr.2 n = .ok party)
          (values.zip blindings) parties := by
  rw [participants, if_throw_eq_ok, not_not, bind_eq_ok]
  refine and_congr_right fun _ => ?_
  constructor
  · rintro ⟨dealer', hcreate, h⟩
    obtain ⟨parties', hparties, h⟩ := bind_eq_ok.mp h
    obtain ⟨rfl, rfl⟩ := Prod.mk.inj (pure_eq_ok.mp h)
    exact ⟨hcreate, mapM_eq_ok.mp hparties⟩
  · rintro ⟨hcreate, hparties⟩
    exact ⟨dealer, hcreate, bind_eq_ok.mpr ⟨parties, mapM_eq_ok.mpr hparties, rfl⟩⟩

theorem bitMessages_getElem? {j : ℕ} {bits : BitCommitment P}
    (h : ((bitMessages gens key parties drawn).map (·.2))[j]? = some bits) :
    ∃ party b, parties[j]? = some party ∧ drawn[j]? = some b ∧
      (party.commitBits gens key j b.bits).2 = bits := by
  rw [bitMessages, List.getElem?_map, List.getElem?_mapIdx, Option.map_map] at h
  obtain ⟨⟨party, b⟩, hzip, rfl⟩ := Option.map_eq_some_iff.mp h
  obtain ⟨hparty, hb⟩ := List.getElem?_zip_eq_some.mp hzip
  exact ⟨party, b, hparty, hb, rfl⟩

theorem polyMessages_getElem? {ch : BitChallenge F} {j : ℕ}
    {message : Party.Answering F × PolyCommitment P}
    (h : (polyMessages gens key parties drawn ch)[j]? = some message) :
    ∃ party b, parties[j]? = some party ∧ drawn[j]? = some b ∧
      (party.commitBits gens key j b.bits).1.commitPolys key ch b.polys = message := by
  obtain ⟨committed, b, hcommitted, hb, rfl⟩ := List.getElem?_zipWith_eq_some.mp h
  rw [bitMessages, List.getElem?_mapIdx] at hcommitted
  obtain ⟨⟨party, b'⟩, hzip, rfl⟩ := Option.map_eq_some_iff.mp hcommitted
  obtain ⟨hparty, hb'⟩ := List.getElem?_zip_eq_some.mp hzip
  obtain rfl := Option.some.inj (hb.symm.trans hb')
  exact ⟨party, b, hparty, hb, rfl⟩

theorem length_bitMessages (h : drawn.length = parties.length) :
    (bitMessages gens key parties drawn).length = parties.length := by
  rw [bitMessages, List.length_mapIdx, List.length_zip, h, Nat.min_self]

theorem length_polyMessages (h : drawn.length = parties.length) (ch : BitChallenge F) :
    (polyMessages gens key parties drawn ch).length = parties.length := by
  rw [polyMessages, List.length_zipWith, length_bitMessages h, h, Nat.min_self]

theorem values_of_bitMessages
    (hparties : List.Forall₂ (fun (vr : UInt64 × F) party =>
      Party.create gens key vr.1 vr.2 n = .ok party) (values.zip blindings) parties)
    (hdrawn : drawn.length = parties.length) :
    (bitMessages gens key parties drawn).map (·.2.V) =
      List.zipWith (fun v r => key.commit (v.toNat : F) r) values blindings := by
  have hlen : (values.zip blindings).length = parties.length := hparties.length_eq
  apply List.ext_getElem
  · rw [List.length_map, List.length_zipWith, length_bitMessages hdrawn, ← hlen, List.length_zip]
  · intro j h₁ h₂
    have hj : j < (values.zip blindings).length := by simpa using h₂
    have hcreate := hparties.get hj (hlen ▸ hj)
    obtain ⟨-, -, -, hparty⟩ := Party.create_eq_ok_iff.mp hcreate
    simp only [List.get_eq_getElem, List.getElem_zip] at hparty
    simp [bitMessages, Party.commitBits, ← hparty]

variable [AddCommGroup P] [Module F P] [ScalarEncoding F] [PointEncoding P]

/-! ### Proofs that a dealer made -/

/-- How a proof for values of `n` bits came about: the dealer that took in the messages, from the
transcript before the proof on, the shares, and what they were assembled to. -/
structure MadeBy (proof : RangeProof F P) (commitments : List P) (gens : Generators P)
    (key : CommitmentKey P) (start : T) (n m : ℕ) (dealer : Dealer.WithPolys F P T)
    (shares : List (ProofShare F)) (inner : InnerProductProof F P) (ch : Challenges F) (t : T) :
    Prop where
  reached : dealer.IsReached gens
  initial_eq : dealer.initial = start
  n_eq : dealer.n = n
  m_eq : dealer.m = m
  length_shares : shares.length = dealer.m
  assembled : dealer.Assembled gens key shares inner ch t
  proof_eq : proof = dealer.proofWith shares inner
  commitments_eq : commitments = dealer.bits.map (·.V)
  agree : ch.y ≠ 0 → dealer.SharesAgree gens key shares

/-- Whether the challenge `y` and the challenges of the rounds of a proof are not zero. -/
def HasNonzeroChallenges {F P T : Type} [Zero F] [ScalarEncoding F] [PointEncoding P] [Transcript T]
    (proof : RangeProof F P) (n : ℕ) (values : List P) (t : T) : Prop :=
  ((proof.draws n values).run t).1.y ≠ 0 ∧ ∀ u ∈ ((proof.draws n values).run t).1.us, u ≠ 0

namespace MadeBy
variable {m : ℕ} {dealer : Dealer.WithPolys F P T} {shares : List (ProofShare F)}
variable {inner : InnerProductProof F P} {ch : Challenges F} {t : T}

theorem length_commitments (h : proof.MadeBy commitments gens key start n m dealer shares inner ch t) :
    commitments.length = m := by
  rw [h.commitments_eq, List.length_map, h.reached.length_bits, h.m_eq]

theorem fit (h : proof.MadeBy commitments gens key start n m dealer shares inner ch t) :
    ParametersFit gens n m :=
  h.n_eq ▸ h.m_eq ▸ h.reached.fit

theorem lengths (h : proof.MadeBy commitments gens key start n m dealer shares inner ch t) :
    proof.inner.L.length = (n * m).log2 ∧ proof.inner.R.length = (n * m).log2 := by
  rw [h.proof_eq, ← h.n_eq, ← h.m_eq]
  exact ⟨h.assembled.length_L, h.assembled.length_R⟩

variable [LawfulMultiScalar F P] [BEq P] [LawfulBEq P]

/-- The verifier accepts under every weight, if nothing is zero that must not be. -/
theorem accepts (h : proof.MadeBy commitments gens key start n m dealer shares inner ch t)
    (hsize : n * m < 2 ^ 32) (hchallenges : proof.HasNonzeroChallenges n commitments start)
    (hpoints : ∀ p ∈ proof.points, p ≠ 0) (c : F) :
    proof.Accepts gens key n commitments start c := by
  obtain ⟨hreached, rfl, rfl, rfl, hlen, hassembled, rfl, rfl, hagree⟩ := h
  unfold HasNonzeroChallenges at hchallenges
  rw [hassembled.run_draws] at hchallenges
  exact hassembled.accepts hreached hsize hlen (hagree hchallenges.1) hchallenges.2 hpoints c

end MadeBy

/-! ### The prover -/

variable [BEq F]

theorem rounds_of_exchange
    (h : exchange gens key dealer parties drawn = .ok (proof, commitments)) :
    ∃ (withBits : Dealer.WithBits F P T) (withPolys : Dealer.WithPolys F P T)
      (shares : List (ProofShare F)) (t : T),
      dealer.receiveBits ((bitMessages gens key parties drawn).map (·.2)) = .ok withBits ∧
      withBits.receivePolys ((polyMessages gens key parties drawn withBits.bitChallenge).map (·.2)) =
        .ok withPolys ∧
      List.Forall₂ (fun (message : Party.Answering F × PolyCommitment P) share =>
        message.1.share withPolys.polyChallenge = .ok share)
          (polyMessages gens key parties drawn withBits.bitChallenge) shares ∧
      withPolys.assemble gens key shares = .ok (proof, t) ∧
      commitments = (bitMessages gens key parties drawn).map (·.2.V) := by
  obtain ⟨⟨⟩, -, h⟩ := bind_eq_ok.mp h
  obtain ⟨withBits, hbits, h⟩ := bind_eq_ok.mp h
  obtain ⟨withPolys, hpolys, h⟩ := bind_eq_ok.mp h
  obtain ⟨shares, hshares, h⟩ := bind_eq_ok.mp h
  obtain ⟨proof', hproof, h⟩ := bind_eq_ok.mp h
  obtain ⟨rfl, rfl⟩ := Prod.mk.inj (pure_eq_ok.mp h)
  obtain ⟨⟨proof, t⟩, hassemble, rfl⟩ := map_eq_ok.mp hproof
  exact ⟨withBits, withPolys, shares, t, hbits, hpolys, mapM_eq_ok.mp hshares, hassemble,
    List.map_map⟩

theorem fst_run_prove (gens : Generators P) (key : CommitmentKey P) (start : T) (values : List UInt64)
    (blindings : List F) (n : ℕ) (source : RandomSource) :
    ((prove gens key start values blindings n).run source).1 =
      (participants gens key start values blindings n >>= fun p => exchange gens key p.1 p.2
        ((RandomSource.times (PartyBlindings.drawSeeded n) p.2.length).run source).1) := by
  rcases hparticipants : participants gens key start values blindings n with e | ⟨dealer, parties⟩
  · exact congrArg Prod.fst (run_check_bind_of_error hparticipants)
  · rw [prove, run_bind_of_ok (run_lift_of_ok hparticipants)]
    rfl

/-- A prover that ends with a proof has made an exchange with blinding factors of the right number and
lengths. -/
theorem exchange_of_prove {source : RandomSource}
    (h : ((prove gens key start values blindings n).run source).1 = .ok (proof, commitments)) :
    ∃ (dealer : Dealer T) (parties : List (Party F P)) (drawn : List (PartyBlindings F)),
      participants gens key start values blindings n = .ok (dealer, parties) ∧
      drawn.length = parties.length ∧
      (∀ b ∈ drawn, b.bits.sL.length = n ∧ b.bits.sR.length = n) ∧
      exchange gens key dealer parties drawn = .ok (proof, commitments) := by
  rw [fst_run_prove] at h
  obtain ⟨⟨dealer, parties⟩, hparticipants, hexchange⟩ := bind_eq_ok.mp h
  exact ⟨dealer, parties, _, hparticipants, RandomSource.length_times _ _ _,
    RandomSource.forall_mem_times (PartyBlindings.length_drawSeeded n) _ _, hexchange⟩

variable [LawfulMultiScalar F P] [LawfulBEq F]

/-- Whether the messages that a dealer took in, and the shares behind them, are those of parties that were
created for the values and follow the protocol. -/
structure HonestRun (gens : Generators P) (key : CommitmentKey P) (values : List UInt64)
    (blindings : List F) (parties : List (Party F P)) (drawn : List (PartyBlindings F))
    (dealer : Dealer.WithPolys F P T) (shares : List (ProofShare F)) : Prop where
  bits_eq : dealer.bits = (bitMessages gens key parties drawn).map (·.2)
  polys_eq : dealer.polys = (polyMessages gens key parties drawn dealer.bitChallenge).map (·.2)
  created : List.Forall₂ (fun (vr : UInt64 × F) party =>
    Party.create gens key vr.1 vr.2 dealer.n = .ok party) (values.zip blindings) parties
  lengths : ∀ b ∈ drawn, b.bits.sL.length = dealer.n ∧ b.bits.sR.length = dealer.n
  answered : List.Forall₂ (fun (message : Party.Answering F × PolyCommitment P) share =>
    message.1.share dealer.polyChallenge = .ok share)
      (polyMessages gens key parties drawn dealer.bitChallenge) shares

namespace HonestRun
variable {dealer : Dealer.WithPolys F P T} {shares : List (ProofShare F)}

omit [Transcript T] [ScalarEncoding F] [PointEncoding P] [AddCommGroup P] [Module F P]
  [LawfulMultiScalar F P] [LawfulBEq F] in
theorem exists_party (h : HonestRun gens key values blindings parties drawn dealer shares) {j : ℕ}
    {share : ProofShare F} {bits : BitCommitment P} {polys : PolyCommitment P}
    (hshare : shares[j]? = some share) (hbit : dealer.bits[j]? = some bits)
    (hpoly : dealer.polys[j]? = some polys) :
    ∃ (vr : UInt64 × F) (party : Party F P) (b : PartyBlindings F),
      parties[j]? = some party ∧ Party.create gens key vr.1 vr.2 dealer.n = .ok party ∧
      b.bits.sL.length = dealer.n ∧ b.bits.sR.length = dealer.n ∧
      (party.commitBits gens key j b.bits).2 = bits ∧
      ((party.commitBits gens key j b.bits).1.commitPolys key dealer.bitChallenge b.polys).2 = polys ∧
      ((party.commitBits gens key j b.bits).1.commitPolys key dealer.bitChallenge b.polys).1.share
        dealer.polyChallenge = .ok share := by
  rw [h.bits_eq] at hbit
  rw [h.polys_eq, List.getElem?_map] at hpoly
  obtain ⟨party, b, hparty, hb, rfl⟩ := bitMessages_getElem? hbit
  obtain ⟨message, hmessage, rfl⟩ := Option.map_eq_some_iff.mp hpoly
  obtain ⟨message', hmessage', hshare⟩ := exists_of_forall₂ h.answered hshare
  obtain rfl := Option.some.inj (hmessage.symm.trans hmessage')
  obtain ⟨party', b', hparty', hb', rfl⟩ := polyMessages_getElem? hmessage
  obtain rfl := Option.some.inj (hparty.symm.trans hparty')
  obtain rfl := Option.some.inj (hb.symm.trans hb')
  obtain ⟨vr, -, hcreate⟩ := exists_of_forall₂ h.created hparty
  obtain ⟨hL, hR⟩ := h.lengths b (List.mem_of_getElem? hb)
  exact ⟨vr, party, b, hparty, hcreate, hL, hR, rfl, rfl, hshare⟩

omit [Transcript T] [ScalarEncoding F] [PointEncoding P] in
theorem sharesAgree (h : HonestRun gens key values blindings parties drawn dealer shares)
    (hfit : ParametersFit gens dealer.n dealer.m) (hlen : parties.length = dealer.m)
    (hy : dealer.bitChallenge.y ≠ 0) : dealer.SharesAgree gens key shares := by
  intro j share bits polys hshare hbit hpoly
  obtain ⟨vr, party, b, hparty, hcreate, hL, hR, rfl, rfl, hshare⟩ := h.exists_party hshare hbit hpoly
  have hj : j < gens.parties :=
    (hlen ▸ (List.getElem?_eq_some_iff.mp hparty).1).trans_le hfit.parties
  exact Party.share_agrees hcreate hj hL hR hy hshare

omit [Transcript T] [ScalarEncoding F] [PointEncoding P] in
/-- Nothing is left of the equation of an inner product, even under a challenge `y` that is zero. -/
theorem valueDefect_eq_zero (h : HonestRun gens key values blindings parties drawn dealer shares) {j : ℕ}
    {share : ProofShare F} {bits : BitCommitment P} {polys : PolyCommitment P}
    (hshare : shares[j]? = some share) (hbit : dealer.bits[j]? = some bits)
    (hpoly : dealer.polys[j]? = some polys) :
    share.valueDefect key dealer.n j bits dealer.bitChallenge polys dealer.polyChallenge = 0 := by
  obtain ⟨vr, party, b, -, hcreate, -, -, rfl, rfl, hshare⟩ := h.exists_party hshare hbit hpoly
  obtain ⟨-, -, hvalue, hparty⟩ := Party.create_eq_ok_iff.mp hcreate
  have hn : party.n = dealer.n := by rw [← hparty]
  have hV : party.V = key.commit (party.value.toNat : F) party.blinding := by rw [← hparty]
  have hsize : party.value.toNat < 2 ^ party.n := by rw [← hparty]; exact hvalue
  rw [← hn]
  exact Party.valueDefect_share hV hsize hshare

end HonestRun

omit [LawfulBEq F] in
/-- What stands behind a proof that a prover ends with: a dealer, and the run of its parties. -/
theorem honestRun_of_prove {source : RandomSource}
    (h : ((prove gens key start values blindings n).run source).1 = .ok (proof, commitments)) :
    values.length = blindings.length ∧
    commitments = List.zipWith (fun v r => key.commit (v.toNat : F) r) values blindings ∧
    ∃ (dealer : Dealer.WithPolys F P T) (parties : List (Party F P)) (drawn : List (PartyBlindings F))
      (shares : List (ProofShare F)) (inner : InnerProductProof F P) (ch : Challenges F) (t : T),
      HonestRun gens key values blindings parties drawn dealer shares ∧ parties.length = dealer.m ∧
      dealer.IsReached gens ∧ dealer.initial = start ∧ dealer.n = n ∧ dealer.m = values.length ∧
      shares.length = dealer.m ∧ dealer.Assembled gens key shares inner ch t ∧
      proof = dealer.proofWith shares inner ∧ commitments = dealer.bits.map (·.V) := by
  obtain ⟨created, parties, drawn, hparticipants, hlen, hlengths, hexchange⟩ := exchange_of_prove h
  obtain ⟨hvalues, hcreate, hparties⟩ := participants_eq_ok_iff.mp hparticipants
  obtain ⟨withBits, dealer, shares, t, hbits, hpolys, hshares, hassemble, rfl⟩ :=
    rounds_of_exchange hexchange
  obtain ⟨hreached, rfl, rfl, hm, hbits, hpolys, hch⟩ := Dealer.isReached hcreate hbits hpolys
  obtain ⟨hshareslen, inner, ch, rfl, hassembled⟩ :=
    Dealer.WithPolys.assembled_of_assemble hreached hassemble
  rw [← hch] at hpolys hshares
  have hparties_length : parties.length = dealer.m := by
    rw [hm, ← hparties.length_eq, List.length_zip, ← hvalues, Nat.min_self]
  have hV : (bitMessages gens key parties drawn).map (·.2.V) = dealer.bits.map (·.V) := by
    rw [hbits, List.map_map]
    rfl
  exact ⟨hvalues, values_of_bitMessages hparties hlen, dealer, parties, drawn, shares, inner, ch, t,
    ⟨hbits, hpolys, hparties, hlengths, hshares⟩, hparties_length, hreached, rfl, rfl, hm, hshareslen,
    hassembled, rfl, hV⟩

theorem madeBy_of_prove {source : RandomSource}
    (h : ((prove gens key start values blindings n).run source).1 = .ok (proof, commitments)) :
    values.length = blindings.length ∧
    commitments = List.zipWith (fun v r => key.commit (v.toNat : F) r) values blindings ∧
    ∃ dealer shares inner ch t,
      proof.MadeBy commitments gens key start n values.length dealer shares inner ch t := by
  obtain ⟨hvalues, hcommitments, dealer, parties, drawn, shares, inner, ch, t, hrun, hparties, hreached,
    hinitial, hn, hm, hshares, hassembled, hproof, hV⟩ := honestRun_of_prove h
  refine ⟨hvalues, hcommitments, dealer, shares, inner, ch, t, hreached, hinitial, hn, hm, hshares,
    hassembled, hproof, hV, fun hy => ?_⟩
  exact hrun.sharesAgree hreached.fit hparties (hassembled.bitChallenge ▸ hy)

/-- The equation of `t(x)` holds of what a prover ends with, whatever challenges the verifier draws. -/
theorem valueDefect_of_prove {source : RandomSource}
    (h : ((prove gens key start values blindings n).run source).1 = .ok (proof, commitments)) :
    proof.valueDefect key n commitments ((proof.draws n commitments).run start).1 = 0 := by
  obtain ⟨-, -, dealer, parties, drawn, shares, inner, ch, t, hrun, -, hreached, rfl, rfl, -, hshares,
    hassembled, rfl, rfl⟩ := honestRun_of_prove h
  rw [hassembled.run_draws, Dealer.WithPolys.valueDefect_eq_sum hreached.length_bits
    hreached.length_polys hshares hassembled.bitChallenge, ← hassembled.polyChallenge]
  exact Finset.sum_eq_zero fun j _ => hrun.valueDefect_eq_zero (List.getElem?_eq_getElem _)
    (List.getElem?_eq_getElem _) (List.getElem?_eq_getElem _)

variable [BEq P] [LawfulBEq P]

/-- **Completeness.**  A prover that ends with a proof has committed to its values in order and sends
one pair of points for every halving.  The verifier, from the prover's first transcript on, accepts
under every weight if no point that is sent is zero, and reports a verification error under every
weight if one is; only the challenges `y` and those of the rounds must not be zero. -/
theorem prove_complete (gens : Generators P) (key : CommitmentKey P) (start : T)
    (values : List UInt64) (blindings : List F) (n : ℕ) (source : RandomSource)
    (hsize : n * values.length < 2 ^ 32)
    (h : ((prove gens key start values blindings n).run source).1 = .ok (proof, commitments)) :
    commitments = List.zipWith (fun v r => key.commit (v.toNat : F) r) values blindings ∧
    proof.inner.L.length = (n * values.length).log2 ∧
    proof.inner.R.length = (n * values.length).log2 ∧
    (proof.HasNonzeroChallenges n commitments start →
      ((∀ p ∈ proof.points, p ≠ 0) →
        (∀ c, ((proof.verifyWith gens key n commitments c).run start).1 = .ok ()) ∧
        ∀ source', (proof.verify gens key n commitments start source').1 = .ok ()) ∧
      ((∃ p ∈ proof.points, p = 0) →
        (∀ c, ((proof.verifyWith gens key n commitments c).run start).1 =
          .error .verificationError) ∧
        ∀ source', (proof.verify gens key n commitments start source').1 =
          .error .verificationError)) := by
  obtain ⟨-, hcommitments, dealer, shares, inner, ch, t, hmade⟩ := madeBy_of_prove h
  have hparams : checkParameters gens n commitments.length = .ok () := by
    rw [hmade.length_commitments]
    exact checkParameters_eq_ok_iff.mpr hmade.fit
  refine ⟨hcommitments, hmade.lengths.1, hmade.lengths.2, fun hchallenges => ⟨?_, ?_⟩⟩
  · intro hpoints
    have haccepts := hmade.accepts hsize hchallenges hpoints
    exact ⟨haccepts, fun source' => (verify_fst source').trans (haccepts _)⟩
  · intro hzero
    have hrefused := fun c : F => verifyWith_of_zero_point key c hparams hzero start
    exact ⟨hrefused, fun source' => (verify_fst source').trans (hrefused _)⟩

/-- Whether nothing that must not be zero is zero. -/
def isRegular {F P T : Type} [Zero F] [BEq F] [Zero P] [BEq P] [ScalarEncoding F] [PointEncoding P]
    [Transcript T] (proof : RangeProof F P) (n : ℕ) (values : List P) (t : T) : Bool :=
  ((proof.draws (F := F) n values).run t).1.y != 0 &&
    ((proof.draws (F := F) n values).run t).1.us.all (· != 0) && proof.points.all (· != 0)

theorem isRegular_iff {F P T : Type} [Zero F] [BEq F] [LawfulBEq F] [Zero P] [BEq P] [LawfulBEq P]
    [ScalarEncoding F] [PointEncoding P] [Transcript T] {proof : RangeProof F P} {n : ℕ}
    {values : List P} {t : T} :
    proof.isRegular n values t = true ↔
      proof.HasNonzeroChallenges n values t ∧ ∀ p ∈ proof.points, p ≠ 0 := by
  simp [isRegular, HasNonzeroChallenges, and_assoc]

/-- Two residues below `2⁸` are proved with nothing zero, so the proof is accepted under every weight. -/
theorem prove_complete_two_residues :
    8 * [200, 17].length < 2 ^ 32 ∧ ∃ (proof : RangeProof Residue Residue) (commitments : List Residue),
      ((prove (Residue.table 8 2) Residue.key Residue.start [200, 17] [7, 9] 8).run Residue.source).1 =
        .ok (proof, commitments) ∧
      proof.HasNonzeroChallenges 8 commitments Residue.start ∧ (∀ p ∈ proof.points, p ≠ 0) ∧
      commitments = [635, 96] ∧ proof.inner.L.length = 4 ∧
      ∀ c, ((proof.verifyWith (Residue.table 8 2) Residue.key 8 commitments c).run
        Residue.start).1 = .ok () := by
  have hrun : ((prove (Residue.table 8 2) Residue.key Residue.start [200, 17] [7, 9] 8).run
      Residue.source).1.toOption.any (fun (answer : RangeProof Residue Residue × List Residue) =>
        answer.1.isRegular 8 answer.2 Residue.start) = true := by
    decide +kernel
  obtain ⟨⟨proof, commitments⟩, h, hregular⟩ := any_toOption_iff.mp hrun
  obtain ⟨hchallenges, hpoints⟩ := isRegular_iff.mp hregular
  obtain ⟨hvalues, hL, -, hverify⟩ := prove_complete _ _ _ _ _ _ _ (by decide) h
  exact ⟨by decide, proof, commitments, h, hchallenges, hpoints, hvalues.trans (by decide +kernel),
    hL.trans (by decide +kernel), ((hverify hchallenges).1 hpoints).1⟩

end RangeProof
end ConfidentialTx
