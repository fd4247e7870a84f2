import ConfidentialTx.Proofs.Completeness

/-! # Refusals of the prover

Many steps of a proof can be refused: by the prover itself, by the dealer before and between the
rounds, by every party and by the inner-product argument.  Between a dealer and the parties of one prover
most of them never are, and what is left is `RangeProof.Refused`: unequal counts, parameters that no
proof can have, a value that is too large, or a challenge `x` that is zero, looked for in this order.

* `Party.create_of_fits`, `RangeProof.participants_of_fits`: under parameters that fit only a value is
  refused, and it is the first one that is too large.
* `RangeProof.firstRounds`: the first two rounds of the prover, with the challenge `x` that they draw.
* `RangeProof.exchange_of_zero`, `RangeProof.exists_exchange`: the three rounds are refused for the
  challenge `x` alone.
* `RangeProof.verify_eq_error_iff`: the verifier refuses parameters for the same reasons.
* `RangeProof.prove_refused_iff`: so the refusals of the prover are exactly these. -/

namespace ConfidentialTx

open Transcript

/-! ### Parameters and parties -/

/-- The errors for parameters that no proof can have. -/
def parameterErrors {P : Type} (gens : Generators P) (n m : ℕ) : List RangeProofError :=
  [.invalidBitsize n, .emptyAggregation, .invalidAggregation m,
    .invalidGeneratorsLength n gens.capacity, .invalidGeneratorsLength m gens.parties]

theorem mem_parameterErrors {P : Type} {gens : Generators P} {n m : ℕ} {e : RangeProofError}
    (h : checkParameters gens n m = .error e) : e ∈ parameterErrors gens n m := by
  rw [checkParameters, unless_throw_eq_error, if_throw_eq_error, unless_throw_eq_error,
    if_throw_eq_error] at h
  obtain ⟨-, rfl⟩ | ⟨-, ⟨-, rfl⟩ | ⟨-, ⟨-, rfl⟩ | ⟨-, ⟨-, rfl⟩ | ⟨-, h⟩⟩⟩⟩ := h
  iterate 4 · simp [parameterErrors]
  split at h
  · obtain rfl := Except.error.inj h
    simp [parameterErrors]
  · cases h

theorem Party.create_of_fits {F P : Type} [Field F] [MultiScalar F P] {gens : Generators P} {n m : ℕ}
    (hfit : ParametersFit gens n m) (key : CommitmentKey P) (value : UInt64) (blinding : F) :
    create gens key value blinding n = if 2 ^ n ≤ value.toNat then .error (.outOfRange value n)
      else .ok ⟨value, blinding, n, key.commit (value.toNat : F) blinding⟩ := by
  have hbits : (n == 8 || n == 16 || n == 32 || n == 64) = true := by
    simpa [or_assoc] using hfit.bits
  rw [create, if_pos hbits, if_neg (not_lt.mpr hfit.capacity), Nat.one_shiftLeft]
  split <;> rfl

namespace RangeProof
variable {F P T : Type} [Field F] [MultiScalar F P] [Transcript T]
variable {gens : Generators P} {key : CommitmentKey P} {start : T} {values : List UInt64}
variable {blindings : List F} {n : ℕ} {dealer : Dealer T} {parties : List (Party F P)}
variable {drawn : List (PartyBlindings F)} {proof : RangeProof F P} {commitments : List P}

/-! ### Reasons to refuse -/

/-- The first value that is too large for `n` bits. -/
def firstTooLarge (values : List UInt64) (n : ℕ) : Option UInt64 :=
  values.find? fun v => 2 ^ n ≤ v.toNat

theorem firstTooLarge_eq_none_iff : firstTooLarge values n = none ↔ ∀ v ∈ values, v.toNat < 2 ^ n := by
  simp [firstTooLarge, List.find?_eq_none]

/-- The errors of a prover with the challenge `x`, each with its reason.  A reason counts if none of
those before it is there. -/
inductive Refused (gens : Generators P) (values : List UInt64) (blindings : List F) (n : ℕ) (x : F) :
    RangeProofError → Prop
  /-- Values and blinding factors differ in number. -/
  | counts (hlen : values.length ≠ blindings.length) :
    Refused gens values blindings n x (.wrongNumBlindingFactors values.length blindings.length)
  /-- No proof can have the parameters. -/
  | parameters {e : RangeProofError} (hlen : values.length = blindings.length)
    (he : checkParameters gens n values.length = .error e) : Refused gens values blindings n x e
  /-- A value is too large, the first such value. -/
  | range {v : UInt64} (hlen : values.length = blindings.length)
    (hfit : ParametersFit gens n values.length) (hv : firstTooLarge values n = some v) :
    Refused gens values blindings n x (.outOfRange v n)
  /-- The challenge is zero. -/
  | challenge (hlen : values.length = blindings.length) (hfit : ParametersFit gens n values.length)
    (hvalues : ∀ v ∈ values, v.toNat < 2 ^ n) (hx : x = 0) :
    Refused gens values blindings n x .maliciousDealer

omit [MultiScalar F P] in
/-- Either there is a reason to refuse or everything fits. -/
theorem refused_or_fits (gens : Generators P) (values : List UInt64) (blindings : List F) (n : ℕ)
    (x : F) :
    (∃ e, Refused gens values blindings n x e) ∨
      values.length = blindings.length ∧ ParametersFit gens n values.length ∧
        (∀ v ∈ values, v.toNat < 2 ^ n) ∧ x ≠ 0 := by
  by_cases hlen : values.length = blindings.length
  swap
  · exact .inl ⟨_, .counts hlen⟩
  rcases hparams : checkParameters gens n values.length with e | ⟨⟩
  · exact .inl ⟨e, .parameters hlen hparams⟩
  have hfit := checkParameters_eq_ok_iff.mp hparams
  rcases hfirst : firstTooLarge values n with _ | v
  swap
  · exact .inl ⟨_, .range hlen hfit hfirst⟩
  have hvalues := firstTooLarge_eq_none_iff.mp hfirst
  by_cases hx : x = 0
  · exact .inl ⟨_, .challenge hlen hfit hvalues hx⟩
  · exact .inr ⟨hlen, hfit, hvalues, hx⟩

/-! ### Participants -/

/-- The parties for values that are all small enough. -/
def partiesFor (key : CommitmentKey P) (values : List UInt64) (blindings : List F) (n : ℕ) :
    List (Party F P) :=
  (values.zip blindings).map fun (v, r) => ⟨v, r, n, key.commit (v.toNat : F) r⟩

theorem length_partiesFor (hlen : values.length = blindings.length) :
    (partiesFor key values blindings n).length = values.length := by
  rw [partiesFor, List.length_map, List.length_zip, ← hlen, Nat.min_self]

theorem forall_mem_partiesFor : ∀ party ∈ partiesFor key values blindings n, party.n = n := by
  intro party hparty
  obtain ⟨_, -, rfl⟩ := List.mem_map.mp hparty
  rfl

theorem participants_of_counts (h : values.length ≠ blindings.length) :
    participants gens key start values blindings n =
      .error (.wrongNumBlindingFactors values.length blindings.length) := by
  rw [participants, if_pos h]
  rfl

theorem participants_of_parameters (hlen : values.length = blindings.length) {e : RangeProofError}
    (h : checkParameters gens n values.length = .error e) :
    participants gens key start values blindings n = .error e := by
  rw [participants, if_neg (not_not.mpr hlen), Dealer.create, h]
  rfl

theorem exists_dealer {m : ℕ} (hfit : ParametersFit gens n m) (start : T) :
    ∃ dealer, Dealer.create gens start n m = .ok dealer :=
  ⟨_, Dealer.create_eq_ok_iff.mpr ⟨hfit, rfl⟩⟩

theorem participants_of_fits (key : CommitmentKey P) (hlen : values.length = blindings.length)
    (hcreate : Dealer.create gens start n values.length = .ok dealer) :
    participants gens key start values blindings n =
      (firstTooLarge values n).elim (.ok (dealer, partiesFor key values blindings n))
        fun v => .error (.outOfRange v n) := by
  obtain ⟨hfit, -⟩ := Dealer.create_eq_ok_iff.mp hcreate
  have hparties : (values.zip blindings).mapM (fun vr => Party.create gens key vr.1 vr.2 n) =
      ((values.zip blindings).find? fun vr => 2 ^ n ≤ vr.1.toNat).elim
        (.ok (partiesFor key values blindings n)) fun vr => .error (.outOfRange vr.1 n) :=
    mapM_eq_find? fun vr _ => by simp [Party.create_of_fits hfit]
  -- the first pair with a value that is too large holds the first such value
  have hfirst : ((values.zip blindings).find? fun vr => 2 ^ n ≤ vr.1.toNat).map (·.1) =
      firstTooLarge values n :=
    calc _ = ((values.zip blindings).map (·.1)).find? fun v => 2 ^ n ≤ v.toNat :=
          List.find?_map.symm
      _ = firstTooLarge values n := by rw [List.map_fst_zip hlen.le, firstTooLarge]
  rw [participants, if_neg (not_not.mpr hlen), hcreate, ← hfirst]
  change (List.mapM (fun vr : UInt64 × F => Party.create gens key vr.1 vr.2 n) _ >>= _) = _
  rw [hparties]
  cases (values.zip blindings).find? fun vr => 2 ^ n ≤ vr.1.toNat <;> rfl

/-! ### The rounds -/

variable [ScalarEncoding F] [PointEncoding P] [AddCommGroup P]

/-- The first two rounds of the prover, with the challenge `x` that they draw. -/
def firstRounds (gens : Generators P) (key : CommitmentKey P) (parties : List (Party F P))
    (drawn : List (PartyBlindings F)) (n : ℕ) : StateM T F := do
  absorbRange n parties.length
  let ch ← Dealer.bitRound ((bitMessages gens key parties drawn).map (·.2))
  Dealer.polyRound ((polyMessages gens key parties drawn ch).map (·.2))

theorem exists_rounds (key : CommitmentKey P)
    (hcreate : Dealer.create gens start n parties.length = .ok dealer)
    (hdrawn : drawn.length = parties.length) :
    ∃ (withBits : Dealer.WithBits F P T) (withPolys : Dealer.WithPolys F P T),
      dealer.receiveBits ((bitMessages gens key parties drawn).map (·.2)) = .ok withBits ∧
      withBits.receivePolys ((polyMessages gens key parties drawn withBits.bitChallenge).map (·.2)) =
        .ok withPolys ∧
      withPolys.polyChallenge = ((firstRounds gens key parties drawn n).run start).1 := by
  obtain ⟨-, rfl⟩ := Dealer.create_eq_ok_iff.mp hcreate
  refine ⟨_, _, Dealer.receiveBits_eq_ok_iff.mpr ⟨?_, rfl⟩,
    Dealer.WithBits.receivePolys_eq_ok_iff.mpr ⟨?_, rfl⟩, rfl⟩
  · rw [List.length_map, length_bitMessages hdrawn]
  · rw [List.length_map, length_polyMessages hdrawn]

variable [Module F P] [BEq F]

/-- The rounds, with the messages of all parties at once. -/
theorem exchange_eq (gens : Generators P) (key : CommitmentKey P) (dealer : Dealer T)
    (parties : List (Party F P)) (drawn : List (PartyBlindings F)) :
    exchange gens key dealer parties drawn = (do
      (List.range parties.length).forM (Party.checkPosition gens)
      let withBits : Dealer.WithBits F P T ←
        dealer.receiveBits ((bitMessages gens key parties drawn).map (·.2))
      let messages := polyMessages gens key parties drawn withBits.bitChallenge
      let withPolys ← withBits.receivePolys (messages.map (·.2))
      let shares ← messages.mapM fun message => message.1.share withPolys.polyChallenge
      let proof ← withPolys.receiveTrustedShares gens key shares
      pure (proof, ((bitMessages gens key parties drawn).map (·.2)).map (·.V))) := rfl

theorem exchange_of_rounds {withBits : Dealer.WithBits F P T} {withPolys : Dealer.WithPolys F P T}
    (hpositions : parties.length ≤ gens.parties)
    (hbits : dealer.receiveBits ((bitMessages gens key parties drawn).map (·.2)) = .ok withBits)
    (hpolys : withBits.receivePolys
      ((polyMessages gens key parties drawn withBits.bitChallenge).map (·.2)) = .ok withPolys) :
    exchange gens key dealer parties drawn = (do
      let shares ← (polyMessages gens key parties drawn withBits.bitChallenge).mapM fun message =>
        message.1.share withPolys.polyChallenge
      let proof ← withPolys.receiveTrustedShares gens key shares
      pure (proof, ((bitMessages gens key parties drawn).map (·.2)).map (·.V))) := by
  have hchecks : (List.range parties.length).forM (Party.checkPosition gens) = .ok () :=
    forM_eq_ok fun j hj =>
      Party.checkPosition_eq_ok_iff.mpr ((List.mem_range.mp hj).trans_le hpositions)
  rw [exchange_eq, bind_of_ok hchecks, bind_of_ok hbits, bind_of_ok hpolys]

variable [LawfulBEq F]

theorem exchange_of_zero (hcreate : Dealer.create gens start n parties.length = .ok dealer)
    (hdrawn : drawn.length = parties.length)
    (hx : ((firstRounds gens key parties drawn n).run start).1 = 0) :
    exchange gens key dealer parties drawn = .error .maliciousDealer := by
  obtain ⟨hfit, -⟩ := Dealer.create_eq_ok_iff.mp hcreate
  obtain ⟨withBits, withPolys, hbits, hpolys, hch⟩ := exists_rounds key hcreate hdrawn
  have hmessages : (polyMessages gens key parties drawn withBits.bitChallenge).length ≠ 0 := by
    rw [length_polyMessages hdrawn]
    exact hfit.parties_ne
  obtain ⟨message, messages, hcons⟩ :=
    List.exists_cons_of_length_pos (Nat.pos_of_ne_zero hmessages)
  have hshare : message.1.share withPolys.polyChallenge = .error .maliciousDealer := by
    rw [Party.Answering.share, hch, hx, if_pos (beq_self_eq_true 0)]
  rw [exchange_of_rounds hfit.parties hbits hpolys, hcons, List.mapM_cons, hshare]
  rfl

variable [LawfulMultiScalar F P]

/-- Under a challenge other than zero the exchange ends with a proof, and it is the challenge that the
verifier draws on it. -/
theorem exists_exchange (hcreate : Dealer.create gens start n parties.length = .ok dealer)
    (hdrawn : drawn.length = parties.length)
    (hlengths : ∀ b ∈ drawn, b.bits.sL.length = n ∧ b.bits.sR.length = n)
    (hparties : ∀ party ∈ parties, party.n = n)
    (hx : ((firstRounds gens key parties drawn n).run start).1 ≠ 0) :
    ∃ proof commitments, exchange gens key dealer parties drawn = .ok (proof, commitments) ∧
      ((proof.draws n commitments).run start).1.x =
        ((firstRounds gens key parties drawn n).run start).1 := by
  obtain ⟨withBits, withPolys, hbits, hpolys, hch⟩ := exists_rounds key hcreate hdrawn
  obtain ⟨hreached, rfl, rfl, hm, hbits_eq, -, -⟩ := Dealer.isReached hcreate hbits hpolys
  rw [← hch] at hx ⊢
  -- every party answers
  obtain ⟨shares, hmapM⟩ : ∃ shares, (polyMessages gens key parties drawn withBits.bitChallenge).mapM
      (fun message => message.1.share withPolys.polyChallenge) = .ok shares :=
    exists_mapM_eq_ok fun _ _ => ⟨_, Party.Answering.share_eq_ok_iff.mpr ⟨hx, rfl⟩⟩
  have hshares := mapM_eq_ok.mp hmapM
  have hlen : shares.length = withPolys.m := by
    rw [← hshares.length_eq, length_polyMessages hdrawn, hm]
  -- with a share of the right size
  have hsizes : ∀ s ∈ shares, s.l.length = withPolys.n ∧ s.r.length = withPolys.n := by
    intro s hs
    obtain ⟨j, hj⟩ := List.getElem?_of_mem hs
    obtain ⟨message, hmessage, hshare⟩ := exists_of_forall₂ hshares hj
    obtain ⟨party, b, hparty, hb, rfl⟩ := polyMessages_getElem? hmessage
    have hn := hparties party (List.mem_of_getElem? hparty)
    obtain ⟨hL, hR⟩ := hlengths b (List.mem_of_getElem? hb)
    rw [← hn] at hL hR ⊢
    exact Party.length_share hL hR hshare
  -- so they are assembled
  obtain ⟨inner, ch, t, hassemble, hassembled⟩ :=
    Dealer.WithPolys.exists_assembled hreached key hlen hsizes
  have hproof : withPolys.receiveTrustedShares gens key shares = .ok (withPolys.proofWith shares inner) :=
    map_eq_ok.mpr ⟨_, hassemble, rfl⟩
  refine ⟨withPolys.proofWith shares inner, withPolys.bits.map (·.V), ?_, ?_⟩
  · rw [exchange_of_rounds (hm ▸ hreached.fit.parties) hbits hpolys, bind_of_ok hmapM, bind_of_ok hproof,
      ← hbits_eq]
    rfl
  · rw [hassembled.run_draws, hassembled.polyChallenge]

/-! ### The prover -/

/-- The challenge `x` that the prover draws for values that are all small enough. -/
def proverChallenge (gens : Generators P) (key : CommitmentKey P) (start : T) (values : List UInt64)
    (blindings : List F) (n : ℕ) (source : RandomSource) : F :=
  let drawn := ((RandomSource.times (PartyBlindings.drawSeeded n) values.length).run source).1
  ((firstRounds gens key (partiesFor key values blindings n) drawn n).run start).1

omit [LawfulBEq F] [LawfulMultiScalar F P] in
theorem run_prove_of_error {e : RangeProofError} (source : RandomSource)
    (h : participants gens key start values blindings n = .error e) :
    (prove gens key start values blindings n).run source = (.error e, source) :=
  run_check_bind_of_error h

omit [LawfulBEq F] [LawfulMultiScalar F P] in
theorem fst_run_prove_of_ok (source : RandomSource)
    (h : participants gens key start values blindings n = .ok (dealer, parties)) :
    ((prove gens key start values blindings n).run source).1 = exchange gens key dealer parties
      ((RandomSource.times (PartyBlindings.drawSeeded n) parties.length).run source).1 := by
  rw [fst_run_prove, h]
  rfl

/-- What a prover with values that all fit ends with is decided by its challenge. -/
theorem prove_of_fits (source : RandomSource) (hlen : values.length = blindings.length)
    (hfit : ParametersFit gens n values.length) (hvalues : ∀ v ∈ values, v.toNat < 2 ^ n) :
    (proverChallenge gens key start values blindings n source = 0 →
      ((prove gens key start values blindings n).run source).1 = .error .maliciousDealer) ∧
    (proverChallenge gens key start values blindings n source ≠ 0 →
      ∃ proof commitments,
        ((prove gens key start values blindings n).run source).1 = .ok (proof, commitments) ∧
        ((proof.draws n commitments).run start).1.x =
          proverChallenge gens key start values blindings n source) := by
  obtain ⟨dealer, hcreate⟩ := exists_dealer hfit start
  have hparticipants : participants gens key start values blindings n =
      .ok (dealer, partiesFor key values blindings n) := by
    rw [participants_of_fits key hlen hcreate, firstTooLarge_eq_none_iff.mpr hvalues]
    rfl
  have hlength : (partiesFor key values blindings n).length = values.length :=
    length_partiesFor hlen
  have hrun := fst_run_prove_of_ok source hparticipants
  rw [← hlength] at hcreate
  have hdrawn := RandomSource.length_times (PartyBlindings.drawSeeded (F := F) n)
    (partiesFor key values blindings n).length source
  have hlengths : ∀ b ∈ ((RandomSource.times (PartyBlindings.drawSeeded (F := F) n)
      (partiesFor key values blindings n).length).run source).1,
      b.bits.sL.length = n ∧ b.bits.sR.length = n :=
    RandomSource.forall_mem_times (PartyBlindings.length_drawSeeded n) _ _
  unfold proverChallenge
  rw [← hlength]
  refine ⟨fun hx => hrun.trans (exchange_of_zero hcreate hdrawn hx), fun hx => ?_⟩
  obtain ⟨proof, commitments, hok, hch⟩ :=
    exists_exchange hcreate hdrawn hlengths forall_mem_partiesFor hx
  exact ⟨proof, commitments, hrun.trans hok, hch⟩

theorem prove_of_refused {source : RandomSource} {e : RangeProofError}
    (h : Refused gens values blindings n (proverChallenge gens key start values blindings n source) e) :
    ((prove gens key start values blindings n).run source).1 = .error e := by
  cases h with
  | counts hlen =>
    rw [run_prove_of_error source (participants_of_counts hlen)]
  | parameters hlen he =>
    rw [run_prove_of_error source (participants_of_parameters hlen he)]
  | range hlen hfit hv =>
    obtain ⟨dealer, hcreate⟩ := exists_dealer hfit start
    have hparticipants := participants_of_fits key hlen hcreate
    rw [hv] at hparticipants
    rw [run_prove_of_error source hparticipants]
  | challenge hlen hfit hvalues hx =>
    exact (prove_of_fits source hlen hfit hvalues).1 hx

theorem exists_prove_iff {source : RandomSource} :
    (∃ proof commitments,
        ((prove gens key start values blindings n).run source).1 = .ok (proof, commitments)) ↔
      values.length = blindings.length ∧ ParametersFit gens n values.length ∧
        (∀ v ∈ values, v.toNat < 2 ^ n) ∧
        proverChallenge gens key start values blindings n source ≠ 0 := by
  constructor
  · rintro ⟨proof, commitments, hok⟩
    refine (refused_or_fits gens values blindings n _).resolve_left ?_
    rintro ⟨e, he⟩
    rw [prove_of_refused he] at hok
    cases hok
  · rintro ⟨hlen, hfit, hvalues, hx⟩
    obtain ⟨proof, commitments, hok, -⟩ := (prove_of_fits source hlen hfit hvalues).2 hx
    exact ⟨proof, commitments, hok⟩

/-! ### The verifier -/

variable [BEq P]

omit [Module F P] [BEq F] [LawfulBEq F] [LawfulMultiScalar F P] in
theorem verify_of_parameters {e : RangeProofError}
    (h : checkParameters gens n commitments.length = .error e) (proof : RangeProof F P)
    (key : CommitmentKey P) (t : T) (source : RandomSource) :
    proof.verify gens key n commitments t source = (.error e, t, source) := by
  have hprepare : (proof.prepare gens n commitments).run t = (.error e, t) :=
    run_check_bind_of_error h
  rw [verify, hprepare]

variable [LawfulBEq P]

omit [Module F P] [BEq F] [LawfulBEq F] [LawfulMultiScalar F P] in
/-- Every error of the verifier but one is an error of the parameters. -/
theorem verify_eq_error_iff {e : RangeProofError} (he : e ≠ .verificationError)
    (proof : RangeProof F P) (commitments : List P) (t : T) (source : RandomSource) :
    (proof.verify gens key n commitments t source).1 = .error e ↔
      checkParameters gens n commitments.length = .error e := by
  rcases hparams : checkParameters gens n commitments.length with e' | ⟨⟩
  · rw [verify_of_parameters hparams]
  · refine iff_of_false (fun h => he ?_) nofun
    rw [verify_fst] at h
    rcases hprepare : (proof.prepare gens n commitments).run t with ⟨e' | ch, t'⟩
    · rw [verifyWith_of_refused hprepare] at h
      obtain rfl := Except.error.inj h
      exact eq_of_prepare_eq_error hparams (congrArg Prod.fst hprepare)
    · rw [verifyWith_of_prepared hprepare] at h
      dsimp only at h
      split at h
      · cases h
      · exact (Except.error.inj h).symm

/-! ### The reasons of the prover -/

/-- **Refusals.**  The prover is refused for the reasons of `Refused` and no other, and ends with a proof
where there is none of them; its challenge is then the one that the verifier draws.  The parameters are
those that the verifier refuses, with the same error, before it takes in or draws anything. -/
theorem prove_refused_iff (gens : Generators P) (key : CommitmentKey P) (start : T)
    (values : List UInt64) (blindings : List F) (n : ℕ) (source : RandomSource) :
    (∀ e, ((prove gens key start values blindings n).run source).1 = .error e ↔
      Refused gens values blindings n (proverChallenge gens key start values blindings n source) e) ∧
    ((∃ proof commitments,
        ((prove gens key start values blindings n).run source).1 = .ok (proof, commitments)) ↔
      values.length = blindings.length ∧ ParametersFit gens n values.length ∧
        (∀ v ∈ values, v.toNat < 2 ^ n) ∧
        proverChallenge gens key start values blindings n source ≠ 0) ∧
    (∀ proof commitments,
      ((prove gens key start values blindings n).run source).1 = .ok (proof, commitments) →
        ((proof.draws n commitments).run start).1.x =
          proverChallenge gens key start values blindings n source) ∧
    (∀ e, checkParameters gens n values.length = .error e →
      e ∈ parameterErrors gens n values.length ∧
      ∀ (proof : RangeProof F P) (commitments : List P) (t : T) (source' : RandomSource),
        commitments.length = values.length →
          proof.verify gens key n commitments t source' = (.error e, t, source')) ∧
    ∀ (proof : RangeProof F P) (commitments : List P) (t : T) (source' : RandomSource),
      commitments.length = values.length → ∀ e ∈ parameterErrors gens n values.length,
        (proof.verify gens key n commitments t source').1 = .error e →
          checkParameters gens n values.length = .error e := by
  refine ⟨fun e => ⟨fun herror => ?_, prove_of_refused⟩, exists_prove_iff, ?_, ?_, ?_⟩
  · rcases refused_or_fits gens values blindings n
      (proverChallenge gens key start values blindings n source) with ⟨e', he'⟩ | hfits
    · rw [prove_of_refused he'] at herror
      obtain rfl := Except.error.inj herror
      exact he'
    · obtain ⟨proof, commitments, hok⟩ := exists_prove_iff.mpr hfits
      rw [hok] at herror
      cases herror
  · intro proof commitments hok
    obtain ⟨hlen, hfit, hvalues, hx⟩ := exists_prove_iff.mp ⟨proof, commitments, hok⟩
    obtain ⟨proof', commitments', hok', hdrawn⟩ := (prove_of_fits source hlen hfit hvalues).2 hx
    obtain ⟨rfl, rfl⟩ := Prod.mk.inj (Except.ok.inj (hok.symm.trans hok'))
    exact hdrawn
  · intro e he
    refine ⟨mem_parameterErrors he, fun proof commitments t source' hlen => ?_⟩
    rw [← hlen] at he
    exact verify_of_parameters he proof key t source'
  · intro proof commitments t source' hlen e hmem herror
    rw [← hlen]
    refine (verify_eq_error_iff ?_ proof commitments t source').mp herror
    rintro rfl
    simp [parameterErrors] at hmem

/-- Two residues below `2⁸` are proved; a larger one is refused, and before that a third one. -/
theorem prove_refused_iff_residues :
    (∃ (proof : RangeProof Residue Residue) (commitments : List Residue),
      ((prove (Residue.table 8 2) Residue.key Residue.start [200, 17] [7, 9] 8).run Residue.source).1 =
        .ok (proof, commitments)) ∧
    ((prove (Residue.table 8 2) Residue.key Residue.start [200, 300] [(7 : Residue), 9] 8).run
      Residue.source).1 = .error (.outOfRange 300 8) ∧
    ((prove (Residue.table 8 2) Residue.key Residue.start [200, 300, 1] [(7 : Residue), 9, 1] 8).run
      Residue.source).1 = .error (.invalidAggregation 3) := by
  have hfit : ParametersFit (Residue.table 8 2) 8 2 :=
    checkParameters_eq_ok_iff.mp (by decide +kernel)
  have hvalues : ∀ v ∈ ([200, 17] : List UInt64), v.toNat < 2 ^ 8 := by simp
  refine ⟨?_, ?_, ?_⟩
  · exact (prove_refused_iff _ _ _ _ _ _ _).2.1.mpr ⟨rfl, hfit, hvalues, by decide +kernel⟩
  · exact ((prove_refused_iff _ _ _ _ _ _ _).1 _).mpr (.range rfl hfit (by decide +kernel))
  · exact ((prove_refused_iff _ _ _ _ _ _ _).1 _).mpr (.parameters rfl (by decide +kernel))

end RangeProof
end ConfidentialTx
