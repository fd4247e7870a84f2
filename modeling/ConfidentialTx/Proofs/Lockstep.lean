import ConfidentialTx.Proofs.Binding
import ConfidentialTx.Proofs.Blame

/-! # Dealer and verifier in lockstep

A dealer draws its challenges as it takes in the messages, a verifier as it reads the proof.

* `Dealer.WithPolys.lockstep`: on a proof that a dealer has assembled, a verifier that starts from the
  dealer's first transcript ends on the dealer's last one, and draws the challenges of the dealer.
* `RangeProof.messages_bound_and_lockstep`: with the other half, on a transcript that records; every
  challenge is bound to all that was sent before it. -/

namespace ConfidentialTx

open Transcript

namespace Dealer.WithPolys
variable {F P T : Type} [Field F] [AddCommGroup P] [Module F P] [MultiScalar F P]
variable [Transcript T] [ScalarEncoding F] [PointEncoding P] [BEq P] [LawfulBEq P]
variable {dealer : WithPolys F P T} {gens : Generators P} {shares : List (ProofShare F)}

/-- A dealer assembles shares of the right number and lengths; a verifier that starts from the dealer's
first transcript draws the dealer's challenges and ends on the dealer's last transcript, unless a point
is zero. -/
theorem lockstep (h : dealer.IsReached gens) (key : CommitmentKey P)
    (hsize : dealer.n * dealer.m < 2 ^ 32) (hlen : shares.length = dealer.m)
    (hlengths : ∀ s ∈ shares, s.l.length = dealer.n ∧ s.r.length = dealer.n) :
    ∃ (proof : RangeProof F P) (final : T), dealer.assemble gens key shares = .ok (proof, final) ∧
      ((∀ p ∈ proof.points, p ≠ 0) → ∃ ch : Challenges F,
        (proof.prepare gens dealer.n (dealer.bits.map (·.V))).run dealer.initial = (.ok ch, final) ∧
        dealer.bitChallenge = ⟨ch.y, ch.z⟩ ∧ dealer.polyChallenge = ch.x ∧
        proof = dealer.proofUnder gens key shares ch) := by
  obtain ⟨ch, final, hassemble, hdraws, hbit, hpoly, hpow⟩ := exists_assemble_eq h key hlen hlengths
  have hus : ch.us.length < 32 := by
    rw [hpow] at hsize
    exact (Nat.pow_lt_pow_iff_right (by decide)).mp hsize
  have hshape : (dealer.proofUnder gens key shares ch).inner.HasShape (dealer.n * dealer.m) := by
    rw [hpow]
    exact InnerProductProof.hasShape_ofChallenges _ _ hus
  exact ⟨_, final, hassemble, fun hpoints =>
    ⟨ch, h.prepare_of_draws hshape hpoints hdraws, hbit, hpoly, rfl⟩⟩

end Dealer.WithPolys

namespace RangeProof
variable {F P : Type} [Field F] [AddCommGroup P] [Module F P] [MultiScalar F P]
variable [ScalarEncoding F] [PointEncoding P] [BEq P] [LawfulBEq P]
variable {answer : List Operation → Bytes}

/-- **Binding and lockstep.**  Transcripts record labelled messages and draws; points and scalars are
encoded without loss.  Two verifications from one transcript that get to their equations and draw a
challenge on one record have all in common that was sent before: for `y` the parameters, the value
commitments, `A` and `S`, for `x` also `T₁` and `T₂`, for `w` also the three sums, and for the challenge of
a round also all points of the rounds up to it.  A dealer takes in any messages of the right counts and
sizes and assembles a proof; unless a point of it is zero, the verification of the proof from the dealer's
first transcript makes the same record, operation by operation, and all challenges are the dealer's. -/
theorem messages_bound_and_lockstep (hP : Function.Injective (PointEncoding.encode : P → Bytes))
    (hF : Function.Injective (ScalarEncoding.encode : F → Bytes)) (start : History answer) :
    (∀ (gens gens' : Generators P) (proof proof' : RangeProof F P) (n n' : ℕ) (values values' : List P)
        (ch ch' : Challenges F) (final final' : History answer),
      (proof.prepare gens n values).run start = (.ok ch, final) →
      (proof'.prepare gens' n' values').run start = (.ok ch', final') →
      ∀ before : List Operation,
        (DrawsAt "y" 0 start final before → DrawsAt "y" 0 start final' before →
          AgreeOnY proof proof' n n' values values') ∧
        (DrawsAt "x" 0 start final before → DrawsAt "x" 0 start final' before →
          AgreeOnX proof proof' n n' values values') ∧
        (DrawsAt "w" 0 start final before → DrawsAt "w" 0 start final' before →
          AgreeOnW proof proof' n n' values values') ∧
        ∀ k, DrawsAt "u" k start final before → DrawsAt "u" k start final' before →
          AgreeOnU k proof proof' n n' values values') ∧
    ∀ (gens : Generators P) (key : CommitmentKey P) (n m : ℕ) (bits : List (BitCommitment P))
        (polys : List (PolyCommitment P)) (shares : List (ProofShare F))
        (created : Dealer (History answer)),
      Dealer.create gens start n m = .ok created → n * m < 2 ^ 32 → bits.length = m →
      polys.length = m → shares.length = m →
      (∀ s ∈ shares, s.l.length = n ∧ s.r.length = n) →
      ∃ (withBits : Dealer.WithBits F P (History answer))
          (dealer : Dealer.WithPolys F P (History answer)) (proof : RangeProof F P)
          (final : History answer),
        created.receiveBits bits = .ok withBits ∧ withBits.receivePolys polys = .ok dealer ∧
        dealer.assemble gens key shares = .ok (proof, final) ∧
        ((∀ p ∈ proof.points, p ≠ 0) → ∃ ch : Challenges F,
          (proof.prepare gens n (bits.map (·.V))).run start = (.ok ch, final) ∧
          (∀ source, (proof.verify gens key n (bits.map (·.V)) start source).2.1 = final) ∧
          withBits.bitChallenge = ⟨ch.y, ch.z⟩ ∧ dealer.polyChallenge = ch.x ∧
          proof = dealer.proofUnder gens key shares ch) := by
  constructor
  · intro gens gens' proof proof' n n' values values' ch ch' final final' h h' before
    exact ⟨agreeOnY_of_drawsAt hP h h', agreeOnX_of_drawsAt hP h h', agreeOnW_of_drawsAt hP hF h h',
      fun k => agreeOnU_of_drawsAt hP hF h h'⟩
  · intro gens key n m bits polys shares created hcreate hsize hbits hpolys hshares hlengths
    obtain ⟨hfit, hcreated⟩ := Dealer.create_eq_ok_iff.mp hcreate
    have hm : created.m = m := by rw [← hcreated]
    -- the two rounds take in lists of the right lengths
    obtain ⟨withBits, hreceive⟩ : ∃ withBits : Dealer.WithBits F P (History answer),
        created.receiveBits bits = .ok withBits :=
      ⟨_, Dealer.receiveBits_eq_ok_iff.mpr ⟨hm.trans hbits.symm, rfl⟩⟩
    have hm' : withBits.m = m := by
      rw [← (Dealer.receiveBits_eq_ok_iff.mp hreceive).2, hm]
    obtain ⟨dealer, hanswer⟩ : ∃ dealer : Dealer.WithPolys F P (History answer),
        withBits.receivePolys polys = .ok dealer :=
      ⟨_, Dealer.WithBits.receivePolys_eq_ok_iff.mpr ⟨hm'.trans hpolys.symm, rfl⟩⟩
    obtain ⟨h, rfl, rfl, rfl, rfl, rfl, hch⟩ := Dealer.isReached hcreate hreceive hanswer
    obtain ⟨proof, final, hassemble, hverify⟩ := Dealer.WithPolys.lockstep h key hsize hshares hlengths
    refine ⟨withBits, dealer, proof, final, hreceive, hanswer, hassemble, fun hpoints => ?_⟩
    obtain ⟨ch, hprepare, hbit, hpoly, hproof⟩ := hverify hpoints
    exact ⟨ch, hprepare, verify_transcript hprepare key, hch ▸ hbit, hpoly, hproof⟩

/-- The same proof with another point in its last round. -/
def withLastPoint (proof : RangeProof F P) (p : P) : RangeProof F P :=
  { proof with inner.L := proof.inner.L.dropLast ++ [p] }

/-- A verification of the proof that `Dealer.WithPolys.rogueDealer` assembles, and one of the proof with
another point in its last round, draw the challenge before the last on one record. -/
theorem rogue_messages_bound :
    Function.Injective (PointEncoding.encode : Residue → Bytes) ∧
    Function.Injective (ScalarEncoding.encode : Residue → Bytes) ∧
    ∃ (dealer : Dealer.WithPolys Residue Residue Residue.Transcript)
        (proof : RangeProof Residue Residue) (final final' : Residue.Transcript)
        (ch ch' : Challenges Residue) (before : List Operation),
      Dealer.WithPolys.rogueDealer = .ok dealer ∧
      proof = dealer.proofUnder (Residue.table 8 2) Residue.key Dealer.WithPolys.rogueShares ch ∧
      (proof.withLastPoint 1).inner.L ≠ proof.inner.L ∧
      (proof.prepare (Residue.table 8 2) 8 (Dealer.WithPolys.rogueBits.map (·.V))).run Residue.start =
        (.ok ch, final) ∧
      ((proof.withLastPoint 1).prepare (Residue.table 8 2) 8
        (Dealer.WithPolys.rogueBits.map (·.V))).run Residue.start = (.ok ch', final') ∧
      DrawsAt "u" 2 Residue.start final before ∧ DrawsAt "u" 2 Residue.start final' before ∧
      AgreeOnU 2 proof (proof.withLastPoint 1) 8 8 (Dealer.WithPolys.rogueBits.map (·.V))
        (Dealer.WithPolys.rogueBits.map (·.V)) := by
  have hP : Function.Injective (PointEncoding.encode : Residue → Bytes) := encode_point_injective
  have hF : Function.Injective (ScalarEncoding.encode : Residue → Bytes) := hP
  obtain ⟨hbound, hlockstep⟩ := messages_bound_and_lockstep hP hF Residue.start
  have hrun : Dealer.WithPolys.rogueDealer.toOption.any (fun dealer =>
      (dealer.assemble (Residue.table 8 2) Residue.key Dealer.WithPolys.rogueShares).toOption.any
        fun (answer : RangeProof Residue Residue × Residue.Transcript) =>
          answer.1.points.all (· != 0) &&
          (((answer.1.withLastPoint 1).prepare (F := Residue) (Residue.table 8 2) 8
            (Dealer.WithPolys.rogueBits.map (·.V))).run Residue.start).1.toOption.isSome &&
          answer.1.rounds.length == 4 && (answer.1.withLastPoint 1).rounds.length == 4 &&
          (answer.1.withLastPoint 1).inner.L != answer.1.inner.L &&
          answer.1.rounds.take 3 == (answer.1.withLastPoint 1).rounds.take 3) = true := by
    decide +kernel
  obtain ⟨dealer, hdealer, hrun⟩ := any_toOption_iff.mp hrun
  obtain ⟨⟨proof, final⟩, hassemble, hrun⟩ := any_toOption_iff.mp hrun
  simp only [Bool.and_eq_true, List.all_eq_true, bne_iff_ne, beq_iff_eq] at hrun
  obtain ⟨⟨⟨⟨⟨hpoints, hok⟩, hlength⟩, hlength'⟩, hother_ne⟩, htake⟩ := hrun
  -- the three steps of the dealer
  obtain ⟨created, hcreate, hdealer'⟩ := bind_eq_ok.mp hdealer
  obtain ⟨withBits, hbits, hpolys⟩ := bind_eq_ok.mp hdealer'
  obtain ⟨withBits', dealer', proof', t, hbits', hpolys', hassemble', hverify⟩ :=
    hlockstep (Residue.table 8 2) Residue.key 8 2 Dealer.WithPolys.rogueBits Dealer.WithPolys.roguePolys
      Dealer.WithPolys.rogueShares created hcreate (by decide) rfl rfl rfl (by decide)
  obtain rfl := Except.ok.inj (hbits.symm.trans hbits')
  obtain rfl := Except.ok.inj (hpolys.symm.trans hpolys')
  obtain ⟨rfl, rfl⟩ := Prod.mk.inj (Except.ok.inj (hassemble.symm.trans hassemble'))
  obtain ⟨ch, hprepare, -, -, -, hproof⟩ := hverify hpoints
  rcases hother : ((proof.withLastPoint 1).prepare (F := Residue) (Residue.table 8 2) 8
    (Dealer.WithPolys.rogueBits.map (·.V))).run Residue.start with ⟨_ | ch', final'⟩
  · rw [hother] at hok
    cases hok
  -- the two records up to the third round
  have hk : 2 < proof.rounds.length := by omega
  have hk' : 2 < (proof.withLastPoint 1).rounds.length := by omega
  obtain ⟨since, hsince⟩ := proof.upToRound_succ 8 (Dealer.WithPolys.rogueBits.map (·.V)) hk
  have hsame : (proof.withLastPoint 1).upToRound 8 (Dealer.WithPolys.rogueBits.map (·.V)) 3 =
      proof.upToRound 8 (Dealer.WithPolys.rogueBits.map (·.V)) 3 := by
    rw [upToRound, upToRound, htake]
    rfl
  have hdraw : DrawsAt "u" 2 Residue.start final (Residue.start.log ++ since) := by
    rw [drawsAt_u_iff hprepare hk, hsince, List.append_assoc]
  have hdraw' : DrawsAt "u" 2 Residue.start final' (Residue.start.log ++ since) := by
    rw [drawsAt_u_iff hother hk', hsame, hsince, List.append_assoc]
  obtain ⟨-, -, -, hrounds⟩ := hbound _ _ _ _ _ _ _ _ _ _ _ _ hprepare hother
    (Residue.start.log ++ since)
  exact ⟨hP, hF, dealer, proof, final, final', ch, ch', _, hdealer, hproof, hother_ne, hprepare, hother,
    hdraw, hdraw', hrounds 2 hdraw hdraw'⟩

end RangeProof
end ConfidentialTx
