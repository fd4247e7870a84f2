import ConfidentialTx.Proofs.Laws
import ConfidentialTx.Proofs.Runs
import ConfidentialTx.Range.Proof

/-! # Replayed transcripts

A verifier replays the transcript of a proof and stops where a point is zero.  The same operations
without the refusals are `InnerProductProof.draws` and `RangeProof.draws`: they give the challenges
that a transcript draws on the messages of a proof, whether or not the proof is acceptable.

* `Checks x m c`: the run `x` is the run `m` if `c` holds, and a verification error if not; kept by
  the ways in which runs are put together.
* `RangeProof.checks_replay`: the verifier's replay is `RangeProof.draws`, checked for the shape of
  the proof and for points that are zero.
* `RangeProof.prepare_eq_ok_iff`, `RangeProof.prepare_refused`: when a verifier gets to its equation,
  and what it answers if it does not. -/

namespace ConfidentialTx

open Transcript

/-! ### Checked runs -/

/-- The run `x` answers as `m` does if `c` holds, and with a verification error if it does not. -/
def Checks {T α : Type} (x : ExceptT RangeProofError (StateM T) α) (m : StateM T α) (c : Prop) :
    Prop :=
  ∀ t, (c → x.run t = (.ok (m.run t).1, (m.run t).2)) ∧
    (¬c → (x.run t).1 = .error .verificationError)

namespace Checks
variable {T α β : Type} {x : ExceptT RangeProofError (StateM T) α} {m : StateM T α} {c : Prop}

theorem congr (h : Checks x m c) {c' : Prop} (hc : c ↔ c') : Checks x m c' := by
  rwa [← propext hc]

theorem congr_run (h : Checks x m c) {m' : StateM T α} (hm : ∀ t, m'.run t = m.run t) :
    Checks x m' c := by
  intro t
  rw [hm]
  exact h t

theorem lift (m : StateM T α) : Checks (liftM m) m True :=
  fun _ => ⟨fun _ => rfl, fun h => absurd trivial h⟩

theorem pure (a : α) : Checks (T := T) (Pure.pure a) (Pure.pure a) True :=
  fun _ => ⟨fun _ => rfl, fun h => absurd trivial h⟩

/-- The check of a sequence is the check of both parts, if that of the second does not depend on
what the first one answers. -/
theorem bind (h : Checks x m c) {f : α → ExceptT RangeProofError (StateM T) β} {g : α → StateM T β}
    {c' : Prop} (hf : ∀ a, Checks (f a) (g a) c') : Checks (x >>= f) (m >>= g) (c ∧ c') := by
  intro t
  by_cases hc : c
  · rw [run_bind_of_ok ((h t).1 hc)]
    refine ⟨fun hcc => (hf _ _).1 hcc.2, fun hcc => (hf _ _).2 fun hc' => hcc ⟨hc, hc'⟩⟩
  · refine ⟨fun hcc => absurd hcc.1 hc, fun _ => ?_⟩
    have herror := (h t).2 hc
    rcases hx : x.run t with ⟨r, t'⟩
    rw [hx] at herror
    obtain rfl : r = .error .verificationError := herror
    rw [run_bind_of_error hx]

theorem guard (h : Checks x m c) (b : Bool) :
    Checks (if b then x else throw .verificationError >>= fun _ : PUnit => x) m (b ∧ c) := by
  intro t
  cases b with
  | false => exact ⟨fun hc => absurd hc.1 (by simp), fun _ => rfl⟩
  | true => exact ⟨fun hc => (h t).1 hc.2, fun hc => (h t).2 fun hc' => hc ⟨rfl, hc'⟩⟩

theorem mapM {f : α → ExceptT RangeProofError (StateM T) β} {g : α → StateM T β} {c : α → Prop}
    (h : ∀ a, Checks (f a) (g a) (c a)) (as : List α) :
    Checks (as.mapM f) (as.mapM g) (∀ a ∈ as, c a) := by
  induction as with
  | nil => exact (pure []).congr (by simp)
  | cons a as ih =>
    rw [List.mapM_cons, List.mapM_cons]
    have hcons := (h a).bind fun b => ih.bind fun bs => pure (b :: bs)
    exact hcons.congr (by simp)

theorem forM_lift (g : α → StateM T PUnit) (as : List α) :
    Checks (as.forM fun a => liftM (g a)) (as.forM g) True := by
  induction as with
  | nil => exact pure PUnit.unit
  | cons a as ih => exact ((lift (g a)).bind fun _ => ih).congr (and_self_iff)

theorem absorbNonzero [Transcript T] {P : Type} [PointEncoding P] [Zero P] [BEq P] [LawfulBEq P]
    (label : String) (p : P) :
    Checks (T := T) (absorbNonzero label p) (absorbPoint label p) (p ≠ 0) := by
  intro t
  rw [Transcript.absorbNonzero]
  by_cases h : p = 0
  · rw [if_pos (by simp [h])]
    exact ⟨fun hc => absurd h hc, fun _ => rfl⟩
  · rw [if_neg (by simp [h])]
    exact ⟨fun _ => rfl, fun hc => absurd h hc⟩

end Checks

variable {F P T : Type} [ScalarEncoding F] [PointEncoding P] [Transcript T]

/-! ### The inner-product argument -/

namespace InnerProductProof

/-- Takes in one round, whatever its points are, and draws its challenge. -/
def drawRound (round : P × P) : StateM T F := do
  absorbPoint "L" round.1
  absorbPoint "R" round.2
  challenge "u"

/-- The challenges that a transcript draws on a proof for vectors of length `n`. -/
def draws (proof : InnerProductProof F P) (n : ℕ) : StateM T (List F) := do
  absorbInnerProduct n
  (proof.L.zip proof.R).mapM drawRound

/-- Whether a proof can be one for vectors of length `n`: one pair of points for every halving. -/
structure HasShape (proof : InnerProductProof F P) (n : ℕ) : Prop where
  rounds_lt : proof.L.length < 32
  length_R : proof.R.length = proof.L.length
  length_eq : n = 2 ^ proof.L.length

/-- The points that are sent. -/
def points (proof : InnerProductProof F P) : List P := proof.L ++ proof.R

theorem length_drawRounds (rounds : List (P × P)) (t : T) :
    ((rounds.mapM (drawRound (F := F))).run t).1.length = rounds.length := by
  induction rounds generalizing t with
  | nil => rfl
  | cons round rounds ih =>
    rw [List.mapM_cons]
    exact congrArg (· + 1) (ih _)

theorem length_draws {proof : InnerProductProof F P} {n : ℕ} (h : proof.HasShape n) (t : T) :
    ((proof.draws n).run t).1.length = proof.L.length := by
  have hzip : (proof.L.zip proof.R).length = proof.L.length := by simp [h.length_R]
  exact (length_drawRounds _ _).trans hzip

variable [Zero P]

omit [ScalarEncoding F] [PointEncoding P] in
theorem forall_mem_zip_iff {proof : InnerProductProof F P} (h : proof.R.length = proof.L.length) :
    (∀ r ∈ proof.L.zip proof.R, r.1 ≠ 0 ∧ r.2 ≠ 0) ↔ ∀ p ∈ proof.points, p ≠ 0 := by
  have hL : (proof.L.zip proof.R).map Prod.fst = proof.L := List.map_fst_zip (by rw [h])
  have hR : (proof.L.zip proof.R).map Prod.snd = proof.R := List.map_snd_zip (by rw [h])
  have hpoints : proof.points =
      (proof.L.zip proof.R).map Prod.fst ++ (proof.L.zip proof.R).map Prod.snd := by
    rw [hL, hR, points]
  rw [hpoints]
  simp only [List.forall_mem_append, List.forall_mem_map]
  exact ⟨fun H => ⟨fun r hr => (H r hr).1, fun r hr => (H r hr).2⟩,
    fun H r hr => ⟨H.1 r hr, H.2 r hr⟩⟩

variable [BEq P] [LawfulBEq P]

theorem checks_replayRound (round : P × P) :
    Checks (T := T) (replayRound (F := F) round) (drawRound round)
      (round.1 ≠ 0 ∧ round.2 ≠ 0) := by
  have h := (Checks.absorbNonzero (T := T) "L" round.1).bind fun _ =>
    (Checks.absorbNonzero "R" round.2).bind fun _ =>
    (Checks.lift (challenge (F := F) "u")).bind fun u => Checks.pure u
  exact h.congr (by simp)

theorem checks_replay (proof : InnerProductProof F P) (n : ℕ) :
    Checks (T := T) (proof.replay n) (proof.draws n)
      (proof.HasShape n ∧ ∀ p ∈ proof.points, p ≠ 0) := by
  have h := ((Checks.lift (T := T) (absorbInnerProduct n)).bind fun _ =>
    Checks.mapM (checks_replayRound (F := F)) (proof.L.zip proof.R)).guard (n == 1 <<< proof.L.length)
  refine (h.guard (proof.L.length < 32 && proof.R.length == proof.L.length)).congr ?_
  simp only [Bool.and_eq_true, decide_eq_true_eq, beq_iff_eq, Nat.one_shiftLeft, true_and]
  constructor
  · rintro ⟨⟨hL, hR⟩, hn, hp⟩
    exact ⟨⟨hL, hR, hn⟩, (forall_mem_zip_iff hR).mp hp⟩
  · rintro ⟨⟨hL, hR, hn⟩, hp⟩
    exact ⟨⟨hL, hR⟩, hn, (forall_mem_zip_iff hR).mpr hp⟩

end InnerProductProof

/-! ### The range proof -/

namespace RangeProof

/-- The challenges that a transcript draws before the inner-product argument of a proof. -/
def outerDraws (proof : RangeProof F P) (n : ℕ) (values : List P) : StateM T (Challenges F) := do
  absorbRange n values.length
  values.forM fun V => absorbPoint "V" V
  absorbPoint "A" proof.A
  absorbPoint "S" proof.S
  let y ← challenge "y"
  let z ← challenge "z"
  absorbPoint "T_1" proof.T₁
  absorbPoint "T_2" proof.T₂
  let x ← challenge "x"
  absorbScalar "t_x" proof.tx
  absorbScalar "t_x_blinding" proof.txBlinding
  absorbScalar "e_blinding" proof.eBlinding
  let w ← challenge "w"
  pure ⟨y, z, x, w, []⟩

/-- The challenges that a transcript draws on a proof for values of `n` bits. -/
def draws (proof : RangeProof F P) (n : ℕ) (values : List P) : StateM T (Challenges F) := do
  let ch ← proof.outerDraws n values
  let us ← proof.inner.draws (n * values.length)
  pure { ch with us := us }

theorem draws_inner {proof : RangeProof F P} {n : ℕ} {values : List P} {t t' : T}
    {ch : Challenges F} (h : (proof.draws n values).run t = (ch, t')) :
    (proof.inner.draws (n * values.length)).run ((proof.outerDraws (F := F) n values).run t).2 =
      (ch.us, t') := by
  obtain ⟨rfl, rfl⟩ := Prod.mk.inj h
  rfl

/-- The points that are sent. -/
def points (proof : RangeProof F P) : List P :=
  [proof.A, proof.S, proof.T₁, proof.T₂] ++ proof.inner.points

variable [Zero P] [BEq P] [LawfulBEq P]

theorem checks_replay (proof : RangeProof F P) (n : ℕ) (values : List P) :
    Checks (T := T) (proof.replay n values) (proof.draws n values)
      (proof.inner.HasShape (n * values.length) ∧ ∀ p ∈ proof.points, p ≠ 0) := by
  have h := (Checks.lift (T := T) (absorbRange n values.length)).bind fun _ =>
    (Checks.forM_lift (fun V => absorbPoint "V" V) values).bind fun _ =>
    (Checks.absorbNonzero "A" proof.A).bind fun _ =>
    (Checks.absorbNonzero "S" proof.S).bind fun _ =>
    (Checks.lift (challenge (F := F) "y")).bind fun y =>
    (Checks.lift (challenge (F := F) "z")).bind fun z =>
    (Checks.absorbNonzero "T_1" proof.T₁).bind fun _ =>
    (Checks.absorbNonzero "T_2" proof.T₂).bind fun _ =>
    (Checks.lift (challenge (F := F) "x")).bind fun x =>
    (Checks.lift (absorbScalar "t_x" proof.tx)).bind fun _ =>
    (Checks.lift (absorbScalar "t_x_blinding" proof.txBlinding)).bind fun _ =>
    (Checks.lift (absorbScalar "e_blinding" proof.eBlinding)).bind fun _ =>
    (Checks.lift (challenge (F := F) "w")).bind fun w =>
    (proof.inner.checks_replay (n * values.length)).bind fun us =>
    Checks.pure (⟨y, z, x, w, us⟩ : Challenges F)
  refine (h.congr_run fun _ => rfl).congr ?_
  simp only [points, List.forall_mem_append, List.forall_mem_cons, List.not_mem_nil,
    false_implies, implies_true, true_and, and_true]
  tauto

/-! ### Verification -/

variable {gens : Generators P} {key : CommitmentKey P} {proof : RangeProof F P} {n : ℕ}
variable {values : List P} {t t' : T} {ch : Challenges F}

theorem prepare_eq_ok_iff :
    (proof.prepare gens n values).run t = (.ok ch, t') ↔
      checkParameters gens n values.length = .ok () ∧ proof.inner.HasShape (n * values.length) ∧
        (∀ p ∈ proof.points, p ≠ 0) ∧ (proof.draws n values).run t = (ch, t') := by
  rw [prepare, run_bind_eq_ok]
  constructor
  · rintro ⟨⟨⟩, t₁, hrun, hreplay⟩
    obtain ⟨hparams, rfl⟩ := Prod.mk.inj hrun
    by_cases hc : proof.inner.HasShape (n * values.length) ∧ ∀ p ∈ proof.points, p ≠ 0
    · rw [(proof.checks_replay n values t).1 hc] at hreplay
      obtain ⟨hch, ht⟩ := Prod.mk.inj hreplay
      exact ⟨hparams, hc.1, hc.2, Prod.ext (Except.ok.inj hch) ht⟩
    · have herror := (proof.checks_replay n values t).2 hc
      rw [hreplay] at herror
      cases herror
  · rintro ⟨hparams, hshape, hpoints, hdraws⟩
    refine ⟨(), t, by rw [run_lift_except, hparams], ?_⟩
    rw [(proof.checks_replay n values t).1 ⟨hshape, hpoints⟩, hdraws]

theorem prepare_refused (hparams : checkParameters gens n values.length = .ok ())
    (h : ¬(proof.inner.HasShape (n * values.length) ∧ ∀ p ∈ proof.points, p ≠ 0)) (t : T) :
    ((proof.prepare gens n values).run t).1 = .error .verificationError := by
  rw [prepare, run_bind_of_ok (run_lift_of_ok hparams)]
  exact (proof.checks_replay n values t).2 h

/-- Parameters that fit leave one error to the replay. -/
theorem eq_of_prepare_eq_error (hparams : checkParameters gens n values.length = .ok ())
    {e : RangeProofError} (h : ((proof.prepare gens n values).run t).1 = .error e) :
    e = .verificationError := by
  by_cases hc : proof.inner.HasShape (n * values.length) ∧ ∀ p ∈ proof.points, p ≠ 0
  · rcases hdraws : (proof.draws n values).run t with ⟨ch, t'⟩
    rw [prepare_eq_ok_iff.mpr ⟨hparams, hc.1, hc.2, hdraws⟩] at h
    cases h
  · exact Except.error.inj (h.symm.trans (prepare_refused hparams hc t))

variable [Field F] [MultiScalar F P] {c : F}

omit [LawfulBEq P] in
theorem verifyWith_of_prepared (h : (proof.prepare gens n values).run t = (.ok ch, t')) :
    (proof.verifyWith gens key n values c).run t =
      (if proof.equationHolds gens key n values ch c then .ok () else .error .verificationError,
        t') := by
  rw [verifyWith, run_bind_of_ok h]
  split <;> rfl

omit [LawfulBEq P] in
theorem verifyWith_of_refused {e : RangeProofError}
    (h : (proof.prepare gens n values).run t = (.error e, t')) :
    (proof.verifyWith gens key n values c).run t = (.error e, t') := by
  rw [verifyWith, run_bind_of_error h]

theorem verifyWith_of_zero_point (key : CommitmentKey P) (c : F)
    (hparams : checkParameters gens n values.length = .ok ())
    (h : ∃ p ∈ proof.points, p = 0) (t : T) :
    ((proof.verifyWith gens key n values c).run t).1 = .error .verificationError := by
  obtain ⟨p, hp, hzero⟩ := h
  have hchecks : ¬(proof.inner.HasShape (n * values.length) ∧ ∀ p ∈ proof.points, p ≠ 0) :=
    fun hchecks => hchecks.2 p hp hzero
  have herror := prepare_refused hparams hchecks t
  rcases hprepare : (proof.prepare gens n values).run t with ⟨r, t'⟩
  rw [hprepare] at herror
  obtain rfl : r = .error .verificationError := herror
  rw [verifyWith_of_refused hprepare]

omit [LawfulBEq P] in
theorem verify_fst (source : RandomSource) :
    (proof.verify gens key n values t source).1 =
      ((proof.verifyWith gens key n values (RandomSource.scalar.run source).1).run t).1 := by
  rw [verify]
  rcases h : (proof.prepare gens n values).run t with ⟨e | ch, t'⟩
  · rw [verifyWith_of_refused h]
  · rw [verifyWith_of_prepared h]
    rfl

omit [LawfulBEq P] in
/-- The transcript on which a verification ends, whatever weight is drawn. -/
theorem verify_transcript (h : (proof.prepare gens n values).run t = (.ok ch, t'))
    (key : CommitmentKey P) (source : RandomSource) :
    (proof.verify gens key n values t source).2.1 = t' := by
  rw [verify, h]
  rfl

end RangeProof
end ConfidentialTx
