import ConfidentialTx.Proofs.Records
import ConfidentialTx.Proofs.Replay
import ConfidentialTx.Proofs.Rows

/-! # Binding of challenges

A verifier draws every challenge on all that was sent before it.

* `RangeProof.beforeY`, `RangeProof.beforeX`, `RangeProof.beforeW`, `RangeProof.upToRound`: the operations
  of a verification before each of its draws.
* `RangeProof.log_of_prepare`: a verification that gets to its equation makes these operations and no
  others.
* `RangeProof.agreeOnY`, `RangeProof.agreeOnX`, `RangeProof.agreeOnW`, `RangeProof.agreeOnU`: all that
  was sent is read back from the operations.
* `RangeProof.agreeOnY_of_drawsAt`, …, `RangeProof.agreeOnU_of_drawsAt`: two verifications that draw a
  challenge on one record have all that was sent before it in common. -/

namespace ConfidentialTx

open Transcript

variable {F P : Type} [ScalarEncoding F] [PointEncoding P] {answer : List Operation → Bytes}

/-! ### The operations of a verification -/

namespace InnerProductProof

/-- The operations before the rounds for vectors of length `n`. -/
def opening (n : ℕ) : List Operation :=
  [.append "dom-sep" (Bytes.ofString "ipp v1"), .number "n" n]

/-- The operations of one round. -/
def roundOps (round : P × P) : List Operation :=
  [.point "L" round.1, .point "R" round.2, .challenge "u"]

theorem roundOps_injective (hP : Function.Injective (PointEncoding.encode : P → Bytes)) :
    Function.Injective (roundOps : P × P → List Operation) := by
  rintro ⟨l, r⟩ ⟨l', r'⟩ h
  obtain ⟨hl, h⟩ := List.cons.inj h
  obtain ⟨hr, -⟩ := List.cons.inj h
  exact Prod.ext (Operation.point_injective hP _ hl) (Operation.point_injective hP _ hr)

theorem records_draws (proof : InnerProductProof F P) (n : ℕ) :
    Records answer (proof.draws (F := F) n)
      (opening n ++ (proof.L.zip proof.R).flatMap roundOps) := by
  have hround : ∀ round : P × P,
      Records answer (drawRound (F := F) round) (roundOps round) := fun round =>
    (Records.absorb "L" _).bind fun _ => (Records.absorb "R" _).bind fun _ => Records.challenge "u"
  have hopening : Records answer (absorbInnerProduct n) (opening n) :=
    (Records.absorb "dom-sep" _).bind fun _ => Records.absorb "n" _
  exact hopening.bind fun _ => Records.mapM hround _

end InnerProductProof

namespace RangeProof

/-- The operations before `y` is drawn. -/
def beforeY (proof : RangeProof F P) (n : ℕ) (values : List P) : List Operation :=
  .append "dom-sep" (Bytes.ofString "rangeproof v1") :: .number "n" n :: .number "m" values.length ::
    (values.map (.point "V") ++ [.point "A" proof.A, .point "S" proof.S])

/-- The operations before `x` is drawn. -/
def beforeX (proof : RangeProof F P) (n : ℕ) (values : List P) : List Operation :=
  proof.beforeY n values ++ .challenge "y" ::
    [.challenge "z", .point "T_1" proof.T₁, .point "T_2" proof.T₂]

/-- The operations before `w` is drawn. -/
def beforeW (proof : RangeProof F P) (n : ℕ) (values : List P) : List Operation :=
  proof.beforeX n values ++ .challenge "x" ::
    [.scalar "t_x" proof.tx, .scalar "t_x_blinding" proof.txBlinding,
      .scalar "e_blinding" proof.eBlinding]

/-- The rounds of a proof. -/
def rounds (proof : RangeProof F P) : List (P × P) := proof.inner.L.zip proof.inner.R

/-- The operations up to the first `k` rounds. -/
def upToRound (proof : RangeProof F P) (n : ℕ) (values : List P) (k : ℕ) : List Operation :=
  proof.beforeW n values ++ .challenge "w" :: (InnerProductProof.opening (n * values.length)
    ++ (proof.rounds.take k).flatMap InnerProductProof.roundOps)

theorem records_outerDraws (proof : RangeProof F P) (n : ℕ) (values : List P) :
    Records answer (proof.outerDraws (F := F) n values)
      (proof.beforeW n values ++ [.challenge "w"]) := by
  have hrange : Records answer (absorbRange n values.length)
      [.append "dom-sep" (Bytes.ofString "rangeproof v1"), .number "n" n, .number "m" values.length] :=
    (Records.absorb "dom-sep" _).bind fun _ => (Records.absorb "n" _).bind fun _ =>
      Records.absorb "m" _
  have hvalues : Records answer (values.forM fun V => absorbPoint "V" V)
      (values.map (.point "V")) :=
    (Records.forM (fun V => Records.absorb "V" (PointEncoding.encode V)) values).congr
      List.map_eq_flatMap.symm
  refine (hrange.bind fun _ => hvalues.bind fun _ =>
    (Records.absorb "A" (PointEncoding.encode proof.A)).bind fun _ =>
    (Records.absorb "S" (PointEncoding.encode proof.S)).bind fun _ =>
    (Records.challenge (F := F) "y").bind fun y =>
    (Records.challenge (F := F) "z").bind fun z =>
    (Records.absorb "T_1" (PointEncoding.encode proof.T₁)).bind fun _ =>
    (Records.absorb "T_2" (PointEncoding.encode proof.T₂)).bind fun _ =>
    (Records.challenge (F := F) "x").bind fun x =>
    (Records.absorb "t_x" (ScalarEncoding.encode proof.tx)).bind fun _ =>
    (Records.absorb "t_x_blinding" (ScalarEncoding.encode proof.txBlinding)).bind fun _ =>
    (Records.absorb "e_blinding" (ScalarEncoding.encode proof.eBlinding)).bind fun _ =>
    (Records.challenge (F := F) "w").bind fun w =>
    Records.pure (⟨y, z, x, w, []⟩ : Challenges F)).congr ?_
  simp [beforeW, beforeX, beforeY, Operation.point, Operation.scalar, Operation.challenge]

theorem records_draws (proof : RangeProof F P) (n : ℕ) (values : List P) :
    Records answer (proof.draws (F := F) n values)
      (proof.upToRound n values proof.rounds.length) := by
  refine ((proof.records_outerDraws n values).bind fun ch =>
    (proof.inner.records_draws (n * values.length)).bind fun us =>
    Records.pure ({ ch with us := us } : Challenges F)).congr ?_
  rw [upToRound, List.take_length, List.append_nil, List.append_assoc, List.singleton_append]
  rfl

/-! ### Where the challenges are drawn -/

section Prefixes
variable (proof : RangeProof F P) (n : ℕ) (values : List P) (k : ℕ)

omit [ScalarEncoding F] in
theorem beforeY_prefix : proof.beforeY n values ++ [.challenge "y"] <+: proof.beforeX n values :=
  ⟨_, List.append_assoc _ _ _⟩

theorem beforeX_prefix : proof.beforeX n values ++ [.challenge "x"] <+: proof.beforeW n values :=
  ⟨_, List.append_assoc _ _ _⟩

theorem beforeW_prefix : proof.beforeW n values ++ [.challenge "w"] <+: proof.upToRound n values k :=
  ⟨_, List.append_assoc _ _ _⟩

theorem beforeX_prefix_upToRound : proof.beforeX n values <+: proof.upToRound n values k :=
  ((List.prefix_append _ _).trans (proof.beforeX_prefix n values)).trans
    ((List.prefix_append _ _).trans (proof.beforeW_prefix n values k))

theorem beforeW_prefix_upToRound : proof.beforeW n values <+: proof.upToRound n values k :=
  (List.prefix_append _ _).trans (proof.beforeW_prefix n values k)

theorem upToRound_succ {k : ℕ} (hk : k < proof.rounds.length) :
    ∃ since, proof.upToRound n values (k + 1) = since ++ [.challenge "u"] := by
  let round := proof.rounds[k]
  have htake : proof.rounds.take (k + 1) = proof.rounds.take k ++ [round] := by
    rw [List.take_concat_get' _ _ hk]
  refine ⟨proof.upToRound n values k ++ [.point "L" round.1, .point "R" round.2], ?_⟩
  rw [upToRound, upToRound, htake, List.flatMap_append, List.flatMap_singleton]
  simp [InnerProductProof.roundOps]

theorem upToRound_prefix : proof.upToRound n values k <+: proof.upToRound n values proof.rounds.length := by
  rw [upToRound, upToRound, List.take_length, List.prefix_append_right_inj, List.cons_prefix_cons,
    List.prefix_append_right_inj]
  refine ⟨rfl, ?_⟩
  nth_rewrite 2 [← List.take_append_drop k proof.rounds]
  rw [List.flatMap_append]
  exact List.prefix_append _ _

end Prefixes

section Labels
variable (proof : RangeProof F P) (n : ℕ) (values : List P) {label : String}

omit [ScalarEncoding F] in
theorem challenge_not_mem_beforeY : Operation.challenge label ∉ proof.beforeY n values := by
  simp [beforeY, Operation.number, Operation.point, Operation.challenge]

omit [ScalarEncoding F] in
theorem challenge_not_mem_beforeX (hy : label ≠ "y") (hz : label ≠ "z") :
    Operation.challenge label ∉ proof.beforeX n values := by
  rw [beforeX, List.mem_append, not_or]
  refine ⟨proof.challenge_not_mem_beforeY n values, ?_⟩
  simp [Operation.point, Operation.challenge, hy, hz]

theorem challenge_not_mem_beforeW (hy : label ≠ "y") (hz : label ≠ "z") (hx : label ≠ "x") :
    Operation.challenge label ∉ proof.beforeW n values := by
  rw [beforeW, List.mem_append, not_or]
  refine ⟨proof.challenge_not_mem_beforeX n values hy hz, ?_⟩
  simp [Operation.scalar, Operation.challenge, hx]

theorem count_upToRound {k : ℕ} (hk : k ≤ proof.rounds.length) :
    (proof.upToRound n values k).count (.challenge "u") = k := by
  have hbefore : (proof.beforeW n values).count (.challenge "u") = 0 :=
    List.count_eq_zero.mpr
      (proof.challenge_not_mem_beforeW n values (by decide) (by decide) (by decide))
  have hopening : (InnerProductProof.opening (n * values.length)).count (.challenge "u") = 0 := by
    simp [InnerProductProof.opening, Operation.number, Operation.challenge]
  have hround : ∀ round : P × P,
      (InnerProductProof.roundOps round).count (.challenge "u") = 1 := fun round => by
    simp [InnerProductProof.roundOps, Operation.point, Operation.challenge]
  have hrounds : ((proof.rounds.take k).flatMap InnerProductProof.roundOps).count
      (.challenge "u") = k := by
    have hblocks : List.count (.challenge "u") ∘ InnerProductProof.roundOps =
        fun _ : P × P => 1 := funext hround
    rw [List.count_flatMap, hblocks, List.map_const', List.sum_replicate, List.length_take,
      Nat.min_eq_left hk, smul_eq_mul, Nat.mul_one]
  have hw : Operation.challenge "w" ≠ .challenge "u" := by decide
  rw [upToRound, List.count_append, List.count_cons_of_ne hw, List.count_append, hbefore, hopening,
    hrounds, Nat.zero_add, Nat.zero_add]

end Labels

section Runs
variable {proof : RangeProof F P} {gens : Generators P} {n k : ℕ} {values : List P}
variable {ch : Challenges F} {start final : History answer} {before : List Operation}
variable [Zero P] [BEq P] [LawfulBEq P]

/-- A verification that gets to its equation leaves behind all that was sent and all its draws. -/
theorem log_of_prepare (h : (proof.prepare gens n values).run start = (.ok ch, final)) :
    final.log = start.log ++ proof.upToRound n values proof.rounds.length := by
  obtain ⟨-, -, -, hdraws⟩ := prepare_eq_ok_iff.mp h
  have hlog := proof.records_draws (F := F) n values start
  rwa [hdraws] at hlog

theorem drawsAt_y_iff (h : (proof.prepare gens n values).run start = (.ok ch, final)) :
    DrawsAt "y" 0 start final before ↔ before = start.log ++ proof.beforeY n values :=
  drawsAt_zero_iff (log_of_prepare h)
    ((proof.beforeY_prefix n values).trans (proof.beforeX_prefix_upToRound n values _))
    (proof.challenge_not_mem_beforeY n values)

theorem drawsAt_x_iff (h : (proof.prepare gens n values).run start = (.ok ch, final)) :
    DrawsAt "x" 0 start final before ↔ before = start.log ++ proof.beforeX n values :=
  drawsAt_zero_iff (log_of_prepare h)
    ((proof.beforeX_prefix n values).trans (proof.beforeW_prefix_upToRound n values _))
    (proof.challenge_not_mem_beforeX n values (by decide) (by decide))

theorem drawsAt_w_iff (h : (proof.prepare gens n values).run start = (.ok ch, final)) :
    DrawsAt "w" 0 start final before ↔ before = start.log ++ proof.beforeW n values :=
  drawsAt_zero_iff (log_of_prepare h) (proof.beforeW_prefix n values _)
    (proof.challenge_not_mem_beforeW n values (by decide) (by decide) (by decide))

theorem drawsAt_u_iff (h : (proof.prepare gens n values).run start = (.ok ch, final))
    (hk : k < proof.rounds.length) :
    DrawsAt "u" k start final before ↔
      before ++ [.challenge "u"] = start.log ++ proof.upToRound n values (k + 1) := by
  obtain ⟨since, hsince⟩ := proof.upToRound_succ n values hk
  have hcount := proof.count_upToRound n values (Nat.succ_le_of_lt hk)
  have hprefix := proof.upToRound_prefix n values (k + 1)
  rw [hsince] at hcount hprefix ⊢
  rw [List.count_append, List.count_singleton_self, Nat.add_right_cancel_iff] at hcount
  rw [drawsAt_iff (log_of_prepare h) hprefix hcount, ← List.append_assoc, List.append_cancel_right_eq]

theorem lt_rounds_of_drawsAt (h : (proof.prepare gens n values).run start = (.ok ch, final))
    (hdraw : DrawsAt "u" k start final before) : k < proof.rounds.length := by
  have hcount := hdraw.lt_count (log_of_prepare h)
  rwa [proof.count_upToRound n values le_rfl] at hcount

theorem bits_lt_of_prepare (h : (proof.prepare gens n values).run start = (.ok ch, final)) :
    n < 2 ^ 64 := by
  have hbits := (checkParameters_eq_ok_iff.mp (prepare_eq_ok_iff.mp h).1).bits
  omega

end Runs

/-! ### What two records have in common -/

section Agreement

/-- What is sent before `y` is drawn is the same. -/
structure AgreeOnY (proof proof' : RangeProof F P) (n n' : ℕ) (values values' : List P) : Prop where
  bits_eq : n = n'
  values_eq : values = values'
  A_eq : proof.A = proof'.A
  S_eq : proof.S = proof'.S

/-- What is sent before `x` is drawn is the same. -/
structure AgreeOnX (proof proof' : RangeProof F P) (n n' : ℕ) (values values' : List P) : Prop
    extends AgreeOnY proof proof' n n' values values' where
  T₁_eq : proof.T₁ = proof'.T₁
  T₂_eq : proof.T₂ = proof'.T₂

/-- What is sent before `w` is drawn is the same. -/
structure AgreeOnW (proof proof' : RangeProof F P) (n n' : ℕ) (values values' : List P) : Prop
    extends AgreeOnX proof proof' n n' values values' where
  tx_eq : proof.tx = proof'.tx
  txBlinding_eq : proof.txBlinding = proof'.txBlinding
  eBlinding_eq : proof.eBlinding = proof'.eBlinding

/-- What is sent before the challenge of round `k` is drawn is the same. -/
structure AgreeOnU (k : ℕ) (proof proof' : RangeProof F P) (n n' : ℕ) (values values' : List P) : Prop
    extends AgreeOnW proof proof' n n' values values' where
  L_eq : proof.inner.L.take (k + 1) = proof'.inner.L.take (k + 1)
  R_eq : proof.inner.R.take (k + 1) = proof'.inner.R.take (k + 1)

variable {proof proof' : RangeProof F P} {n n' k : ℕ} {values values' : List P}
variable (hP : Function.Injective (PointEncoding.encode : P → Bytes))
variable (hF : Function.Injective (ScalarEncoding.encode : F → Bytes))

include hP

omit [ScalarEncoding F] in
theorem agreeOnY (hn : n < 2 ^ 64) (hn' : n' < 2 ^ 64)
    (h : proof.beforeY n values = proof'.beforeY n' values') :
    AgreeOnY proof proof' n n' values values' := by
  obtain ⟨-, h⟩ := List.cons.inj h
  obtain ⟨hbits, h⟩ := List.cons.inj h
  obtain ⟨-, h⟩ := List.cons.inj h
  obtain ⟨hvalues, hA, h⟩ := map_append_cons_inj (Operation.point_injective hP "V")
    (fun V => Operation.point_ne (by decide) V _) (fun V => Operation.point_ne (by decide) V _) h
  obtain ⟨hS, -⟩ := List.cons.inj h
  exact ⟨Operation.number_inj hn hn' hbits, hvalues, Operation.point_injective hP _ hA,
    Operation.point_injective hP _ hS⟩

omit [ScalarEncoding F] in
theorem agreeOnX (hn : n < 2 ^ 64) (hn' : n' < 2 ^ 64)
    (h : proof.beforeX n values = proof'.beforeX n' values') :
    AgreeOnX proof proof' n n' values values' := by
  obtain ⟨hbefore, h⟩ := append_cons_inj_of_not_mem h (proof.challenge_not_mem_beforeY n values)
    (proof'.challenge_not_mem_beforeY n' values')
  obtain ⟨-, h⟩ := List.cons.inj h
  obtain ⟨hT₁, h⟩ := List.cons.inj h
  obtain ⟨hT₂, -⟩ := List.cons.inj h
  exact ⟨agreeOnY hP hn hn' hbefore, Operation.point_injective hP _ hT₁,
    Operation.point_injective hP _ hT₂⟩

include hF

theorem agreeOnW (hn : n < 2 ^ 64) (hn' : n' < 2 ^ 64)
    (h : proof.beforeW n values = proof'.beforeW n' values') :
    AgreeOnW proof proof' n n' values values' := by
  obtain ⟨hbefore, h⟩ := append_cons_inj_of_not_mem h
    (proof.challenge_not_mem_beforeX n values (by decide) (by decide))
    (proof'.challenge_not_mem_beforeX n' values' (by decide) (by decide))
  obtain ⟨htx, h⟩ := List.cons.inj h
  obtain ⟨htxBlinding, h⟩ := List.cons.inj h
  obtain ⟨heBlinding, -⟩ := List.cons.inj h
  exact ⟨agreeOnX hP hn hn' hbefore, Operation.scalar_injective hF _ htx,
    Operation.scalar_injective hF _ htxBlinding, Operation.scalar_injective hF _ heBlinding⟩

theorem agreeOnU (hn : n < 2 ^ 64) (hn' : n' < 2 ^ 64)
    (hshape : proof.inner.R.length = proof.inner.L.length)
    (hshape' : proof'.inner.R.length = proof'.inner.L.length)
    (h : proof.upToRound n values (k + 1) = proof'.upToRound n' values' (k + 1)) :
    AgreeOnU k proof proof' n n' values values' := by
  obtain ⟨hbefore, h⟩ := append_cons_inj_of_not_mem h
    (proof.challenge_not_mem_beforeW n values (by decide) (by decide) (by decide))
    (proof'.challenge_not_mem_beforeW n' values' (by decide) (by decide) (by decide))
  have hagree := agreeOnW hP hF hn hn' hbefore
  have hrounds : proof.rounds.take (k + 1) = proof'.rounds.take (k + 1) := by
    rw [hagree.bits_eq, hagree.values_eq, List.append_cancel_left_eq] at h
    exact flatMap_inj (InnerProductProof.roundOps_injective hP) (Nat.succ_pos 2) (fun _ => rfl) h
  have hL := congrArg (List.map Prod.fst) hrounds
  have hR := congrArg (List.map Prod.snd) hrounds
  rw [List.map_take, List.map_take, rounds, rounds] at hL hR
  rw [List.map_fst_zip hshape.ge, List.map_fst_zip hshape'.ge] at hL
  rw [List.map_snd_zip hshape.le, List.map_snd_zip hshape'.le] at hR
  exact ⟨hagree, hL, hR⟩

end Agreement

/-! ### What two verifications have in common -/

section Verifications
variable {proof proof' : RangeProof F P} {gens gens' : Generators P} {n n' k : ℕ}
variable {values values' : List P} {ch ch' : Challenges F} {start final final' : History answer}
variable {before : List Operation} [Zero P] [BEq P] [LawfulBEq P]
variable (hP : Function.Injective (PointEncoding.encode : P → Bytes))
variable (hF : Function.Injective (ScalarEncoding.encode : F → Bytes))
variable (h : (proof.prepare gens n values).run start = (.ok ch, final))
variable (h' : (proof'.prepare gens' n' values').run start = (.ok ch', final'))

include hP h h'

theorem agreeOnY_of_drawsAt (hdraw : DrawsAt "y" 0 start final before)
    (hdraw' : DrawsAt "y" 0 start final' before) : AgreeOnY proof proof' n n' values values' := by
  have hbefore := ((drawsAt_y_iff h).mp hdraw).symm.trans ((drawsAt_y_iff h').mp hdraw')
  rw [List.append_cancel_left_eq] at hbefore
  exact agreeOnY hP (bits_lt_of_prepare h) (bits_lt_of_prepare h') hbefore

theorem agreeOnX_of_drawsAt (hdraw : DrawsAt "x" 0 start final before)
    (hdraw' : DrawsAt "x" 0 start final' before) : AgreeOnX proof proof' n n' values values' := by
  have hbefore := ((drawsAt_x_iff h).mp hdraw).symm.trans ((drawsAt_x_iff h').mp hdraw')
  rw [List.append_cancel_left_eq] at hbefore
  exact agreeOnX hP (bits_lt_of_prepare h) (bits_lt_of_prepare h') hbefore

include hF

theorem agreeOnW_of_drawsAt (hdraw : DrawsAt "w" 0 start final before)
    (hdraw' : DrawsAt "w" 0 start final' before) : AgreeOnW proof proof' n n' values values' := by
  have hbefore := ((drawsAt_w_iff h).mp hdraw).symm.trans ((drawsAt_w_iff h').mp hdraw')
  rw [List.append_cancel_left_eq] at hbefore
  exact agreeOnW hP hF (bits_lt_of_prepare h) (bits_lt_of_prepare h') hbefore

theorem agreeOnU_of_drawsAt (hdraw : DrawsAt "u" k start final before)
    (hdraw' : DrawsAt "u" k start final' before) : AgreeOnU k proof proof' n n' values values' := by
  have hsent := (drawsAt_u_iff h (lt_rounds_of_drawsAt h hdraw)).mp hdraw
  have hsent' := (drawsAt_u_iff h' (lt_rounds_of_drawsAt h' hdraw')).mp hdraw'
  rw [hsent', List.append_cancel_left_eq] at hsent
  exact agreeOnU hP hF (bits_lt_of_prepare h) (bits_lt_of_prepare h')
    (prepare_eq_ok_iff.mp h).2.1.length_R (prepare_eq_ok_iff.mp h').2.1.length_R hsent.symm

end Verifications

end RangeProof
end ConfidentialTx
