import ConfidentialTx.Proofs.Sorting
import ConfidentialTx.Proofs.TxCompleteness
import ConfidentialTx.Tx.Builder

/-! # Built transactions

Whatever calls a builder has seen, a transaction that it gives holds what they added, sorted, and is
accepted by the verifier.

* `Credential.IsCreated.owns`: the holder of a credential owns the member at its position.
* `Builder.Call`, `Builder.foldl_apply`: the calls of a builder, and its state behind them.
* `Builder.build_eq_ok`: a built transaction holds the sorted inputs and outputs, and a signature of
  them by the sorted secrets.
* `Builder.ownsMembers_of_secrets`, `Builder.commitOutputs_of_secrets`: the secrets are those of the ring
  members and of the outputs that the verifier sees.
* `Builder.sorted_and_accepted`: so the transaction is accepted. -/

namespace ConfidentialTx

/-! ### Equality of outputs -/

section Outputs
variable {P : Type} [BEq P] [LawfulBEq P]

theorem MaskedAmount.beq_iff (a b : MaskedAmount P) :
    (a == b) = true ↔ a.commitment = b.commitment ∧ a.masked = b.masked := by
  rw [← beq_iff_eq (a := a.commitment), ← beq_iff_eq (a := a.masked), ← Bool.and_eq_true]
  rfl

instance : LawfulBEq (MaskedAmount P) where
  rfl {a} := (MaskedAmount.beq_iff a a).mpr ⟨rfl, rfl⟩
  eq_of_beq {a b} h := by
    obtain ⟨hcommitment, hmasked⟩ := (MaskedAmount.beq_iff a b).mp h
    cases a
    cases b
    cases hcommitment
    cases hmasked
    rfl

theorem Output.beq_iff (a b : Output P) :
    (a == b) = true ↔ a.amount = b.amount ∧ a.targetKey = b.targetKey ∧
      a.publicKey = b.publicKey ∧ a.hint = b.hint := by
  rw [← beq_iff_eq (a := a.amount), ← beq_iff_eq (a := a.targetKey), ← beq_iff_eq (a := a.publicKey),
    ← beq_iff_eq (a := a.hint), ← Bool.and_eq_true, ← Bool.and_eq_true, ← Bool.and_eq_true]
  rfl

instance : LawfulBEq (Output P) where
  rfl {a} := (Output.beq_iff a a).mpr ⟨rfl, rfl, rfl, rfl⟩
  eq_of_beq {a b} h := by
    obtain ⟨hamount, htarget, hpublic, hhint⟩ := (Output.beq_iff a b).mp h
    cases a
    cases b
    cases hamount
    cases htarget
    cases hpublic
    cases hhint
    rfl

end Outputs

/-! ### Credentials -/

section Credentials
variable {F P : Type}

namespace Credential

theorem create_eq_ok_iff [SMul F P] [PointEncoding P] [BasePoint P] [BEq P] [LawfulBEq P]
    {real : Output P} {ring : List (Output P)} {onetimeKey viewKey : F} {credential : Credential F P} :
    create real ring onetimeKey viewKey = .ok credential ↔
      onetimeKey • (base : P) = real.targetKey ∧
        ∃ i, (canonicalRing real ring).findIdx? (· == real) = some i ∧
          ⟨canonicalRing real ring, i, onetimeKey, viewKey⟩ = credential := by
  rw [create, unless_throw_eq_ok, beq_iff_eq]
  refine and_congr_right fun _ => ?_
  dsimp only
  cases (canonicalRing real ring).findIdx? (· == real) with
  | none => exact iff_of_false nofun nofun
  | some i => simp

/-- Whether a credential was made for some output among some ring members. -/
def IsCreated [SMul F P] [PointEncoding P] [BasePoint P] [BEq P] (credential : Credential F P) : Prop :=
  ∃ real ring onetimeKey viewKey, create real ring onetimeKey viewKey = .ok credential

theorem IsCreated.owns [SMul F P] [PointEncoding P] [BasePoint P] [BEq P] [LawfulBEq P]
    {credential : Credential F P} (h : credential.IsCreated) {member : Output P}
    (hmember : credential.ring[credential.realIndex]? = some member) :
    member.targetKey = credential.onetimeKey • base := by
  obtain ⟨real, ring, onetimeKey, viewKey, hcreate⟩ := h
  obtain ⟨hkey, i, hi, rfl⟩ := create_eq_ok_iff.mp hcreate
  obtain ⟨hlt, hreal, -⟩ := List.findIdx?_eq_some_iff_getElem.mp hi
  obtain rfl : (canonicalRing real ring)[i] = member :=
    Option.some.inj ((List.getElem?_eq_getElem hlt).symm.trans hmember)
  rw [beq_iff_eq.mp hreal, hkey]

end Credential

theorem MaskedAmount.commitment_of_unmask [ScalarHash F] [PointEncoding P] [ScalarEncoding F] [NatCast F]
    [MultiScalar F P] [PointHash P] [BasePoint P] [BEq P] [LawfulBEq P] {amount : MaskedAmount P}
    {secret : P} {opening : Opening F} (h : amount.unmask F secret = .ok opening) :
    commitAmount opening.value opening.blinding = amount.commitment := by
  obtain ⟨hcommit, hopening⟩ := unless_throw_eq_ok.mp h
  obtain rfl := pure_eq_ok.mp hopening
  exact beq_iff_eq.mp hcommit

end Credentials

namespace Builder
variable {F P : Type}

/-! ### Calls -/

/-- A call of a builder.  An output may be made by the call, from a source of its own, or before. -/
inductive Call (F P : Type)
  | addInput (input : Credential F P)
  | addOutput (value : UInt64) (recipient : Address P) (hint : Bytes) (source : RandomSource)
  | addSent (output : SentOutput P)
  | setFee (fee : UInt64)
  | setTombstone (tombstone : UInt64)

namespace Call

/-- The input that a call adds. -/
def input? : Call F P → Option (Credential F P)
  | addInput input => some input
  | _ => none

/-- The fee that a call sets. -/
def fee? : Call F P → Option UInt64
  | setFee fee => some fee
  | _ => none

/-- The tombstone block that a call sets. -/
def tombstone? : Call F P → Option UInt64
  | setTombstone tombstone => some tombstone
  | _ => none

variable [ScalarEncoding F] [ScalarHash F] [NatCast F] [SMul F P] [MultiScalar F P]
variable [PointEncoding P] [PointHash P] [BasePoint P] [Add P]

/-- The output that a call adds. -/
def output? : Call F P → Option (SentOutput P)
  | addOutput value recipient hint source =>
    some (.create value recipient (RandomSource.scalar.run source : F × RandomSource).1 hint)
  | addSent output => some output
  | _ => none

/-- The builder behind a call. -/
def apply (b : Builder F P) : Call F P → Builder F P
  | addInput input => b.addInput input
  | addOutput value recipient hint source => ((b.addOutput value recipient hint).run source).1.1
  | addSent output => b.addSent output
  | setFee fee => b.setFee fee
  | setTombstone tombstone => b.setTombstone tombstone

end Call

section Calls
variable [ScalarEncoding F] [ScalarHash F] [NatCast F] [SMul F P] [MultiScalar F P]
variable [PointEncoding P] [PointHash P] [BasePoint P] [Add P]

theorem apply_eq (b : Builder F P) (call : Call F P) :
    call.apply b = ⟨b.inputs ++ call.input?.toList, b.outputs ++ call.output?.toList,
      call.fee?.getD b.fee, call.tombstone?.getD b.tombstone⟩ := by
  cases call with
  | addInput input => simp [Call.apply, Call.input?, Call.output?, Call.fee?, Call.tombstone?, addInput]
  | addOutput value recipient hint source =>
    change b.addSent (.create value recipient (RandomSource.scalar.run source).1 hint) = _
    simp [Call.input?, Call.output?, Call.fee?, Call.tombstone?, addSent]
  | addSent output => simp [Call.apply, Call.input?, Call.output?, Call.fee?, Call.tombstone?, addSent]
  | setFee fee => simp [Call.apply, Call.input?, Call.output?, Call.fee?, Call.tombstone?, setFee]
  | setTombstone tombstone =>
    simp [Call.apply, Call.input?, Call.output?, Call.fee?, Call.tombstone?, setTombstone]

/-- All calls add their inputs and outputs in order, and the last fee and tombstone block stay. -/
theorem foldl_apply (b : Builder F P) (calls : List (Call F P)) :
    calls.foldl Call.apply b =
      ⟨b.inputs ++ calls.filterMap Call.input?, b.outputs ++ calls.filterMap Call.output?,
        (calls.filterMap Call.fee?).getLastD b.fee,
        (calls.filterMap Call.tombstone?).getLastD b.tombstone⟩ := by
  induction calls generalizing b with
  | nil => simp
  | cons call calls ih =>
    rw [List.foldl_cons, ih, apply_eq]
    cases call <;> simp only [List.filterMap_cons, Call.input?, Call.output?, Call.fee?, Call.tombstone?,
      Option.toList_none, Option.toList_some, List.append_nil, List.append_assoc, List.singleton_append,
      Option.getD_none, Option.getD_some, List.getLastD_cons]

end Calls

/-! ### What is signed -/

/-- The key by which rings are sorted: that of the first member. -/
def ringKey [PointEncoding P] (ring : List (Output P)) : Bytes :=
  (ring.head?.map Output.sortKey).getD []

theorem isLeast_foldl_min (t : UInt64) (ts : List UInt64) :
    IsLeast {u | u = t ∨ u ∈ ts} (ts.foldl min t) := by
  induction ts generalizing t with
  | nil =>
    refine ⟨.inl rfl, fun u hu => ?_⟩
    rcases hu with rfl | hu
    · exact UInt64.le_refl u
    · cases hu
  | cons v ts ih =>
    obtain ⟨hmem, hle⟩ := ih (min t v)
    -- the result is at most the least of the first two numbers, and so at most both
    have hmin := hle (.inl rfl)
    constructor
    · rcases hmem with hmem | hmem
      · rcases Std.min_eq_or (a := t) (b := v) with h | h
        · exact .inl (hmem.trans h)
        · exact .inr (by rw [List.foldl_cons, hmem, h]; exact List.mem_cons_self)
      · exact .inr (List.mem_cons_of_mem v hmem)
    · intro u hu
      rcases hu with rfl | hu
      · exact UInt64.le_trans hmin Std.min_le_left
      rcases List.mem_cons.mp hu with rfl | hu
      · exact UInt64.le_trans hmin Std.min_le_right
      · exact hle (.inr hu)

section Body
variable [PointEncoding P] (b : Builder F P)

theorem isStableSort_inputs : IsStableSort ringKey (b.inputs.map (·.ring)) b.body.inputs :=
  .map (f := Credential.ring) (isStableSort_sortByKey _ b.inputs)

theorem isStableSort_outputs : IsStableSort Output.sortKey (b.outputs.map (·.output)) b.body.outputs :=
  .map (f := SentOutput.output) (isStableSort_sortByKey _ b.outputs)

theorem isLeast_tombstone :
    IsLeast {t | t = b.tombstone ∨ ∃ sent ∈ b.outputs, sent.expiry = some t} b.body.tombstone := by
  have h := isLeast_foldl_min b.tombstone (b.outputs.filterMap (·.expiry))
  simp only [List.mem_filterMap] at h
  exact h

end Body

/-! ### The signed transaction -/

section Build
variable [Field F] [AddCommGroup P] [Module F P] [MultiScalar F P] [ScalarEncoding F] [ScalarHash F]
variable [PointEncoding P] [PointHash P] [BasePoint P] [BEq P] {b : Builder F P}
variable {secrets : List (InputSecret F)} {openings : List (Opening F)}

theorem secrets_eq_ok (h : b.secrets = .ok (secrets, openings)) :
    List.Forall₂ (fun input secret => inputSecret input = .ok secret) b.sortedInputs secrets ∧
      List.Forall₂ (fun sent opening => sent.unmask F = .ok opening) b.sortedOutputs openings := by
  obtain ⟨secrets', hsecrets, h⟩ := bind_eq_ok.mp h
  obtain ⟨openings', hopenings, h⟩ := bind_eq_ok.mp h
  obtain ⟨rfl, rfl⟩ := Prod.mk.inj (pure_eq_ok.mp h)
  exact ⟨mapM_eq_ok.mp hsecrets, mapM_eq_ok.mp hopenings⟩

theorem commitOutputs_of_secrets [LawfulBEq P] (h : b.secrets = .ok (secrets, openings)) :
    TxSignature.commitOutputs openings = b.body.outputCommitments := by
  obtain ⟨-, hopenings⟩ := secrets_eq_ok h
  unfold body TxBody.outputCommitments TxSignature.commitOutputs
  rw [List.map_map, ← List.forall₂_eq_eq_eq, List.forall₂_map_left_iff, List.forall₂_map_right_iff]
  exact hopenings.flip.imp fun opening sent hunmask => MaskedAmount.commitment_of_unmask hunmask

theorem ownsMembers_of_secrets [LawfulBEq P] (h : b.secrets = .ok (secrets, openings))
    (hcreated : ∀ input ∈ b.inputs, input.IsCreated) :
    TxSignature.OwnsMembers b.body.reducedRings (b.sortedInputs.map (·.realIndex)) secrets := by
  obtain ⟨hsecrets, -⟩ := secrets_eq_ok h
  intro i ring index secret member hring hindex hsecret hmember
  obtain ⟨input, hinput, hunmask⟩ := exists_of_forall₂ hsecrets hsecret
  obtain ⟨opening, -, hopening⟩ := bind_eq_ok.mp hunmask
  obtain rfl := pure_eq_ok.mp hopening
  simp only [body, TxBody.reducedRings, List.getElem?_map, hinput, Option.map_some, Option.some.injEq]
    at hring hindex
  subst hring hindex
  rw [List.getElem?_map] at hmember
  obtain ⟨output, houtput, rfl⟩ := Option.map_eq_some_iff.mp hmember
  have hmem : input ∈ b.inputs :=
    (isStableSort_sortByKey _ b.inputs).perm.mem_iff.mp (List.mem_of_getElem? hinput)
  exact (hcreated input hmem).owns houtput

theorem onetimeKeys_of_secrets (h : b.secrets = .ok (secrets, openings)) :
    secrets.map (·.onetimeKey) = b.sortedInputs.map (·.onetimeKey) := by
  obtain ⟨hsecrets, -⟩ := secrets_eq_ok h
  rw [← List.forall₂_eq_eq_eq, List.forall₂_map_left_iff, List.forall₂_map_right_iff]
  refine hsecrets.flip.imp fun secret input hunmask => ?_
  obtain ⟨opening, -, hopening⟩ := bind_eq_ok.mp hunmask
  obtain rfl := pure_eq_ok.mp hopening
  rfl

variable {T : Type} [Transcript T] [BEq F]
variable {gens : Generators P} {source : RandomSource} {tx : Tx F P}

/-- A built transaction has the sorted inputs and outputs, signed by their secrets. -/
theorem build_eq_ok (h : ((b.build T gens).run source).1 = .ok tx) :
    tx.body = b.body ∧ ∃ secrets openings, b.secrets = .ok (secrets, openings) ∧
      ((TxSignature.sign T gens (b.body.digest T) b.body.reducedRings (b.sortedInputs.map (·.realIndex))
        secrets openings b.fee).run source).1 = .ok tx.signature := by
  obtain ⟨⟨⟩, -, h⟩ := fst_run_check_bind_eq_ok.mp h
  obtain ⟨⟨secrets, openings⟩, hsecrets, h⟩ := fst_run_check_bind_eq_ok.mp h
  obtain ⟨signature, s₁, hsign, h⟩ := fst_run_bind_eq_ok.mp h
  obtain rfl := Except.ok.inj h
  exact ⟨rfl, secrets, openings, hsecrets, congrArg Prod.fst hsign⟩

variable [LawfulMultiScalar F P] [LawfulBEq F] [LawfulBEq P]
variable [LawfulScalarEncoding F] [LawfulPointEncoding P]

/-- A transaction built from created credentials is accepted, if its key images differ and nothing is zero
that must not be. -/
theorem verify_of_build (hsize : amountBits * gens.parties < 2 ^ 32)
    (h : ((b.build T gens).run source).1 = .ok tx) (hcreated : ∀ input ∈ b.inputs, input.IsCreated)
    (hdistinct : (b.inputs.map fun input => (keyImage input.onetimeKey : P)).Nodup)
    (hnonzero : ∀ input ∈ b.inputs, (keyImage input.onetimeKey : P) ≠ 0)
    (hproof : ∀ proof : RangeProof F P, RangeProof.ofBytes tx.signature.rangeProof = .ok proof →
      RegularAmounts T proof (tx.signature.pseudoOutputs ++ tx.body.outputCommitments))
    (source' : RandomSource) : ((tx.verify T gens).run source').1 = .ok () := by
  obtain ⟨hbody, secrets, openings, hsecrets, hsign⟩ := build_eq_ok h
  obtain ⟨blindings, proof, hmade⟩ := TxSignature.madeBy_of_sign hsign
  have hperm := (isStableSort_sortByKey (fun input => ringKey input.ring) b.inputs).perm
  have himages : tx.signature.keyImages = b.sortedInputs.map fun input => keyImage input.onetimeKey := by
    have hkeys := congrArg (List.map fun x => (keyImage x : P)) (onetimeKeys_of_secrets hsecrets)
    rw [List.map_map, List.map_map] at hkeys
    exact hmade.keyImages_eq.trans hkeys
  have hregular : tx.signature.IsRegular T (TxSignature.commitOutputs openings) := by
    refine ⟨?_, ?_, ?_⟩
    · rw [himages]
      exact (hperm.map _).nodup_iff.mpr hdistinct
    · rw [himages]
      intro image himage
      obtain ⟨input, hinput, rfl⟩ := List.mem_map.mp himage
      exact hnonzero input (hperm.mem_iff.mp hinput)
    · rw [commitOutputs_of_secrets hsecrets, ← hbody]
      exact hproof
  have hverify := hmade.verify hsize (ownsMembers_of_secrets hsecrets hcreated) hregular source'
  rw [commitOutputs_of_secrets hsecrets] at hverify
  rw [Tx.verify, hbody]
  exact hverify

/-- **Built transactions.**  Whatever calls a builder has seen, with credentials that were created and with
any outputs, and whatever table of generators and random source it signs with: a transaction that it gives
has the rings and the outputs that were added, sorted by the key of the first member and by their own key
with ties in the order of the calls, the last fee, and the least of the last tombstone block and all
expiries.  It is accepted from every source, if the key images of the inputs differ and nothing is zero that
must not be. -/
theorem sorted_and_accepted (stream : Bytes → ℕ → Bytes) (calls : List (Call F P)) (fee tombstone : UInt64)
    (h : (((calls.foldl Call.apply (empty fee tombstone)).build T (.build stream 64 64)).run source).1 =
      .ok tx)
    (hcreated : ∀ input ∈ calls.filterMap Call.input?, input.IsCreated) :
    IsStableSort ringKey ((calls.filterMap Call.input?).map (·.ring)) tx.body.inputs ∧
    IsStableSort Output.sortKey ((calls.filterMap Call.output?).map (·.output)) tx.body.outputs ∧
    tx.body.fee = (calls.filterMap Call.fee?).getLastD fee ∧
    IsLeast {t | t = (calls.filterMap Call.tombstone?).getLastD tombstone ∨
      ∃ sent ∈ calls.filterMap Call.output?, sent.expiry = some t} tx.body.tombstone ∧
    (((calls.filterMap Call.input?).map fun input => (keyImage input.onetimeKey : P)).Nodup →
      (∀ input ∈ calls.filterMap Call.input?, (keyImage input.onetimeKey : P) ≠ 0) →
      (∀ proof : RangeProof F P, RangeProof.ofBytes tx.signature.rangeProof = .ok proof →
        RegularAmounts T proof (tx.signature.pseudoOutputs ++ tx.body.outputCommitments)) →
      ∀ source', ((tx.verify T (.build stream 64 64)).run source').1 = .ok ()) := by
  have hsize : amountBits * (Generators.build stream 64 64 : Generators P).parties < 2 ^ 32 := by
    rw [Generators.parties_build]
    decide
  let b : Builder F P := ⟨calls.filterMap Call.input?, calls.filterMap Call.output?,
    (calls.filterMap Call.fee?).getLastD fee, (calls.filterMap Call.tombstone?).getLastD tombstone⟩
  have hb : calls.foldl Call.apply (empty fee tombstone) = b := foldl_apply _ _
  rw [hb] at h
  obtain ⟨hbody, -⟩ := build_eq_ok h
  rw [hbody]
  refine ⟨b.isStableSort_inputs, b.isStableSort_outputs, rfl, b.isLeast_tombstone,
    fun hdistinct hnonzero hproof => verify_of_build hsize h hcreated hdistinct hnonzero ?_⟩
  rwa [hbody]

end Build

/-! ### A transfer with change -/

/-- Outputs with the public keys from 1 to 12. -/
def decoys : List (Output Residue) :=
  (List.range 12).map fun i : ℕ => ⟨⟨(i : Residue), 0⟩, ((100 + i : ℕ) : Residue), ((1 + i : ℕ) : Residue), []⟩

/-- An output of 200, with the public key of one of the others. -/
def spent : Output Residue := ⟨.create Residue 200 (sharedSecret (4 : Residue) 6), 5, 6, []⟩

/-- The credential of its owner. -/
def credential : Credential Residue Residue := ⟨canonicalRing spent decoys, 4, 5, 4⟩

/-- Outputs with the public keys from 21 to 32. -/
def decoysToo : List (Output Residue) :=
  decoys.map fun decoy => { decoy with publicKey := decoy.publicKey + 20 }

/-- An output of 50, with the public key of one of these. -/
def spentToo : Output Residue := ⟨.create Residue 50 (sharedSecret (6 : Residue) 26), 7, 26, []⟩

/-- The credential of its owner. -/
def credentialToo : Credential Residue Residue := ⟨canonicalRing spentToo decoysToo, 4, 7, 6⟩

/-- An output of 190 with an expiry. -/
def received : SentOutput Residue :=
  { SentOutput.create 190 ⟨9, 8⟩ (3 : Residue) [1, 2] with expiry := some 70 }

/-- What the sender keeps. -/
def change : SentOutput Residue := .create 50 ⟨9, 8⟩ (2 : Residue) []

/-- Calls in which nothing is in the order of a transaction. -/
def transfer : List (Call Residue Residue) :=
  [.setFee 10, .addInput credentialToo, .addSent received, .addSent change, .setTombstone 100,
    .addInput credential]

theorem isCreated_of_transfer : ∀ input ∈ transfer.filterMap Call.input?, input.IsCreated := by
  have hfound : (canonicalRing spent decoys).findIdx? (· == spent) = some 4 := by decide +kernel
  have hfound' : (canonicalRing spentToo decoysToo).findIdx? (· == spentToo) = some 4 := by decide +kernel
  intro input hinput
  rcases List.mem_pair.mp hinput with rfl | rfl
  · exact ⟨spentToo, decoysToo, 7, 6, Credential.create_eq_ok_iff.mpr ⟨by decide +kernel, 4, hfound', rfl⟩⟩
  · exact ⟨spent, decoys, 5, 4, Credential.create_eq_ok_iff.mpr ⟨by decide +kernel, 4, hfound, rfl⟩⟩

theorem sortedInputs_transfer :
    (transfer.foldl Call.apply (empty 0 0)).sortedInputs = [credential, credentialToo] :=
  (isStableSort_sortByKey _ [credentialToo, credential]).eq_of_nodup (.swap credentialToo credential [])
    (by decide +kernel) (by decide +kernel)

theorem sortedOutputs_transfer :
    (transfer.foldl Call.apply (empty 0 0)).sortedOutputs = [change, received] :=
  (isStableSort_sortByKey _ [received, change]).eq_of_nodup (.swap received change [])
    (by decide +kernel) (by decide +kernel)

theorem secrets_transfer : (transfer.foldl Call.apply (empty 0 0)).secrets =
    .ok ([⟨5, 200, 42⟩, ⟨7, 50, 174⟩], TxSignature.transferOutputs) := by
  unfold secrets
  rw [sortedInputs_transfer, sortedOutputs_transfer]
  rfl

/-- The transfer is built.  It has the amounts of the one that is signed in `TxCompleteness.lean`, so nothing
in its range proof is zero either. -/
theorem exists_transfer : ∃ tx : Tx Residue Residue,
    (((transfer.foldl Call.apply (empty 0 0)).build Residue.Transcript
      (.build Residue.stream 64 64)).run TxSignature.transferSource).1 = .ok tx ∧
    ∀ proof : RangeProof Residue Residue, RangeProof.ofBytes tx.signature.rangeProof = .ok proof →
      RegularAmounts Residue.Transcript proof (tx.signature.pseudoOutputs ++ tx.body.outputCommitments) := by
  have hrun : (((transfer.foldl Call.apply (empty 0 0)).build Residue.Transcript
      (.build Residue.stream 64 64)).run TxSignature.transferSource).1.toOption.any
        (fun _ : Tx Residue Residue => true) = true := by
    unfold build body secrets
    rw [sortedInputs_transfer, sortedOutputs_transfer]
    decide +kernel
  obtain ⟨tx, h, -⟩ := any_toOption_iff.mp hrun
  refine ⟨tx, h, ?_⟩
  obtain ⟨hbody, secrets, openings, hsecrets, hsign⟩ := build_eq_ok h
  obtain ⟨rfl, rfl⟩ := Prod.mk.inj (Except.ok.inj (hsecrets.symm.trans secrets_transfer))
  obtain ⟨signature, hsigned, hregular⟩ := TxSignature.exists_transfer
  have hrings : (transfer.foldl Call.apply (empty 0 0)).body.reducedRings.length =
      TxSignature.transferRings.length := by
    unfold body
    rw [sortedInputs_transfer]
    rfl
  obtain ⟨hrange, hpseudo⟩ := TxSignature.rangeProof_congr hsign hsigned hrings rfl
  rw [hbody, ← commitOutputs_of_secrets hsecrets, hrange, hpseudo]
  exact hregular.rangeProof

/-- The transfer is built and accepted, with its inputs and its outputs in the other order. -/
theorem sorted_and_accepted_transfer : ∃ tx : Tx Residue Residue,
    (((transfer.foldl Call.apply (empty 0 0)).build Residue.Transcript
      (.build Residue.stream 64 64)).run TxSignature.transferSource).1 = .ok tx ∧
    (∀ input ∈ transfer.filterMap Call.input?, input.IsCreated) ∧
    tx.body.inputs = [credential.ring, credentialToo.ring] ∧
    tx.body.outputs = [change.output, received.output] ∧ tx.body.fee = 10 ∧
    ∀ source', ((tx.verify Residue.Transcript (.build Residue.stream 64 64)).run source').1 = .ok () := by
  obtain ⟨tx, h, hproof⟩ := exists_transfer
  obtain ⟨hinputs, houtputs, hfee, -, hverify⟩ :=
    sorted_and_accepted Residue.stream transfer 0 0 h isCreated_of_transfer
  refine ⟨tx, h, isCreated_of_transfer, ?_, ?_, hfee, hverify (by decide +kernel) (by decide +kernel) hproof⟩
  · exact hinputs.eq_of_nodup (.swap credentialToo.ring credential.ring []) (by decide +kernel)
      (by decide +kernel)
  · exact houtputs.eq_of_nodup (.swap received.output change.output []) (by decide +kernel)
      (by decide +kernel)

end Builder
end ConfidentialTx
