import ConfidentialTx.Proofs.RingSize

/-! # The order of a builder's calls

A transaction does not show in which order its inputs and outputs were added, so nobody learns which output
was the change.  The sort comes first: every position, secret, digest and draw behind it is of the sorted
lists, and these are the same from every order if the keys by which they are sorted differ.  What comes
before the sort, the checks and the least expiry, does not ask for an order either.

* `Builder.SameContent`: the same inputs and outputs in any order.
* `Builder.HasDistinctKeys`: the keys by which a builder sorts all differ.
* `Builder.check_congr`, `Builder.sortedInputs_congr`, `Builder.sortedOutputs_congr`,
  `Builder.tombstoneBlock_congr`: the parts of a build, and `Builder.build_congr`: all of it.
* `Builder.build_of_perm`: so calls that add the same give the same transaction, or the same error. -/

namespace ConfidentialTx
namespace Builder
variable {F P : Type} {b b' : Builder F P}

/-! ### Content -/

/-- Whether two builders hold the same, except for the order of their inputs and outputs. -/
structure SameContent (b b' : Builder F P) : Prop where
  inputs : b.inputs.Perm b'.inputs
  outputs : b.outputs.Perm b'.outputs
  fee : b.fee = b'.fee
  tombstone : b.tombstone = b'.tombstone

/-- Whether all rings have the size that is asked for, with first members that differ in their public keys,
and the outputs differ in theirs. -/
structure HasDistinctKeys (b : Builder F P) : Prop where
  size : ∀ input ∈ b.inputs, input.ring.length = ringSize
  inputs : (b.inputs.map fun input => input.ring.head?.map (·.publicKey)).Nodup
  outputs : (b.outputs.map (·.output.publicKey)).Nodup

theorem SameContent.firstOddRing_eq_none (h : SameContent b b') (hkeys : b.HasDistinctKeys) :
    b.firstOddRing = none ∧ b'.firstOddRing = none := by
  constructor
  · exact firstOddRing_eq_none_iff.mpr hkeys.size
  · refine firstOddRing_eq_none_iff.mpr fun input hinput => hkeys.size input ?_
    exact h.inputs.mem_iff.mpr hinput

theorem check_congr (h : SameContent b b') (hkeys : b.HasDistinctKeys) : b.check = b'.check := by
  obtain ⟨hnone, hnone'⟩ := h.firstOddRing_eq_none hkeys
  have hinputs : b.inputs = [] ↔ b'.inputs = [] := by
    rw [← List.length_eq_zero_iff, ← List.length_eq_zero_iff, h.inputs.length_eq]
  have houtputs : b.outputs = [] ↔ b'.outputs = [] := by
    rw [← List.length_eq_zero_iff, ← List.length_eq_zero_iff, h.outputs.length_eq]
  rw [check_eq, check_eq, hnone, hnone']
  simp only [hinputs, houtputs, h.inputs.length_eq]

section Sorted
variable [PointEncoding P]

/-- The least expiry is that of some output, whatever its position. -/
theorem tombstoneBlock_congr (h : SameContent b b') : b.tombstoneBlock = b'.tombstoneBlock := by
  have hleast := b.isLeast_tombstone
  have hleast' := b'.isLeast_tombstone
  have hset : {t | t = b.tombstone ∨ ∃ sent ∈ b.outputs, sent.expiry = some t} =
      {t | t = b'.tombstone ∨ ∃ sent ∈ b'.outputs, sent.expiry = some t} := by
    simp only [h.tombstone, h.outputs.mem_iff]
  rw [hset] at hleast
  exact UInt64.le_antisymm (hleast.2 hleast'.1) (hleast'.2 hleast.1)

theorem exists_head_of_size {ring : List (Output P)} (h : ring.length = ringSize) :
    ∃ first, ring.head? = some first ∧ ringKey ring = first.sortKey := by
  obtain ⟨first, rest, rfl⟩ : ∃ first rest, ring = first :: rest :=
    List.exists_cons_of_length_pos (h ▸ Nat.succ_pos 10)
  exact ⟨first, rfl, rfl⟩

variable [LawfulPointEncoding P]

theorem HasDistinctKeys.nodup_ringKey (hkeys : b.HasDistinctKeys) :
    (b.inputs.map fun input => ringKey input.ring).Nodup := by
  refine List.Nodup.map_on ?_ (List.Nodup.of_map _ hkeys.inputs)
  intro input hinput input' hinput' hkey
  obtain ⟨first, hfirst, hringKey⟩ := exists_head_of_size (hkeys.size input hinput)
  obtain ⟨first', hfirst', hringKey'⟩ := exists_head_of_size (hkeys.size input' hinput')
  -- equal encodings are those of one public key, and only one input has it in front
  have hpublic : first.publicKey = first'.publicKey :=
    encode_point_injective (hringKey.symm.trans (hkey.trans hringKey'))
  refine List.inj_on_of_nodup_map hkeys.inputs hinput hinput' ?_
  show input.ring.head?.map _ = input'.ring.head?.map _
  rw [hfirst, hfirst', Option.map_some, Option.map_some, hpublic]

theorem HasDistinctKeys.nodup_sortKey (hkeys : b.HasDistinctKeys) :
    (b.outputs.map (·.output.sortKey)).Nodup := by
  have h := hkeys.outputs.map encode_point_injective
  rwa [List.map_map] at h

theorem sortedInputs_congr (h : SameContent b b') (hkeys : b.HasDistinctKeys) :
    b.sortedInputs = b'.sortedInputs :=
  sortByKey_congr h.inputs hkeys.nodup_ringKey

theorem sortedOutputs_congr (h : SameContent b b') (hkeys : b.HasDistinctKeys) :
    b.sortedOutputs = b'.sortedOutputs :=
  sortByKey_congr h.outputs hkeys.nodup_sortKey

theorem body_congr (h : SameContent b b') (hkeys : b.HasDistinctKeys) : b.body = b'.body := by
  unfold body
  rw [sortedInputs_congr h hkeys, sortedOutputs_congr h hkeys, h.fee, tombstoneBlock_congr h]

end Sorted

/-! ### Builds -/

section Build
variable [ScalarEncoding F] [ScalarHash F] [NatCast F] [SMul F P] [MultiScalar F P]
variable [PointEncoding P] [LawfulPointEncoding P] [PointHash P] [BasePoint P] [BEq P]

theorem secrets_congr (h : SameContent b b') (hkeys : b.HasDistinctKeys) : b.secrets = b'.secrets := by
  unfold secrets
  rw [sortedInputs_congr h hkeys, sortedOutputs_congr h hkeys]

variable [Add P] [Sub P] [Zero P] [Add F] [Sub F] [Mul F] [Inv F] [Zero F] [One F] [BEq F]

/-- Behind the checks a build reads nothing but the sorted lists, the fee and the tombstone block. -/
theorem build_congr (T : Type) [Transcript T] (gens : Generators P) (h : SameContent b b')
    (hkeys : b.HasDistinctKeys) : b.build T gens = b'.build T gens := by
  unfold build
  rw [check_congr h hkeys, body_congr h hkeys, secrets_congr h hkeys, sortedInputs_congr h hkeys, h.fee]

/-- **The order of calls.**  Take any two sequences of calls that add the same inputs and the same outputs, in
whatever order, and that end with the same fee and the same tombstone block.  If every ring has the size that
is asked for, the first members of the rings differ in their public keys and so do the outputs, then from
every random source, with every table of generators, both builders give the same transaction or the same
error, and leave the same source behind. -/
theorem build_of_perm (T : Type) [Transcript T] (gens : Generators P) {calls calls' : List (Call F P)}
    (fee fee' tombstone tombstone' : UInt64)
    (hinputs : (calls.filterMap Call.input?).Perm (calls'.filterMap Call.input?))
    (houtputs : (calls.filterMap Call.output?).Perm (calls'.filterMap Call.output?))
    (hfee : (calls.filterMap Call.fee?).getLastD fee = (calls'.filterMap Call.fee?).getLastD fee')
    (htombstone : (calls.filterMap Call.tombstone?).getLastD tombstone =
      (calls'.filterMap Call.tombstone?).getLastD tombstone')
    (hsize : ∀ input ∈ calls.filterMap Call.input?, input.ring.length = ringSize)
    (hfirst : ((calls.filterMap Call.input?).map fun input => input.ring.head?.map (·.publicKey)).Nodup)
    (hpublic : ((calls.filterMap Call.output?).map (·.output.publicKey)).Nodup) (source : RandomSource) :
    ((calls.foldl Call.apply (empty fee tombstone)).build T gens).run source =
      ((calls'.foldl Call.apply (empty fee' tombstone')).build T gens).run source := by
  rw [foldl_apply, foldl_apply]
  have hsame : SameContent (P := P) ⟨[] ++ calls.filterMap Call.input?, [] ++ calls.filterMap Call.output?,
      (calls.filterMap Call.fee?).getLastD fee, (calls.filterMap Call.tombstone?).getLastD tombstone⟩
      ⟨[] ++ calls'.filterMap Call.input?, [] ++ calls'.filterMap Call.output?,
        (calls'.filterMap Call.fee?).getLastD fee', (calls'.filterMap Call.tombstone?).getLastD tombstone'⟩ :=
    ⟨hinputs, houtputs, hfee, htombstone⟩
  exact congrArg (fun build => build.run source) (build_congr T gens hsame ⟨hsize, hfirst, hpublic⟩)

end Build

/-! ### The transfer in another order -/

/-- The transfer with the change added before the payment, and the inputs the other way round. -/
def changeFirst : List (Call Residue Residue) :=
  [.addSent change, .setFee 3, .addInput credential, .addSent received, .setFee 10, .addInput credentialToo]

/-- Nothing in the transaction tells where the change was added. -/
theorem build_of_perm_change :
    (transfer.filterMap Call.output?).Perm (changeFirst.filterMap Call.output?) ∧
    transfer.filterMap Call.output? ≠ changeFirst.filterMap Call.output? ∧
    ((transfer.foldl Call.apply (empty 0 0)).build Residue.Transcript
      (.build Residue.stream 64 64)).run TxSignature.transferSource =
    ((changeFirst.foldl Call.apply (empty 0 100)).build Residue.Transcript
      (.build Residue.stream 64 64)).run TxSignature.transferSource ∧
    ∃ tx : Tx Residue Residue, (((changeFirst.foldl Call.apply (empty 0 100)).build Residue.Transcript
      (.build Residue.stream 64 64)).run TxSignature.transferSource).1 = .ok tx := by
  have hinputs : (transfer.filterMap Call.input?).Perm (changeFirst.filterMap Call.input?) :=
    .swap credential credentialToo []
  have houtputs : (transfer.filterMap Call.output?).Perm (changeFirst.filterMap Call.output?) :=
    .swap change received []
  have hsize : ∀ input ∈ transfer.filterMap Call.input?, input.ring.length = ringSize := by
    decide +kernel
  have hfirst : ((transfer.filterMap Call.input?).map fun input =>
      input.ring.head?.map (·.publicKey)).Nodup := by
    decide +kernel
  have hpublic : ((transfer.filterMap Call.output?).map (·.output.publicKey)).Nodup := by
    decide +kernel
  have hsame := build_of_perm Residue.Transcript (.build Residue.stream 64 64) 0 0 0 100
    hinputs houtputs rfl rfl hsize hfirst hpublic TxSignature.transferSource
  obtain ⟨tx, h, -⟩ := exists_transfer
  refine ⟨houtputs, ?_, hsame, tx, hsame ▸ h⟩
  -- the payment has another hint than the change
  intro heq
  have hhint := congrArg (fun outputs => outputs.map (·.output.hint)) heq
  exact absurd hhint (by decide +kernel)

end Builder
end ConfidentialTx
