import ConfidentialTx.Proofs.Balance
import ConfidentialTx.Proofs.Padding
import ConfidentialTx.Proofs.RingAgreement
import ConfidentialTx.Proofs.Wire

/-! # Completeness of transaction signatures

A signature that the signer gives for ring members of its own is accepted over the same message, rings,
outputs and fee: `TxSignature.verify_of_sign`.

* `TxSignature.MadeBy`: how a signature came about, with the blinding factors of its pseudo-outputs and
  its range proof (`TxSignature.madeBy_of_sign`).
* `TxSignature.rangeProof_congr`: nothing but the amounts and the source enters its range proof.
* `TxSignature.MadeBy.pseudoOutputs_eq`: the pseudo-outputs commit to the values that are spent.
* `TxSignature.MadeBy.rangeProof_accepted`, `TxSignature.MadeBy.balances`,
  `TxSignature.MadeBy.ringSignature_accepted`: the checks of the verifier, one by one. -/

namespace ConfidentialTx

theorem allDistinct_iff {xs : List Bytes} : allDistinct xs = true ↔ xs.Nodup := by
  induction xs with
  | nil => simp [allDistinct]
  | cons x xs ih => simp [allDistinct, ih]

theorem ofBytes_of_provePadded {F P T : Type} [Transcript T] [Field F] [AddCommGroup P] [Module F P]
    [MultiScalar F P] [LawfulMultiScalar F P] [ScalarEncoding F] [LawfulScalarEncoding F]
    [PointEncoding P] [LawfulPointEncoding P] [BEq F] [LawfulBEq F] {gens : Generators P}
    {key : CommitmentKey P} {values : List UInt64} {blindings : List F} {proof : RangeProof F P}
    {commitments : List P} {source : RandomSource}
    (h : ((provePadded T gens key values blindings).run source).1 = .ok (proof, commitments))
    (hsize : amountBits * gens.parties < 2 ^ 32) :
    RangeProof.ofBytes proof.toBytes = .ok proof := by
  obtain ⟨-, -, dealer, shares, inner, ch, t, hmade⟩ := madeBy_of_provePadded T h
  have hm := (Nat.mul_le_mul_left amountBits hmade.fit.parties).trans_lt hsize
  have hne := Nat.mul_ne_zero (by decide : amountBits ≠ 0) hmade.fit.parties_ne
  refine RangeProof.ofBytes_toBytes ?_ ?_
  · rw [hmade.lengths.1]
    exact (Nat.log2_lt hne).mpr hm
  · rw [hmade.lengths.1, hmade.lengths.2]

namespace TxSignature

theorem requests_getElem?_eq_some_iff {F P : Type} {message : Bytes}
    {rings : List (List (RingMember P))} {indices : List ℕ} {secrets : List (InputSecret F)}
    {blindings : List F} {pseudoOutputs : List P} {i : ℕ} {request : SigningRequest F P} :
    (requests message rings indices secrets blindings pseudoOutputs)[i]? = some request ↔
      rings[i]? = some request.ring ∧ indices[i]? = some request.realIndex ∧
        secrets[i]? = some ⟨request.onetimeKey, request.value, request.blinding⟩ ∧
        blindings[i]? = some request.pseudoBlinding ∧
        pseudoOutputs[i]? = some request.pseudoOutput ∧ request.message = message := by
  constructor
  · intro h
    obtain ⟨⟨ring, index, secret⟩, ⟨blinding, output⟩, hinput, houtput, rfl⟩ :=
      List.getElem?_zipWith_eq_some.mp h
    obtain ⟨hring, hinput⟩ := List.getElem?_zip_eq_some.mp hinput
    obtain ⟨hindex, hsecret⟩ := List.getElem?_zip_eq_some.mp hinput
    obtain ⟨hblinding, houtput⟩ := List.getElem?_zip_eq_some.mp houtput
    exact ⟨hring, hindex, hsecret, hblinding, houtput, rfl⟩
  · rintro ⟨hring, hindex, hsecret, hblinding, houtput, rfl⟩
    have hinput : (rings.zip (indices.zip secrets))[i]? = some (request.ring, request.realIndex,
        ⟨request.onetimeKey, request.value, request.blinding⟩) :=
      List.getElem?_zip_eq_some.mpr ⟨hring, List.getElem?_zip_eq_some.mpr ⟨hindex, hsecret⟩⟩
    have houtput : (blindings.zip pseudoOutputs)[i]? =
        some (request.pseudoBlinding, request.pseudoOutput) :=
      List.getElem?_zip_eq_some.mpr ⟨hblinding, houtput⟩
    exact List.getElem?_zipWith_eq_some.mpr ⟨_, _, hinput, houtput, rfl⟩

variable {F P : Type} [Field F] [AddCommGroup P] [Module F P] [MultiScalar F P]
variable [ScalarEncoding F] [ScalarHash F] [PointEncoding P] [PointHash P] [BasePoint P]
variable [BEq F] [BEq P]

/-- Whether the signer knows the one-time keys of the ring members at the given positions. -/
def OwnsMembers (rings : List (List (RingMember P))) (indices : List ℕ)
    (secrets : List (InputSecret F)) : Prop :=
  ∀ (i : ℕ) (ring : List (RingMember P)) (index : ℕ) (secret : InputSecret F) (member : RingMember P),
    rings[i]? = some ring → indices[i]? = some index → secrets[i]? = some secret →
      ring[index]? = some member → member.targetKey = secret.onetimeKey • base

/-- The commitments of outputs. -/
def commitOutputs (outputs : List (Opening F)) : List P :=
  outputs.map fun output => commitAmount output.value output.blinding

omit [AddCommGroup P] [Module F P] [ScalarEncoding F] [ScalarHash F] [BEq F] [BEq P] in
theorem commitOutputs_eq (outputs : List (Opening F)) :
    (commitOutputs outputs : List P) =
      List.zipWith commitAmount (outputs.map (·.value)) (outputs.map (·.blinding)) := by
  rw [List.zipWith_map, List.zipWith_self]
  rfl

/-- Whether the key images of a signature differ and nothing is zero that must not be. -/
structure IsRegular (T : Type) [Transcript T] (signature : TxSignature F P) (outputs : List P) :
    Prop where
  distinct : signature.keyImages.Nodup
  nonzero : ∀ image ∈ signature.keyImages, image ≠ 0
  rangeProof : ∀ proof : RangeProof F P, RangeProof.ofBytes signature.rangeProof = .ok proof →
    RegularAmounts T proof (signature.pseudoOutputs ++ outputs)

/-- How a signature came about. -/
structure MadeBy (T : Type) [Transcript T] (signature : TxSignature F P) (gens : Generators P)
    (message : Bytes) (rings : List (List (RingMember P))) (indices : List ℕ)
    (secrets : List (InputSecret F)) (outputs : List (Opening F)) (fee : UInt64)
    (blindings : List F) (proof : RangeProof F P) : Prop where
  fits : ShapeFits rings indices secrets outputs fee
  length_blindings : blindings.length = rings.length
  sum_blindings : blindings.sum = (outputs.map (·.blinding)).sum
  proved : ∃ source commitments,
    ((provePadded T gens .ledger (secrets.map (·.value) ++ outputs.map (·.value))
      (blindings ++ outputs.map (·.blinding))).run source).1 = .ok (proof, commitments) ∧
    signature.pseudoOutputs = commitments.take rings.length
  rangeProof_eq : signature.rangeProof = proof.toBytes
  signed : List.Forall₂
    (fun request ringSignature => ∃ source,
      ((RingSignature.sign request).run source).1 = .ok ringSignature)
    (requests (extendMessage message signature.pseudoOutputs signature.rangeProof) rings indices secrets
      blindings signature.pseudoOutputs)
    signature.ringSignatures

section
variable {T : Type} [Transcript T] {signature : TxSignature F P} {gens : Generators P}
variable {message : Bytes} {rings : List (List (RingMember P))} {indices : List ℕ}
variable {secrets : List (InputSecret F)} {outputs : List (Opening F)} {fee : UInt64}
variable {source : RandomSource}

omit [AddCommGroup P] [Module F P] [ScalarEncoding F] [ScalarHash F] [BEq F] [BEq P] in
/-- The commitments that the range proof is about, before they are padded: those to the values that are
spent, and those of the outputs. -/
theorem zipWith_commit_eq {blindings : List F}
    (hlen : (secrets.map (·.value)).length = blindings.length) :
    List.zipWith (fun v r => (CommitmentKey.ledger : CommitmentKey P).commit (v.toNat : F) r)
      (secrets.map (·.value) ++ outputs.map (·.value)) (blindings ++ outputs.map (·.blinding)) =
      List.zipWith commitAmount (secrets.map (·.value)) blindings ++ commitOutputs outputs := by
  rw [List.zipWith_append hlen, commitOutputs_eq]
  rfl

omit [ScalarHash F] [BEq P] in
theorem take_of_provePadded [LawfulMultiScalar F P] [LawfulBEq F] {inputs : ℕ} {blindings : List F}
    {proof : RangeProof F P} {commitments : List P} (hsecrets : secrets.length = inputs)
    (hblindings : blindings.length = inputs)
    (h : ((provePadded T gens .ledger (secrets.map (·.value) ++ outputs.map (·.value))
      (blindings ++ outputs.map (·.blinding))).run source).1 = .ok (proof, commitments)) :
    commitments.take inputs = List.zipWith commitAmount (secrets.map (·.value)) blindings := by
  obtain ⟨-, rfl, -⟩ := madeBy_of_provePadded T h
  have hlen : (secrets.map (·.value)).length = blindings.length := by
    rw [List.length_map, hsecrets, hblindings]
  have hspent : (List.zipWith commitAmount (secrets.map (·.value)) blindings : List P).length =
      inputs := by
    rw [List.length_zipWith, hlen, Nat.min_self, hblindings]
  have hle : inputs ≤ (List.zipWith commitAmount (secrets.map (·.value)) blindings
      ++ commitOutputs outputs : List P).length := by
    rw [List.length_append, hspent]
    omega
  rw [zipWith_commit_eq hlen, take_padToPowerOfTwo hle, List.take_left' hspent]

theorem madeBy_of_sign
    (h : ((sign T gens message rings indices secrets outputs fee).run source).1 = .ok signature) :
    ∃ blindings proof,
      signature.MadeBy T gens message rings indices secrets outputs fee blindings proof := by
  obtain ⟨⟨⟩, s₁, hshape, h⟩ := fst_run_bind_eq_ok.mp h
  obtain ⟨blindings, s₂, hblindings, h⟩ := fst_run_bind_eq_ok.mp h
  obtain ⟨⟨proof, commitments⟩, s₃, hproof, h⟩ := fst_run_bind_eq_ok.mp h
  obtain ⟨ringSignatures, s₄, hsigned, h⟩ := fst_run_bind_eq_ok.mp h
  obtain rfl := Except.ok.inj h
  have hfits := checkShape_eq_ok_iff.mp (Prod.mk.inj hshape).1
  obtain rfl := Except.ok.inj (Prod.mk.inj hblindings).1
  obtain ⟨hlen, hsum⟩ := drawBlindings_eq (mt List.length_eq_zero_iff.mp hfits.inputs)
    (outputs.map (·.blinding)).sum s₁
  refine ⟨_, proof, hfits, hlen, hsum, ⟨s₂, commitments, ?_, rfl⟩, rfl, ?_⟩
  · exact congrArg Prod.fst (run_adapt_eq_ok.mp hproof)
  · refine (forall₂_of_mapM hsigned).imp fun request ringSignature => ?_
    rintro ⟨source, hrun⟩
    exact ⟨source, congrArg Prod.fst (run_adapt_eq_ok.mp (Prod.ext hrun rfl))⟩

theorem proved_of_sign {drawn : List F × RandomSource}
    (hdrawn : (drawBlindings rings.length (outputs.map (·.blinding)).sum).run source = drawn)
    (h : ((sign T gens message rings indices secrets outputs fee).run source).1 = .ok signature) :
    ∃ (proof : RangeProof F P) (commitments : List P),
      ((provePadded T gens .ledger (secrets.map (·.value) ++ outputs.map (·.value))
        (drawn.1 ++ outputs.map (·.blinding))).run drawn.2).1 = .ok (proof, commitments) ∧
      signature.rangeProof = proof.toBytes ∧ signature.pseudoOutputs = commitments.take rings.length := by
  obtain ⟨⟨⟩, -, h⟩ := fst_run_check_bind_eq_ok.mp h
  rw [run_bind_of_ok (run_lift_of_eq hdrawn)] at h
  obtain ⟨⟨proof, commitments⟩, s₂, hproof, h⟩ := fst_run_bind_eq_ok.mp h
  obtain ⟨ringSignatures, s₃, -, h⟩ := fst_run_bind_eq_ok.mp h
  obtain rfl := Except.ok.inj h
  exact ⟨proof, commitments, congrArg Prod.fst (run_adapt_eq_ok.mp hproof), rfl, rfl⟩

/-- The range proof and the pseudo-outputs are those of the amounts: message, rings and one-time keys do not
enter. -/
theorem rangeProof_congr {message' : Bytes} {rings' : List (List (RingMember P))} {indices' : List ℕ}
    {secrets' : List (InputSecret F)} {fee' : UInt64} {signature' : TxSignature F P}
    (h : ((sign T gens message rings indices secrets outputs fee).run source).1 = .ok signature)
    (h' : ((sign T gens message' rings' indices' secrets' outputs fee').run source).1 = .ok signature')
    (hrings : rings.length = rings'.length) (hvalues : secrets.map (·.value) = secrets'.map (·.value)) :
    signature.rangeProof = signature'.rangeProof ∧ signature.pseudoOutputs = signature'.pseudoOutputs := by
  obtain ⟨proof, commitments, hproof, hrange, hpseudo⟩ := proved_of_sign rfl h
  obtain ⟨proof', commitments', hproof', hrange', hpseudo'⟩ := proved_of_sign rfl h'
  rw [hvalues, hrings] at hproof
  rw [hrings] at hpseudo
  obtain ⟨rfl, rfl⟩ := Prod.mk.inj (Except.ok.inj (hproof.symm.trans hproof'))
  exact ⟨hrange.trans hrange'.symm, hpseudo.trans hpseudo'.symm⟩

namespace MadeBy
variable {blindings : List F} {proof : RangeProof F P}
variable (h : signature.MadeBy T gens message rings indices secrets outputs fee blindings proof)
include h

theorem length_values : (secrets.map (·.value)).length = blindings.length := by
  rw [List.length_map, h.fits.length_secrets, h.length_blindings]

variable [LawfulMultiScalar F P] [LawfulBEq F]

theorem pseudoOutputs_eq :
    signature.pseudoOutputs = List.zipWith commitAmount (secrets.map (·.value)) blindings := by
  obtain ⟨source, commitments, hproved, hpseudo⟩ := h.proved
  rw [hpseudo, take_of_provePadded h.fits.length_secrets h.length_blindings hproved]

theorem length_pseudoOutputs : signature.pseudoOutputs.length = rings.length := by
  rw [h.pseudoOutputs_eq, List.length_zipWith, h.length_values, Nat.min_self, h.length_blindings]

theorem length_ringSignatures : signature.ringSignatures.length = rings.length := by
  rw [← h.signed.length_eq]
  unfold requests
  simp [h.fits.length_indices, h.fits.length_secrets, h.length_blindings, h.length_pseudoOutputs]

theorem ofBytes_rangeProof [LawfulScalarEncoding F] [LawfulPointEncoding P]
    (hsize : amountBits * gens.parties < 2 ^ 32) :
    RangeProof.ofBytes signature.rangeProof = .ok proof := by
  obtain ⟨source, commitments, hproved, -⟩ := h.proved
  rw [h.rangeProof_eq]
  exact ofBytes_of_provePadded hproved hsize

variable [LawfulBEq P]

theorem keyImages_eq : signature.keyImages = secrets.map fun secret => keyImage secret.onetimeKey := by
  apply List.ext_getElem
  · rw [keyImages, List.length_map, List.length_map, h.length_ringSignatures, h.fits.length_secrets]
  · intro i hi hi'
    obtain ⟨request, hrequest, source, hsign⟩ :=
      exists_of_forall₂ h.signed (List.getElem?_eq_getElem (by simpa [keyImages] using hi))
    obtain ⟨-, -, hsecret, -⟩ := requests_getElem?_eq_some_iff.mp hrequest
    obtain ⟨_, hsecret⟩ := List.getElem?_eq_some_iff.mp hsecret
    simp only [keyImages, List.getElem_map, RingSignature.keyImage_of_sign hsign, hsecret]

theorem rangeProof_accepted (hsize : amountBits * gens.parties < 2 ^ 32)
    (hregular : RegularAmounts T proof (signature.pseudoOutputs ++ commitOutputs outputs))
    (source' : RandomSource) :
    ((verifyPadded T gens .ledger proof (signature.pseudoOutputs ++ commitOutputs outputs)).run
      source').1 = .ok () := by
  obtain ⟨source, commitments, hproved, -⟩ := h.proved
  rw [h.pseudoOutputs_eq, ← zipWith_commit_eq h.length_values] at hregular ⊢
  exact verifyPadded_of_provePadded hproved hsize hregular source'

theorem balances : isBalanced F signature.pseudoOutputs (commitOutputs outputs) fee = true := by
  rw [h.pseudoOutputs_eq, commitOutputs_eq]
  refine isBalanced_of_total h.length_values ?_ h.fits.conserved h.sum_blindings
  rw [List.length_map, List.length_map]

/-- Every ring signature is accepted, if the signer owns the members and no key image is zero. -/
theorem ringSignature_accepted (howns : OwnsMembers rings indices secrets)
    (hnonzero : ∀ image ∈ signature.keyImages, image ≠ 0) {i : ℕ} {ring : List (RingMember P)}
    {output : P} {ringSignature : RingSignature F P}
    (hsignature : signature.ringSignatures[i]? = some ringSignature) (hring : rings[i]? = some ring)
    (houtput : signature.pseudoOutputs[i]? = some output) :
    ringSignature.verify (extendMessage message signature.pseudoOutputs signature.rangeProof) ring
      output = .ok () := by
  obtain ⟨request, hrequest, source, hsign⟩ := exists_of_forall₂ h.signed hsignature
  obtain ⟨hring', hindex, hsecret, -, houtput', hmessage⟩ := requests_getElem?_eq_some_iff.mp hrequest
  obtain rfl := Option.some.inj (hring'.symm.trans hring)
  obtain rfl := Option.some.inj (houtput'.symm.trans houtput)
  obtain ⟨member, decoys, α, hreal, hlen, hclose⟩ := RingSignature.exists_close_of_sign hsign
  obtain ⟨hmember, -⟩ := SigningRequest.realMember_eq_ok_iff.mp hreal
  have hpos : 0 < request.ring.length :=
    Nat.zero_lt_of_lt (List.getElem?_eq_some_iff.mp hmember).1
  have himage := RingSignature.keyImage_of_sign hsign
  rw [← hmessage]
  refine SigningRequest.verify_of_close hmember ?_ ?_ (by omega) hclose
  · exact howns i _ _ _ _ hring' hindex hsecret hmember
  · rw [← himage]
    exact hnonzero _ (List.mem_map_of_mem (List.mem_of_getElem? hsignature))

end MadeBy

omit [Module F P] in
theorem verify_eq_ok_iff {outputCommitments : List P} :
    ((signature.verify T gens message rings outputCommitments fee).run source).1 = .ok () ↔
      rings.length = signature.ringSignatures.length ∧
      rings.length = signature.pseudoOutputs.length ∧
      allDistinct (signature.keyImages.map PointEncoding.encode) = true ∧
      (∃ proof : RangeProof F P, RangeProof.ofBytes signature.rangeProof = .ok proof ∧
        ((verifyPadded T gens .ledger proof (signature.pseudoOutputs ++ outputCommitments)).run
          source).1 = .ok ()) ∧
      isBalanced F signature.pseudoOutputs outputCommitments fee = true ∧
      ∀ entry ∈ signature.ringSignatures.zip (rings.zip signature.pseudoOutputs),
        entry.1.verify (extendMessage message signature.pseudoOutputs signature.rangeProof) entry.2.1
          entry.2.2 = .ok () := by
  unfold verify
  rw [fst_run_if_throw_eq_ok, fst_run_if_throw_eq_ok, fst_run_unless_throw_eq_ok, not_not, not_not]
  refine and_congr_right fun _ => and_congr_right fun _ => and_congr_right fun _ => ?_
  rw [fst_run_check_bind_eq_ok, ← exists_and_right]
  refine exists_congr fun proof => ?_
  rw [mapError_eq_ok, and_assoc]
  refine and_congr_right fun _ => fst_run_adapt_bind_eq_ok fun s₁ => ?_
  rw [fst_run_unless_throw_eq_ok]
  let check (entry : RingSignature F P × List (RingMember P) × P) :=
    (entry.1.verify (extendMessage message signature.pseudoOutputs signature.rangeProof) entry.2.1
      entry.2.2).mapError TransactionError.signature
  refine and_congr_right fun _ => (fst_run_forM_eq_ok (r := check) fun _ _ => rfl).trans ?_
  exact forall₂_congr fun _ _ => mapError_eq_ok

variable [LawfulMultiScalar F P] [LawfulBEq F] [LawfulBEq P]
variable [LawfulScalarEncoding F] [LawfulPointEncoding P]

/-- A signature made for ring members of the signer is accepted, if it is regular; the table may only
have as many parties as the sizes can count. -/
theorem MadeBy.verify {blindings : List F} {proof : RangeProof F P}
    (h : signature.MadeBy T gens message rings indices secrets outputs fee blindings proof)
    (hsize : amountBits * gens.parties < 2 ^ 32) (howns : OwnsMembers rings indices secrets)
    (hregular : signature.IsRegular T (commitOutputs outputs)) (source' : RandomSource) :
    ((signature.verify T gens message rings (commitOutputs outputs) fee).run source').1 = .ok () := by
  have hproof := h.ofBytes_rangeProof hsize
  have himages : allDistinct (signature.keyImages.map PointEncoding.encode) = true :=
    allDistinct_iff.mpr (hregular.distinct.map encode_point_injective)
  have hrange := h.rangeProof_accepted hsize (hregular.rangeProof proof hproof) source'
  refine verify_eq_ok_iff.mpr ⟨h.length_ringSignatures.symm, h.length_pseudoOutputs.symm, himages,
    ⟨proof, hproof, hrange⟩, h.balances, ?_⟩
  rintro ⟨ringSignature, ring, output⟩ hentry
  obtain ⟨i, hi⟩ := List.mem_iff_getElem?.mp hentry
  obtain ⟨hsignature, hi⟩ := List.getElem?_zip_eq_some.mp hi
  obtain ⟨hring, houtput⟩ := List.getElem?_zip_eq_some.mp hi
  exact h.ringSignature_accepted howns hregular.nonzero hsignature hring houtput

/-- **Completeness.**  Under the generators of every transaction, for any streams they are read from:
a signature that the signer gives for ring members that it owns is accepted from every source, over the
commitments of its outputs and its fee, if its key images differ and nothing in it is zero that must
not be. -/
theorem verify_of_sign (stream : Bytes → ℕ → Bytes)
    (h : ((sign T (.build stream 64 64) message rings indices secrets outputs fee).run source).1 =
      .ok signature)
    (howns : OwnsMembers rings indices secrets)
    (hregular : signature.IsRegular T (commitOutputs outputs)) (source' : RandomSource) :
    ((signature.verify T (.build stream 64 64) message rings (commitOutputs outputs) fee).run
      source').1 = .ok () := by
  obtain ⟨blindings, proof, hmade⟩ := madeBy_of_sign h
  have hsize : amountBits * (Generators.build stream 64 64 : Generators P).parties < 2 ^ 32 := by
    rw [Generators.parties_build]
    decide
  exact hmade.verify hsize howns hregular source'

end

/-- The rings of inputs of 200 and 50, of which the second member and the first are spent. -/
def transferRings : List (List (RingMember Residue)) :=
  [[⟨1, 2, 3⟩, ⟨4, 5, commitAmount 200 (7 : Residue)⟩], [⟨6, 9, commitAmount 50 (8 : Residue)⟩, ⟨7, 2, 3⟩]]

/-- The secrets of these two. -/
def transferSecrets : List (InputSecret Residue) := [⟨5, 200, 7⟩, ⟨9, 50, 8⟩]

/-- Outputs of 50 and 190, which leave a fee of 10. -/
def transferOutputs : List (Opening Residue) := [⟨50, 36⟩, ⟨190, 45⟩]

theorem ownsMembers_transfer : OwnsMembers transferRings [1, 0] transferSecrets := by
  intro i ring index secret member hring hindex hsecret hmember
  match i with
  | 0 =>
    cases hring
    cases hindex
    cases hsecret
    cases hmember
    decide +kernel
  | 1 =>
    cases hring
    cases hindex
    cases hsecret
    cases hmember
    decide +kernel
  | i + 2 => cases hring

/-- A source of equal bytes, from which all parties of a range proof draw the same blinding factors. -/
def transferSource : RandomSource where
  read _ count := (List.range count).map fun _ => 7

/-- What every party draws. -/
def transferDraw : PartyBlindings Residue :=
  ((PartyBlindings.draw amountBits).run (.ofSeed (transferSource.read 0 32))).1

theorem times_transferSource {source : RandomSource} (h : source.read = transferSource.read) (count : ℕ) :
    ((RandomSource.times (PartyBlindings.drawSeeded amountBits) count).run source).1 =
      List.replicate count transferDraw := by
  induction count generalizing source with
  | zero => rfl
  | succ count ih =>
    have hseed : source.read source.position 32 = transferSource.read 0 32 := congrFun₂ h _ _
    exact congrArg₂ List.cons (congrArg (fun seed => ((PartyBlindings.draw amountBits).run (.ofSeed seed)).1)
      hseed) (ih h)

/-- What the exchange with these blinding factors ends with is regular. -/
theorem isRegular_transfer :
    (RangeProof.participants (.build Residue.stream 64 64 : Generators Residue) .ledger
      (Transcript.start amountLabel : Residue.Transcript)
      (padToPowerOfTwo (transferSecrets.map (·.value) ++ transferOutputs.map (·.value)))
      (padToPowerOfTwo (((drawBlindings transferRings.length (transferOutputs.map (·.blinding)).sum).run
        transferSource).1 ++ transferOutputs.map (·.blinding))) amountBits >>= fun p =>
      RangeProof.exchange (.build Residue.stream 64 64) .ledger p.1 p.2
        (List.replicate p.2.length transferDraw)).toOption.all (fun answer =>
          answer.1.isRegular amountBits
            (padToPowerOfTwo (answer.2.take 2 ++ commitOutputs transferOutputs))
            (Transcript.start amountLabel : Residue.Transcript)) = true := by
  decide +kernel

/-- The transfer is signed, and nothing in the signature is zero that must not be. -/
theorem exists_transfer : ∃ signature : TxSignature Residue Residue,
    ((sign Residue.Transcript (.build Residue.stream 64 64) [1, 2, 3] transferRings [1, 0] transferSecrets
      transferOutputs 10).run transferSource).1 = .ok signature ∧
    signature.IsRegular Residue.Transcript (commitOutputs transferOutputs) := by
  have hrun : ((sign Residue.Transcript (.build Residue.stream 64 64) [1, 2, 3] transferRings [1, 0]
      transferSecrets transferOutputs 10).run transferSource).1.toOption.any
        (fun _ : TxSignature Residue Residue => true) = true := by
    decide +kernel
  obtain ⟨signature, h, -⟩ := any_toOption_iff.mp hrun
  obtain ⟨_, _, hmade⟩ := madeBy_of_sign h
  refine ⟨signature, h, ?_, ?_, fun proof hproof => ?_⟩
  · rw [hmade.keyImages_eq]
    decide +kernel
  · rw [hmade.keyImages_eq, List.forall_mem_map]
    decide +kernel
  · obtain ⟨proof', commitments, hproved, hrange, hpseudo⟩ := proved_of_sign rfl h
    have hback : RangeProof.ofBytes proof'.toBytes = .ok proof' :=
      ofBytes_of_provePadded hproved (by rw [Generators.parties_build]; decide)
    rw [hrange, hback] at hproof
    obtain rfl := Except.ok.inj hproof
    have hread : ((drawBlindings transferRings.length (transferOutputs.map (·.blinding)).sum).run
        transferSource).2.read = transferSource.read := rfl
    -- the proof that was read back is that of the exchange with the blinding factors computed above
    rw [fst_run_provePadded _ ?length ?nonempty, RangeProof.fst_run_prove] at hproved
    case length => rfl
    case nonempty => exact List.cons_ne_nil _ _
    simp only [times_transferSource hread] at hproved
    have hregular := all_toOption_iff.mp isRegular_transfer _ hproved
    obtain ⟨hchallenges, hpoints⟩ := RangeProof.isRegular_iff.mp hregular
    rw [hpseudo]
    exact ⟨hchallenges, hpoints⟩

/-- The transfer is accepted from every source. -/
theorem verify_of_sign_transfer : ∃ signature : TxSignature Residue Residue,
    ((sign Residue.Transcript (.build Residue.stream 64 64) [1, 2, 3] transferRings [1, 0] transferSecrets
      transferOutputs 10).run transferSource).1 = .ok signature ∧
    OwnsMembers transferRings [1, 0] transferSecrets ∧
    signature.IsRegular Residue.Transcript (commitOutputs transferOutputs) ∧
    ∀ source', ((signature.verify Residue.Transcript (.build Residue.stream 64 64) [1, 2, 3]
      transferRings (commitOutputs transferOutputs : List Residue) 10).run source').1 = .ok () := by
  obtain ⟨signature, h, hregular⟩ := exists_transfer
  exact ⟨signature, h, ownsMembers_transfer, hregular, fun source' =>
    verify_of_sign Residue.stream h ownsMembers_transfer hregular source'⟩

end TxSignature
end ConfidentialTx
