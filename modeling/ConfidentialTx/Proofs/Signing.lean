import ConfidentialTx.Proofs.Refusals
import ConfidentialTx.Proofs.SelfChecks
import ConfidentialTx.Proofs.TxCompleteness

/-! # What can be signed

A transaction is signed if the inputs and outputs have a possible shape and conserve the value, if they
fit into the table together, and if every input opens a member of its ring.  Nothing else is in the way,
except a challenge `x` of the range proof that is zero: the amounts always have the size of the range
proof, and the pseudo-outputs are made to open to the values that are spent.

* `exists_provePadded_iff`: when the amounts are proved.
* `TxSignature.OpensMembers`: the condition on the ring members, and `TxSignature.forall_outcome_iff`: that
  the ring signatures ask for nothing more.
* `TxSignature.exists_sign_iff`: the steps of the signer together.
* `TxSignature.sign_succeeds_iff`: under the table of every transaction, with the pseudo-outputs that come
  out. -/

namespace ConfidentialTx

theorem exists_provePadded_iff {F P T : Type} [Transcript T] [Field F] [AddCommGroup P] [Module F P]
    [MultiScalar F P] [LawfulMultiScalar F P] [ScalarEncoding F] [PointEncoding P] [BEq F] [LawfulBEq F]
    {gens : Generators P} {key : CommitmentKey P} {values : List UInt64} {blindings : List F}
    {source : RandomSource} (hlen : values.length = blindings.length) (hvalues : values ≠ []) :
    (∃ proof commitments, ((provePadded T gens key values blindings).run source).1 =
        .ok (proof, commitments)) ↔
      ParametersFit gens amountBits (padToPowerOfTwo values).length ∧
        RangeProof.proverChallenge gens key (Transcript.start amountLabel : T) (padToPowerOfTwo values)
          (padToPowerOfTwo blindings) amountBits source ≠ 0 := by
  have hsize : ∀ v ∈ padToPowerOfTwo values, v.toNat < 2 ^ amountBits := fun v _ => v.toNat_lt
  have hpadded := length_padToPowerOfTwo_congr hlen
  simp only [fst_run_provePadded T hlen hvalues]
  rw [RangeProof.exists_prove_iff]
  exact ⟨fun h => ⟨h.2.1, h.2.2.2⟩, fun h => ⟨hpadded, h.1, hsize, h.2⟩⟩

namespace TxSignature
variable {F P : Type} [Field F] [MultiScalar F P] [PointEncoding P] [PointHash P] [BasePoint P]
variable {message : Bytes} {rings : List (List (RingMember P))} {indices : List ℕ}
variable {secrets : List (InputSecret F)} {outputs : List (Opening F)} {fee : UInt64}

/-! ### Ring members -/

/-- Whether every position is one of its ring, and the secret of the input opens the commitment there. -/
def OpensMembers (rings : List (List (RingMember P))) (indices : List ℕ)
    (secrets : List (InputSecret F)) : Prop :=
  ∀ (i : ℕ) (ring : List (RingMember P)) (index : ℕ) (secret : InputSecret F),
    rings[i]? = some ring → indices[i]? = some index → secrets[i]? = some secret →
      ∃ member, ring[index]? = some member ∧
        member.commitment = commitAmount secret.value secret.blinding

theorem spent_getElem? {blindings : List F} {i : ℕ} {secret : InputSecret F} {blinding : F}
    (hsecret : secrets[i]? = some secret) (hblinding : blindings[i]? = some blinding) :
    (List.zipWith commitAmount (secrets.map (·.value)) blindings : List P)[i]? =
      some (commitAmount secret.value blinding) := by
  rw [List.getElem?_zipWith, List.getElem?_map, hsecret, hblinding]
  rfl

variable [BEq P] [LawfulBEq P]

/-- With pseudo-outputs that commit to the values that are spent, the ring signatures are refused only
for a member that is not opened. -/
theorem forall_outcome_iff (message : Bytes) {blindings : List F}
    (hlen : blindings.length = rings.length) :
    (∀ request ∈ requests message rings indices secrets blindings
        (List.zipWith commitAmount (secrets.map (·.value)) blindings), request.outcome = .ok ()) ↔
      OpensMembers rings indices secrets := by
  constructor
  · intro h i ring index secret hring hindex hsecret
    have hi : i < blindings.length := hlen ▸ (List.getElem?_eq_some_iff.mp hring).1
    obtain ⟨blinding, hblinding⟩ : ∃ blinding, blindings[i]? = some blinding :=
      ⟨_, List.getElem?_eq_getElem hi⟩
    let request : SigningRequest F P := ⟨message, ring, index, secret.onetimeKey, secret.value,
      secret.blinding, blinding, commitAmount secret.value blinding⟩
    have hrequest : (requests message rings indices secrets blindings
        (List.zipWith commitAmount (secrets.map (·.value)) blindings))[i]? = some request :=
      requests_getElem?_eq_some_iff.mpr
        ⟨hring, hindex, hsecret, hblinding, spent_getElem? hsecret hblinding, rfl⟩
    obtain ⟨member, hmember, -, hopens⟩ :=
      request.outcome_iff.2.2.1.mp (h request (List.mem_of_getElem? hrequest))
    exact ⟨member, hmember, hopens⟩
  · intro h request hrequest
    obtain ⟨i, hi⟩ := List.mem_iff_getElem?.mp hrequest
    obtain ⟨hring, hindex, hsecret, hblinding, houtput, -⟩ := requests_getElem?_eq_some_iff.mp hi
    obtain ⟨member, hmember, hopens⟩ := h i _ _ _ hring hindex hsecret
    -- the pseudo-output of the request is the commitment that was made for it
    have hpseudo := houtput.symm.trans (spent_getElem? hsecret hblinding)
    exact request.outcome_iff.2.2.1.mpr ⟨member, hmember, Option.some.inj hpseudo, hopens⟩

/-! ### The signer -/

variable [AddCommGroup P] [Module F P] [LawfulMultiScalar F P] [ScalarEncoding F] [ScalarHash F]

theorem exists_adapt_sign_iff (request : SigningRequest F P) (source : RandomSource) :
    (∃ signature, (((RingSignature.sign request).adapt TransactionError.signature).run source).1 =
      .ok signature) ↔ request.outcome = .ok () := by
  rw [← RingSignature.map_sign request source, map_unit_eq_ok]
  exact exists_congr fun _ => mapError_eq_ok

/-- The signer behind its first draws, with the blinding factors of the pseudo-outputs. -/
def signWith (T : Type) [Transcript T] [BEq F] (gens : Generators P) (message : Bytes)
    (rings : List (List (RingMember P))) (indices : List ℕ) (secrets : List (InputSecret F))
    (outputs : List (Opening F)) (blindings : List F) :
    ExceptT TransactionError (StateM RandomSource) (TxSignature F P) := do
  let (proof, commitments) ←
    (provePadded T gens .ledger (secrets.map (·.value) ++ outputs.map (·.value))
      (blindings ++ outputs.map (·.blinding))).adapt TransactionError.rangeProof
  let pseudoOutputs := commitments.take rings.length
  let ringSignatures ← (requests (extendMessage message pseudoOutputs proof.toBytes) rings indices secrets
    blindings pseudoOutputs).mapM fun request =>
      (RingSignature.sign request).adapt TransactionError.signature
  pure ⟨proof.toBytes, pseudoOutputs, ringSignatures⟩

/-- The challenge `x` of the range proof of a transaction with the given number of inputs. -/
def rangeChallenge (T : Type) [Transcript T] (gens : Generators P) (inputs : ℕ)
    (secrets : List (InputSecret F)) (outputs : List (Opening F)) (source : RandomSource) : F :=
  let (blindings, source) := (drawBlindings inputs (outputs.map (·.blinding)).sum).run source
  RangeProof.proverChallenge gens .ledger (Transcript.start amountLabel : T)
    (padToPowerOfTwo (secrets.map (·.value) ++ outputs.map (·.value)))
    (padToPowerOfTwo (blindings ++ outputs.map (·.blinding))) amountBits source

variable {T : Type} [Transcript T] {gens : Generators P} {source : RandomSource}
variable [BEq F] [LawfulBEq F]

omit [LawfulMultiScalar F P] [LawfulBEq P] [LawfulBEq F] in
theorem run_sign {source₁ : RandomSource} {blindings : List F}
    (hfits : ShapeFits rings indices secrets outputs fee)
    (hblindings : (drawBlindings rings.length (outputs.map (·.blinding)).sum).run source =
      (blindings, source₁)) :
    (sign T gens message rings indices secrets outputs fee).run source =
      (signWith T gens message rings indices secrets outputs blindings).run source₁ := by
  rw [sign, run_bind_of_ok (run_lift_of_ok (checkShape_eq_ok_iff.mpr hfits)),
    run_bind_of_ok (run_lift_of_eq hblindings)]
  rfl

theorem exists_signWith_iff {blindings : List F} (hsecrets : secrets.length = rings.length)
    (hlen : blindings.length = rings.length) :
    (∃ signature, ((signWith T gens message rings indices secrets outputs blindings).run source).1 =
        .ok signature) ↔
      (∃ (proof : RangeProof F P) (commitments : List P),
        ((provePadded T gens .ledger (secrets.map (·.value) ++ outputs.map (·.value))
          (blindings ++ outputs.map (·.blinding))).run source).1 = .ok (proof, commitments)) ∧
      OpensMembers rings indices secrets := by
  constructor
  · rintro ⟨signature, h⟩
    obtain ⟨⟨proof, commitments⟩, s₁, hproof, h⟩ := fst_run_bind_eq_ok.mp h
    obtain ⟨ringSignatures, s₂, hsigned, -⟩ := fst_run_bind_eq_ok.mp h
    have hproof := congrArg Prod.fst (run_adapt_eq_ok.mp hproof)
    have hopens := (exists_fst_run_mapM_iff exists_adapt_sign_iff).mp ⟨_, congrArg Prod.fst hsigned⟩
    rw [take_of_provePadded hsecrets hlen hproof] at hopens
    exact ⟨⟨proof, commitments, hproof⟩, (forall_outcome_iff _ hlen).mp hopens⟩
  · rintro ⟨⟨proof, commitments, hproof⟩, hopens⟩
    have htake := take_of_provePadded hsecrets hlen hproof
    have hrequests := (forall_outcome_iff
      (extendMessage message (commitments.take rings.length) proof.toBytes) hlen).mpr hopens
    rw [← htake] at hrequests
    obtain ⟨ringSignatures, hsigned⟩ := (exists_fst_run_mapM_iff exists_adapt_sign_iff).mpr hrequests
    exact ⟨_, fst_run_bind_eq_ok.mpr ⟨(proof, commitments), _,
      run_adapt_eq_ok.mpr (Prod.ext hproof rfl), fst_run_bind_eq_ok.mpr ⟨ringSignatures, _,
        Prod.ext hsigned rfl, rfl⟩⟩⟩

/-- The steps of the signer: inputs and outputs of a possible shape, amounts that are proved, ring members
that are opened. -/
theorem exists_sign_iff :
    (∃ signature, ((sign T gens message rings indices secrets outputs fee).run source).1 =
        .ok signature) ↔
      ShapeFits rings indices secrets outputs fee ∧
      ParametersFit gens amountBits
        (padToPowerOfTwo (secrets.map (·.value) ++ outputs.map (·.value))).length ∧
      OpensMembers rings indices secrets ∧
      rangeChallenge T gens rings.length secrets outputs source ≠ 0 := by
  by_cases hfits : ShapeFits rings indices secrets outputs fee
  swap
  · refine iff_of_false ?_ fun h => hfits h.1
    rintro ⟨signature, h⟩
    obtain ⟨⟨⟩, s₁, hshape, -⟩ := fst_run_bind_eq_ok.mp h
    exact hfits (checkShape_eq_ok_iff.mp (Prod.mk.inj hshape).1)
  rcases hblindings : (drawBlindings rings.length (outputs.map (·.blinding)).sum).run source with
    ⟨blindings, source₁⟩
  obtain ⟨hlen, -⟩ := drawBlindings_eq (mt List.length_eq_zero_iff.mp hfits.inputs)
    (outputs.map (·.blinding)).sum source
  rw [hblindings] at hlen
  have hvalues : (secrets.map (·.value) ++ outputs.map (·.value)).length =
      (blindings ++ outputs.map (·.blinding)).length := by
    simp [hfits.length_secrets, hlen]
  have hne : secrets.map (·.value) ++ outputs.map (·.value) ≠ [] := by
    simp [hfits.outputs_ne_nil]
  rw [run_sign hfits hblindings, exists_signWith_iff hfits.length_secrets hlen,
    exists_provePadded_iff hvalues hne, and_iff_right hfits, and_assoc, rangeChallenge, hblindings]
  exact and_congr_right fun _ => and_comm

/-- **Signing.**  Under the generators of every transaction, for any streams they are read from: inputs and
outputs are signed if and only if they have a possible shape and conserve the value, their number rounded
up to a power of two is at most that of the parties, every input opens the member of its ring at its
position, and the challenge `x` of the range proof is not zero.  The pseudo-outputs then open to the values
that are spent, in their order, and sum to the outputs and the fee. -/
theorem sign_succeeds_iff (stream : Bytes → ℕ → Bytes) (message : Bytes)
    (rings : List (List (RingMember P))) (indices : List ℕ) (secrets : List (InputSecret F))
    (outputs : List (Opening F)) (fee : UInt64) (source : RandomSource) :
    ((∃ signature,
        ((sign T (.build stream 64 64) message rings indices secrets outputs fee).run source).1 =
          .ok signature) ↔
      ShapeFits rings indices secrets outputs fee ∧
      2 ^ Nat.clog 2 (rings.length + outputs.length) ≤ 64 ∧
      OpensMembers rings indices secrets ∧
      rangeChallenge T (.build stream 64 64 : Generators P) rings.length secrets outputs source ≠ 0) ∧
    ∀ signature,
      ((sign T (.build stream 64 64) message rings indices secrets outputs fee).run source).1 =
        .ok signature →
      ∃ blindings : List F, blindings.length = rings.length ∧
        signature.pseudoOutputs = List.zipWith commitAmount (secrets.map (·.value)) blindings ∧
        signature.pseudoOutputs.sum = (commitOutputs outputs).sum +
          (fee.toNat : F) • (CommitmentKey.ledger : CommitmentKey P).value := by
  constructor
  · rw [exists_sign_iff]
    refine and_congr_right fun hfits => and_congr_left fun _ => ?_
    have hne : secrets.map (·.value) ++ outputs.map (·.value) ≠ [] := by
      simp [hfits.outputs_ne_nil]
    rw [parametersFit_padToPowerOfTwo_iff stream hne, List.length_append, List.length_map,
      List.length_map, hfits.length_secrets]
  · intro signature h
    obtain ⟨blindings, proof, hmade⟩ := madeBy_of_sign h
    refine ⟨blindings, hmade.length_blindings, hmade.pseudoOutputs_eq, ?_⟩
    have hbalances := hmade.balances
    unfold isBalanced at hbalances
    rw [beq_iff_eq, List.sum_append, List.sum_singleton, commitAmount_eq, zero_smul, add_zero]
      at hbalances
    exact hbalances

/-- One output of 240 in the place of the two of the transfer: three amounts are proved as four. -/
def singleOutput : List (Opening Residue) := [⟨240, 11⟩]

theorem opensMembers_transfer : OpensMembers transferRings [1, 0] transferSecrets := by
  intro i ring index secret hring hindex hsecret
  match i with
  | 0 =>
    cases hring
    cases hindex
    cases hsecret
    exact ⟨_, rfl, rfl⟩
  | 1 =>
    cases hring
    cases hindex
    cases hsecret
    exact ⟨_, rfl, rfl⟩
  | i + 2 => cases hring

/-- The inputs of the transfer are signed with one output, and the pseudo-outputs of 200 and 50 balance; with
the other member of the first ring they are not signed. -/
theorem sign_succeeds_iff_transfer :
    (∃ (signature : TxSignature Residue Residue) (blindings : List Residue),
      ((sign Residue.Transcript (.build Residue.stream 64 64) [1, 2, 3] transferRings [1, 0] transferSecrets
        singleOutput 10).run Residue.source).1 = .ok signature ∧ blindings.length = 2 ∧
      signature.pseudoOutputs = List.zipWith commitAmount [200, 50] blindings ∧
      signature.pseudoOutputs.sum = (commitOutputs singleOutput).sum +
        (10 : Residue) • (CommitmentKey.ledger : CommitmentKey Residue).value) ∧
    ¬∃ signature : TxSignature Residue Residue,
      ((sign Residue.Transcript (.build Residue.stream 64 64) [1, 2, 3] transferRings [0, 0] transferSecrets
        singleOutput 10).run Residue.source).1 = .ok signature := by
  have hfits : ShapeFits transferRings [1, 0] transferSecrets singleOutput 10 := by
    constructor <;> decide
  have hchallenge : rangeChallenge Residue.Transcript (.build Residue.stream 64 64 : Generators Residue)
      transferRings.length transferSecrets singleOutput Residue.source ≠ 0 := by
    decide +kernel
  obtain ⟨hiff, hends⟩ := sign_succeeds_iff Residue.stream [1, 2, 3] transferRings [1, 0] transferSecrets
    singleOutput 10 Residue.source (T := Residue.Transcript)
  obtain ⟨signature, h⟩ := hiff.mpr ⟨hfits, by decide +kernel, opensMembers_transfer, hchallenge⟩
  obtain ⟨blindings, hlength, hpseudo, hsum⟩ := hends signature h
  refine ⟨⟨signature, blindings, h, hlength, hpseudo, hsum⟩, fun hsigned => ?_⟩
  obtain ⟨-, -, hother, -⟩ := (sign_succeeds_iff _ _ _ _ _ _ _ _).1.mp hsigned
  obtain ⟨member, hmember, hcommitment⟩ := hother 0 _ 0 _ rfl rfl rfl
  obtain rfl := Option.some.inj hmember
  exact absurd hcommitment (by decide +kernel)

end TxSignature
end ConfidentialTx
