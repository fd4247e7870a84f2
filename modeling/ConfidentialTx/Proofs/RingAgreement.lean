import ConfidentialTx.Proofs.Residues
import ConfidentialTx.Proofs.RingLoop

/-! # What is accepted is what is signed

For the owner of a ring member, whose commitment and pseudo-output open to one value, the signatures
that the verifier accepts under the owner's key image are those that the signer gives for some random
scalars, no more and no fewer: `RingSignature.accepted_eq_signed`. -/

namespace ConfidentialTx

/-! ### The draws of the signer -/

namespace RingSignature
variable {F P : Type} [ScalarEncoding F]

theorem drawPair_of_supplies {source : RandomSource} {r : F × F} {ss : List F}
    (h : source.Supplies (r.1 :: r.2 :: ss)) :
    ∃ source' : RandomSource, drawPair.run source = (r, source') ∧ source'.Supplies ss := by
  obtain ⟨h₀, h₁, hrest⟩ := h
  exact ⟨_, Prod.ext (Prod.ext h₀ h₁) rfl, hrest⟩

theorem times_drawPair_of_supplies {source : RandomSource} {rs : List (F × F)} {ss : List F}
    (h : source.Supplies (unpair rs ++ ss)) :
    ∃ source' : RandomSource, (RandomSource.times drawPair rs.length).run source = (rs, source') ∧
      source'.Supplies ss :=
  RandomSource.times_of_supplies (fun h => drawPair_of_supplies h) h

/-! ### The signer -/

variable [Field F] [AddCommGroup P] [Module F P] [MultiScalar F P]
variable [ScalarHash F] [PointEncoding P] [PointHash P] [BasePoint P] [BEq P]
variable {request : SigningRequest F P} {member : RingMember P} {signature : RingSignature F P}

/-- A signature that is given is closed with responses of the other members and scalars of its own, as
many as the ring asks for. -/
theorem exists_close_of_sign {source : RandomSource}
    (h : ((sign request).run source).1 = .ok signature) :
    ∃ member decoys α, request.realMember = .ok member ∧ decoys.length = request.ring.length - 1 ∧
      request.close member decoys α = .ok signature := by
  obtain ⟨member, s₁, hmember, h⟩ := fst_run_bind_eq_ok.mp h
  obtain ⟨decoys, s₂, hdecoys, h⟩ := fst_run_bind_eq_ok.mp h
  obtain ⟨α, s₃, -, hclose⟩ := fst_run_bind_eq_ok.mp h
  have hlen : decoys.length = request.ring.length - 1 := by
    obtain rfl := Except.ok.inj (Prod.mk.inj hdecoys).1
    exact RandomSource.length_times _ _ _
  exact ⟨member, decoys, α, (Prod.mk.inj hmember).1, hlen, hclose⟩

theorem keyImage_of_sign [LawfulBEq P] {source : RandomSource}
    (h : ((sign request).run source).1 = .ok signature) :
    signature.keyImage = ConfidentialTx.keyImage request.onetimeKey := by
  obtain ⟨member, decoys, α, -, -, hclose⟩ := exists_close_of_sign h
  obtain ⟨-, rfl⟩ := SigningRequest.close_eq_ok_iff.mp hclose
  rfl

/-- Whatever the scalars are, some source gives what is closed with them. -/
theorem exists_sign_of_close [LawfulScalarEncoding F] {decoys : List (F × F)} {α : F × F}
    (hmember : request.realMember = .ok member) (hlen : decoys.length = request.ring.length - 1)
    (h : request.close member decoys α = .ok signature) :
    ∃ source, ((sign request).run source).1 = .ok signature := by
  obtain ⟨source, hsource⟩ := RandomSource.exists_supplies (unpair decoys ++ [α.1, α.2])
  obtain ⟨source₁, hdecoys, hsource⟩ := times_drawPair_of_supplies hsource
  obtain ⟨source₂, hα, -⟩ := drawPair_of_supplies hsource
  refine ⟨source, ?_⟩
  rw [hlen] at hdecoys
  unfold sign
  rw [run_bind_of_ok (run_lift_of_ok hmember), run_bind_of_ok (run_lift_of_eq hdecoys),
    run_bind_of_ok (run_lift_of_eq hα)]
  exact h

/-! ### Agreement -/

variable [LawfulMultiScalar F P] [BEq F] [LawfulBEq F] [LawfulBEq P] [LawfulScalarEncoding F]

/-- **Ring signatures.**  For the owner of a ring member whose commitment and pseudo-output open to one
value, with any hash functions: the signer is never refused, and the signatures with the owner's key
image that the verifier accepts are those that the signer gives from some source, which are those that
it gives for some responses of the other members and some two scalars of its own. -/
theorem accepted_eq_signed (request : SigningRequest F P) {member : RingMember P}
    (hmember : request.ring[request.realIndex]? = some member)
    (hkey : member.targetKey = request.onetimeKey • base)
    (himage : ConfidentialTx.keyImage (P := P) request.onetimeKey ≠ 0)
    (hcommitment : member.commitment = commitAmount request.value request.blinding)
    (hpseudo : request.pseudoOutput = commitAmount request.value request.pseudoBlinding) :
    (∀ source, ∃ signature, ((sign request).run source).1 = .ok signature) ∧
    {signature : RingSignature F P | signature.keyImage = ConfidentialTx.keyImage request.onetimeKey ∧
        signature.verify request.message request.ring request.pseudoOutput = .ok ()} =
      {signature | ∃ source, ((sign request).run source).1 = .ok signature} ∧
    {signature : RingSignature F P | signature.keyImage = ConfidentialTx.keyImage request.onetimeKey ∧
        signature.verify request.message request.ring request.pseudoOutput = .ok ()} =
      {signature | ∃ decoys α, decoys.length = request.ring.length - 1 ∧
        request.close member decoys α = .ok signature} := by
  have hreal : request.realMember = .ok member :=
    SigningRequest.realMember_eq_ok_iff.mpr ⟨hmember, hpseudo.symm⟩
  have hdifference : request.pseudoOutput - member.commitment = request.commitmentKey • base := by
    rw [hpseudo, hcommitment, commitAmount_eq, commitAmount_eq, SigningRequest.commitmentKey, sub_smul]
    abel
  refine ⟨?_, ?_, ?_⟩
  · intro source
    unfold sign
    rw [run_bind_of_ok (run_lift_of_ok hreal), run_bind_of_ok (run_lift _ _),
      run_bind_of_ok (run_lift _ _), run_lift_except]
    exact ⟨_, SigningRequest.close_eq_ok_iff.mpr ⟨hdifference, rfl⟩⟩
  · ext signature
    refine (SigningRequest.accepted_iff_closed hmember hkey himage hdifference).trans ⟨?_, ?_⟩
    · rintro ⟨decoys, α, hlen, hclose⟩
      exact exists_sign_of_close hreal hlen hclose
    · rintro ⟨source, hsign⟩
      obtain ⟨member', decoys, α, hmember', hlen, hclose⟩ := exists_close_of_sign hsign
      obtain rfl := Except.ok.inj (hreal.symm.trans hmember')
      exact ⟨decoys, α, hlen, hclose⟩
  · ext signature
    exact SigningRequest.accepted_iff_closed hmember hkey himage hdifference

/-- A request of the owner of the second of three members. -/
def ownerRequest : SigningRequest Residue Residue where
  message := [1, 2, 3]
  ring := [⟨1, 2, 3⟩, ⟨4, 5, commitAmount 200 (7 : Residue)⟩, ⟨6, 7, 8⟩]
  realIndex := 1
  onetimeKey := 5
  value := 200
  blinding := 7
  pseudoBlinding := 9
  pseudoOutput := commitAmount 200 (9 : Residue)

/-- The owner of the second of three members signs whatever is accepted under its key image. -/
theorem accepted_eq_signed_of_three :
    (ConfidentialTx.keyImage ownerRequest.onetimeKey : Residue) ≠ 0 ∧
    {signature : RingSignature Residue Residue |
        signature.keyImage = ConfidentialTx.keyImage ownerRequest.onetimeKey ∧
        signature.verify ownerRequest.message ownerRequest.ring ownerRequest.pseudoOutput = .ok ()} =
      {signature | ∃ source, ((sign ownerRequest).run source).1 = .ok signature} := by
  have himage : (ConfidentialTx.keyImage ownerRequest.onetimeKey : Residue) ≠ 0 := by decide +kernel
  exact ⟨himage, (accepted_eq_signed ownerRequest rfl (by decide +kernel) himage rfl rfl).2.1⟩

end RingSignature
end ConfidentialTx
