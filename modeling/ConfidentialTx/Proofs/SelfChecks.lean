import ConfidentialTx.Proofs.RingAgreement

/-! # The self-checks of the ring signer

The signer compares the pseudo-output with its opening, and behind the walk around the ring the
difference of the two commitments with a multiple of the base point.  Neither compares the commitment of
the real member with its opening; together they do.

* `SigningRequest.difference_eq_iff`: for a pseudo-output that opens to the value, the difference passes
  if the commitment of the real member opens to it too.
* `SigningRequest.outcome`: what the openings alone say about a request, and `RingSignature.map_sign`:
  that this is how the signer ends.
* `RingSignature.sign_outcome_iff`: each end with its condition, which neither the random source nor the
  message, the private key or the other members enter. -/

namespace ConfidentialTx

namespace SigningRequest
variable {F P : Type}

/-- Whether two requests agree in the position, in the size of the ring, in what is committed there and
in all openings.  They may differ in the message, the keys and the other members. -/
structure SameOpenings (request request' : SigningRequest F P) : Prop where
  length_ring : request'.ring.length = request.ring.length
  realIndex : request'.realIndex = request.realIndex
  commitment : request'.ring[request'.realIndex]?.map (·.commitment) =
    request.ring[request.realIndex]?.map (·.commitment)
  value : request'.value = request.value
  blinding : request'.blinding = request.blinding
  pseudoBlinding : request'.pseudoBlinding = request.pseudoBlinding
  pseudoOutput : request'.pseudoOutput = request.pseudoOutput

section Outcome
variable [NatCast F] [MultiScalar F P] [PointEncoding P] [PointHash P] [BasePoint P] [BEq P]

/-- Whether both commitments of a request open to its value, given the one of the real member. -/
def opens (request : SigningRequest F P) (commitment : P) : Bool :=
  request.pseudoOutput == commitAmount request.value request.pseudoBlinding &&
    commitment == commitAmount request.value request.blinding

theorem opens_iff [LawfulBEq P] {request : SigningRequest F P} {commitment : P} :
    request.opens commitment = true ↔
      request.pseudoOutput = commitAmount request.value request.pseudoBlinding ∧
        commitment = commitAmount request.value request.blinding := by
  rw [opens, Bool.and_eq_true, beq_iff_eq, beq_iff_eq]

/-- How signing ends, by the openings alone. -/
def outcome (request : SigningRequest F P) : Except SignatureError Unit :=
  match request.ring[request.realIndex]?.map (·.commitment) with
  | none =>
    if request.ring.length = 0 then .error .emptyRing
    else .error (.indexOutOfBounds request.realIndex request.ring.length)
  | some commitment =>
    if request.opens commitment then .ok () else .error .valueNotConserved

theorem SameOpenings.outcome_eq {request request' : SigningRequest F P}
    (h : request.SameOpenings request') : request'.outcome = request.outcome := by
  unfold outcome opens
  rw [h.commitment, h.length_ring, h.realIndex, h.value, h.blinding, h.pseudoBlinding, h.pseudoOutput]

theorem outcome_iff [LawfulBEq P] (request : SigningRequest F P) :
    (request.outcome = .error .emptyRing ↔ request.ring = []) ∧
    (request.outcome = .error (.indexOutOfBounds request.realIndex request.ring.length) ↔
      request.ring ≠ [] ∧ request.ring.length ≤ request.realIndex) ∧
    (request.outcome = .ok () ↔ ∃ member, request.ring[request.realIndex]? = some member ∧
      request.pseudoOutput = commitAmount request.value request.pseudoBlinding ∧
      member.commitment = commitAmount request.value request.blinding) ∧
    (request.outcome = .error .valueNotConserved ↔
      ∃ member, request.ring[request.realIndex]? = some member ∧
        ¬(request.pseudoOutput = commitAmount request.value request.pseudoBlinding ∧
          member.commitment = commitAmount request.value request.blinding)) := by
  unfold outcome
  cases hmember : request.ring[request.realIndex]? with
  | none =>
    have hindex := List.getElem?_eq_none_iff.mp hmember
    by_cases hring : request.ring = [] <;> simp [hring, hindex, List.length_eq_zero_iff]
  | some member =>
    obtain ⟨hlt, -⟩ := List.getElem?_eq_some_iff.mp hmember
    have hring : request.ring ≠ [] := List.ne_nil_of_length_pos (Nat.zero_lt_of_lt hlt)
    rw [Option.map_some]
    by_cases hopens : request.opens member.commitment = true
    · simp only [if_pos hopens]
      simp [hring, hlt, opens_iff.mp hopens]
    · simp only [if_neg hopens]
      simpa [hring, hlt] using not_and.mp (mt opens_iff.mpr hopens)

/-! ### The checks -/

variable {request : SigningRequest F P} {member : RingMember P}

theorem realMember_of_nil (hring : request.ring = []) : request.realMember = .error .emptyRing := by
  rw [realMember, if_pos (List.isEmpty_iff.mpr hring)]
  rfl

theorem realMember_of_outside (hring : request.ring ≠ [])
    (hindex : request.ring[request.realIndex]? = none) :
    request.realMember = .error (.indexOutOfBounds request.realIndex request.ring.length) := by
  rw [realMember, if_neg (mt List.isEmpty_iff.mp hring), hindex]
  rfl

theorem realMember_of_closed [LawfulBEq P] (hmember : request.ring[request.realIndex]? = some member)
    (hpseudo : request.pseudoOutput ≠ commitAmount request.value request.pseudoBlinding) :
    request.realMember = .error .valueNotConserved := by
  have hring : request.ring.isEmpty ≠ true := by
    intro hempty
    rw [List.isEmpty_iff.mp hempty] at hmember
    cases hmember
  rw [realMember, if_neg hring, hmember]
  exact if_neg fun h => hpseudo (beq_iff_eq.mp h).symm

end Outcome

variable [Field F] [AddCommGroup P] [Module F P] [MultiScalar F P]
variable [PointEncoding P] [PointHash P] [BasePoint P]
variable {request : SigningRequest F P} {member : RingMember P}

theorem difference_eq_iff [LawfulMultiScalar F P]
    (hpseudo : request.pseudoOutput = commitAmount request.value request.pseudoBlinding) :
    request.pseudoOutput - member.commitment = request.commitmentKey • base ↔
      member.commitment = commitAmount request.value request.blinding := by
  have hshift : commitAmount request.value request.pseudoBlinding - request.commitmentKey • base =
      commitAmount (P := P) request.value request.blinding := by
    rw [commitAmount_eq, commitAmount_eq, commitmentKey, sub_smul]
    abel
  rw [hpseudo, ← hshift, sub_eq_iff_eq_add, eq_sub_iff_add_eq, add_comm member.commitment, eq_comm]

theorem close_of_difference_ne [ScalarHash F] [BEq P] [LawfulBEq P]
    (h : request.pseudoOutput - member.commitment ≠ request.commitmentKey • base)
    (decoys : List (F × F)) (α : F × F) :
    request.close member decoys α = .error .valueNotConserved := by
  unfold close
  exact if_neg fun hdifference => h (beq_iff_eq.mp hdifference)

end SigningRequest

/-! ### The signer -/

namespace RingSignature
variable {F P : Type} [Field F] [AddCommGroup P] [Module F P] [MultiScalar F P]
variable [ScalarEncoding F] [ScalarHash F] [PointEncoding P] [PointHash P] [BasePoint P] [BEq P]
variable {request : SigningRequest F P} {member : RingMember P}

theorem run_sign_of_error {e : SignatureError} (h : request.realMember = .error e)
    (source : RandomSource) : (sign request).run source = (.error e, source) :=
  run_check_bind_of_error h

/-- For a real member the signer ends as its last check does, whatever it has drawn. -/
theorem exists_run_sign (h : request.realMember = .ok member) (source : RandomSource) :
    ∃ decoys α, ((sign request).run source).1 = request.close member decoys α := by
  unfold sign
  rw [run_bind_of_ok (run_lift_of_ok h), run_bind_of_ok (run_lift _ _), run_bind_of_ok (run_lift _ _),
    run_lift_except]
  exact ⟨_, _, rfl⟩

variable [LawfulMultiScalar F P] [LawfulBEq P]

/-- The signer ends as the openings say, and nothing else enters. -/
theorem map_sign (request : SigningRequest F P) (source : RandomSource) :
    ((sign request).run source).1.map (fun _ => ()) = request.outcome := by
  unfold SigningRequest.outcome
  cases hmember : request.ring[request.realIndex]? with
  | none =>
    by_cases hring : request.ring = []
    · rw [run_sign_of_error (SigningRequest.realMember_of_nil hring), hring]
      rfl
    · rw [run_sign_of_error (SigningRequest.realMember_of_outside hring hmember)]
      exact (if_neg (mt List.length_eq_zero_iff.mp hring)).symm
  | some member =>
    change _ = if request.opens member.commitment then _ else _
    by_cases hpseudo : request.pseudoOutput = commitAmount request.value request.pseudoBlinding
    · have hreal := SigningRequest.realMember_eq_ok_iff.mpr ⟨hmember, hpseudo.symm⟩
      obtain ⟨decoys, α, hrun⟩ := exists_run_sign hreal source
      rw [hrun]
      by_cases hopens : member.commitment = commitAmount request.value request.blinding
      · rw [if_pos (SigningRequest.opens_iff.mpr ⟨hpseudo, hopens⟩)]
        exact map_eq_ok.mpr ⟨_, SigningRequest.close_eq_ok_iff.mpr
          ⟨(SigningRequest.difference_eq_iff hpseudo).mpr hopens, rfl⟩, rfl⟩
      · rw [if_neg (fun h => hopens (SigningRequest.opens_iff.mp h).2),
          SigningRequest.close_of_difference_ne
            (mt (SigningRequest.difference_eq_iff hpseudo).mp hopens)]
        rfl
    · rw [run_sign_of_error (SigningRequest.realMember_of_closed hmember hpseudo),
        if_neg (fun h => hpseudo (SigningRequest.opens_iff.mp h).1)]
      rfl

/-- **Self-checks.**  The signer refuses an empty ring, then a position outside the ring, and signs then if
and only if pseudo-output and real member are committed to the value under the given blinding factors;
otherwise the value is not conserved.  Requests with the same openings end alike from all sources. -/
theorem sign_outcome_iff (request : SigningRequest F P) (source : RandomSource) :
    (((sign request).run source).1 = .error .emptyRing ↔ request.ring = []) ∧
    (((sign request).run source).1 =
        .error (.indexOutOfBounds request.realIndex request.ring.length) ↔
      request.ring ≠ [] ∧ request.ring.length ≤ request.realIndex) ∧
    ((∃ signature, ((sign request).run source).1 = .ok signature) ↔
      ∃ member, request.ring[request.realIndex]? = some member ∧
        request.pseudoOutput = commitAmount request.value request.pseudoBlinding ∧
        member.commitment = commitAmount request.value request.blinding) ∧
    (((sign request).run source).1 = .error .valueNotConserved ↔
      ∃ member, request.ring[request.realIndex]? = some member ∧
        ¬(request.pseudoOutput = commitAmount request.value request.pseudoBlinding ∧
          member.commitment = commitAmount request.value request.blinding)) ∧
    ∀ (request' : SigningRequest F P) (source' : RandomSource), request.SameOpenings request' →
      ((sign request').run source').1.map (fun _ => ()) =
        ((sign request).run source).1.map (fun _ => ()) := by
  obtain ⟨hempty, hindex, hok, hvalue⟩ := request.outcome_iff
  rw [← map_sign request source] at hempty hindex hok hvalue
  refine ⟨map_eq_error.symm.trans hempty, map_eq_error.symm.trans hindex, map_unit_eq_ok.symm.trans hok,
    map_eq_error.symm.trans hvalue, fun request' source' h => ?_⟩
  rw [map_sign, map_sign, h.outcome_eq]

/-- The owner of a member signs, does not with another blinding factor for the pseudo-output, and ends
alike with another message, another private key and other random bytes. -/
theorem sign_outcome_iff_owner :
    (∃ signature, ((sign ownerRequest).run Residue.source).1 = .ok signature) ∧
    ((sign { ownerRequest with pseudoBlinding := 10 }).run Residue.source).1 =
      .error .valueNotConserved ∧
    ((sign { ownerRequest with message := [4], onetimeKey := 6 }).run (.cycle [8])).1.map (fun _ => ()) =
      ((sign ownerRequest).run Residue.source).1.map (fun _ => ()) := by
  refine ⟨?_, ?_, ?_⟩
  · exact (sign_outcome_iff ownerRequest Residue.source).2.2.1.mpr ⟨_, rfl, rfl, rfl⟩
  · refine (sign_outcome_iff _ Residue.source).2.2.2.1.mpr ⟨_, rfl, fun h => ?_⟩
    exact absurd h.1 (by decide +kernel)
  · exact (sign_outcome_iff ownerRequest Residue.source).2.2.2.2 _ _ ⟨rfl, rfl, rfl, rfl, rfl, rfl, rfl⟩

end RingSignature
end ConfidentialTx
