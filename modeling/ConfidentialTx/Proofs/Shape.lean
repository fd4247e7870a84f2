import ConfidentialTx.Proofs.Conservation

/-! # Numbers of inputs and outputs

The signer refuses a transaction without inputs, without outputs or with more inputs than the largest
number of them (`TxSignature.sign_refuses_iff`).  The verifier compares lengths with each other only, so
what bounds the numbers for it is the range proof over all commitments together.

* `TxSignature.verify_of_proved`: what is enough for the verifier, in any numbers.
* `Exponent.acceptsShape_of_le`: every pair of numbers with a sum from one to the parties of the table
  is that of an accepted signature, in a group where all can be computed.
* `TxSignature.shape_of_verify`: what holds of every accepted signature; without inputs it is one of every
  message. -/

namespace ConfidentialTx

/-! ### The signer -/

/-- Whether an error tells of a number of inputs or outputs that no transaction has. -/
def TransactionError.IsShape : TransactionError → Prop
  | .noInputs | .noOutputs | .tooManyInputs _ => True
  | _ => False

namespace TxSignature
variable {F P : Type}

/-- The numbers of inputs and outputs that the signer does not refuse. -/
structure IsSignable (inputs outputs : ℕ) : Prop where
  inputs_pos : 0 < inputs
  inputs_le : inputs ≤ maxInputs
  outputs_pos : 0 < outputs

section
variable {rings : List (List (RingMember P))} {indices : List ℕ} {secrets : List (InputSecret F)}
variable {outputs : List (Opening F)} {fee : UInt64}

theorem checkShape_of_not_signable (h : ¬IsSignable rings.length outputs.length) :
    ∃ e, checkShape rings indices secrets outputs fee = .error e ∧ e.IsShape := by
  unfold checkShape
  by_cases hrings : rings.isEmpty = true
  · rw [if_pos hrings]
    exact ⟨.noInputs, rfl, trivial⟩
  rw [if_neg hrings]
  by_cases houtputs : outputs.isEmpty = true
  · rw [if_pos houtputs]
    exact ⟨.noOutputs, rfl, trivial⟩
  rw [if_neg houtputs]
  have hcount : maxInputs < rings.length := by
    by_contra hle
    rw [List.isEmpty_iff, ← ne_eq, ← List.length_pos_iff] at hrings houtputs
    exact h ⟨hrings, not_lt.mp hle, houtputs⟩
  rw [if_pos hcount]
  exact ⟨.tooManyInputs rings.length, rfl, trivial⟩

theorem checkShape_of_signable (h : IsSignable rings.length outputs.length) {e : TransactionError}
    (herror : checkShape rings indices secrets outputs fee = .error e) : ¬e.IsShape := by
  have hrings : ¬rings.isEmpty = true := by
    rw [List.isEmpty_iff, ← ne_eq, ← List.length_pos_iff]
    exact h.inputs_pos
  have houtputs : ¬outputs.isEmpty = true := by
    rw [List.isEmpty_iff, ← ne_eq, ← List.length_pos_iff]
    exact h.outputs_pos
  unfold checkShape at herror
  rw [if_neg hrings, if_neg houtputs, if_neg (not_lt.mpr h.inputs_le)] at herror
  dsimp only at herror
  split at herror
  · cases herror
    exact id
  split at herror
  · cases herror
    exact id
  split at herror
  · cases herror
    exact id
  · cases herror

end

/-- The signer refuses a transaction for its numbers of inputs and outputs if they are not those of a
transaction that can be signed, and only then. -/
theorem sign_refuses_iff (T : Type) [Transcript T] [Field F] [AddCommGroup P] [Module F P]
    [MultiScalar F P] [ScalarEncoding F] [ScalarHash F] [PointEncoding P] [PointHash P] [BasePoint P]
    [BEq F] [BEq P] {gens : Generators P} {message : Bytes} {rings : List (List (RingMember P))}
    {indices : List ℕ} {secrets : List (InputSecret F)} {outputs : List (Opening F)} {fee : UInt64}
    {source : RandomSource} :
    (∃ e, ((sign T gens message rings indices secrets outputs fee).run source).1 = .error e ∧
        e.IsShape) ↔
      ¬IsSignable rings.length outputs.length := by
  constructor
  · rintro ⟨e, herror, hshape⟩ hsignable
    -- behind the check of the shape every error is one of the range proof or of a ring signature
    have hraises : OnlyRaises (¬TransactionError.IsShape ·)
        (sign T gens message rings indices secrets outputs fee) :=
      (OnlyRaises.check fun _ => checkShape_of_signable hsignable).bind fun _ =>
        (OnlyRaises.lift _).bind fun _ => (OnlyRaises.adapt fun _ => id).bind fun _ =>
          (OnlyRaises.mapM (fun _ => OnlyRaises.adapt fun _ => id) _).bind fun _ => OnlyRaises.pure _
    exact hraises source e herror hshape
  · intro h
    obtain ⟨e, hcheck, hshape⟩ :
        ∃ e, checkShape rings indices secrets outputs fee = .error e ∧ e.IsShape :=
      checkShape_of_not_signable h
    refine ⟨e, ?_, hshape⟩
    rw [sign, run_check_bind_of_error hcheck]

/-! ### What is enough for the verifier -/

variable [Field F] [AddCommGroup P] [Module F P] [MultiScalar F P] [LawfulMultiScalar F P]
variable [ScalarEncoding F] [ScalarHash F] [PointEncoding P] [PointHash P] [BasePoint P]
variable [LawfulScalarEncoding F] [LawfulPointEncoding P]
variable [BEq F] [LawfulBEq F] [BEq P] [LawfulBEq P] {T : Type} [Transcript T]

/-- A range proof over openings that are conserved makes a signature, with one ring signature for every
opening that is spent.  Nothing is asked of how many there are: for amounts of zero it is the range proof
alone. -/
theorem verify_of_proved {stream : Bytes → ℕ → Bytes} {spent received : List (Opening F)}
    {fee : UInt64} {proof : RangeProof F P} {commitments : List P} {source : RandomSource}
    {rings : List (List (RingMember P))} {ringSignatures : List (RingSignature F P)} {message : Bytes}
    (hproved : ((provePadded T (.build stream 64 64) .ledger ((spent ++ received).map (·.value))
      ((spent ++ received).map (·.blinding))).run source).1 = .ok (proof, commitments))
    (hregular : RegularAmounts T proof (commitOutputs (spent ++ received)))
    (htotal : openedTotal spent = openedTotal received + fee.toNat)
    (hblinding : openedBlinding spent = openedBlinding received)
    (hspent : spent.length = rings.length) (hrings : ringSignatures.length = rings.length)
    (hdistinct : (ringSignatures.map (·.keyImage)).Nodup)
    (hsigned : ∀ entry ∈ ringSignatures.zip (rings.zip (commitOutputs spent : List P)),
      entry.1.verify (extendMessage message (commitOutputs spent : List P) proof.toBytes) entry.2.1
        entry.2.2 = .ok ())
    (source' : RandomSource) :
    ((verify T ⟨proof.toBytes, commitOutputs spent, ringSignatures⟩ (.build stream 64 64) message rings
      (commitOutputs received) fee).run source').1 = .ok () := by
  have hsize : amountBits * (Generators.build stream 64 64 : Generators P).parties < 2 ^ 32 := by
    rw [Generators.parties_build]
    decide
  have hread := ofBytes_of_provePadded hproved hsize
  have hcommitments : (commitOutputs spent ++ commitOutputs received : List P) =
      List.zipWith (fun v r => (CommitmentKey.ledger : CommitmentKey P).commit (v.toNat : F) r)
        ((spent ++ received).map (·.value)) ((spent ++ received).map (·.blinding)) := by
    rw [commitOutputs, commitOutputs, ← List.map_append]
    exact commitOutputs_eq _
  have hrange : ((verifyPadded T (.build stream 64 64) .ledger proof
      (commitOutputs spent ++ commitOutputs received)).run source').1 = .ok () := by
    rw [commitOutputs_eq] at hregular
    rw [hcommitments]
    exact verifyPadded_of_provePadded hproved hsize hregular source'
  have hbalanced : isBalanced F (commitOutputs spent : List P) (commitOutputs received) fee = true := by
    rw [commitOutputs_eq, commitOutputs_eq]
    exact isBalanced_of_total (by simp) (by simp) htotal hblinding
  have hlength : rings.length = (commitOutputs spent : List P).length := by
    rw [commitOutputs, List.length_map, hspent]
  exact verify_eq_ok_iff.mpr ⟨hrings.symm, hlength,
    allDistinct_iff.mpr (hdistinct.map encode_point_injective), ⟨proof, hread, hrange⟩, hbalanced,
    hsigned⟩

end TxSignature

/-! ### Every shape that the range proof has room for

The group in which points are their discrete logarithms, with a transcript that draws only ones: a proof
whose points cancel is accepted over commitments to nothing, however many there are. -/

namespace Exponent

theorem eq_zero_of_mem_chain {family : Family} {party skip count : ℕ} {p : Exponent}
    (h : p ∈ Generators.chain stream family party skip count) : p = 0 := by
  have hchain : Generators.chain stream family party skip count =
      (Bytes.blocks 64 count (List.drop (64 * skip) [])).map (PointEncoding.ofUniform (P := Exponent)) :=
    rfl
  rw [hchain, List.drop_nil, Bytes.blocks_nil, List.map_replicate] at h
  rw [List.eq_of_mem_replicate h]
  decide +kernel

theorem eq_zero_of_mem_vector {family : Family} {n m : ℕ} {p : Exponent}
    (h : p ∈ (Generators.build stream 64 64).vector family n m) : p = 0 := by
  obtain ⟨share, hshare, hp⟩ := List.mem_flatMap.mp h
  obtain ⟨j, hj, rfl⟩ := List.mem_mapIdx.mp (List.mem_of_mem_take hshare)
  have hempty : (Generators.empty 64).shares[j] = ⟨[], []⟩ :=
    List.eq_of_mem_replicate (List.getElem_mem hj)
  have hp := List.mem_of_mem_take hp
  rw [Generators.extendShare, hempty] at hp
  cases family with
  | G => exact eq_zero_of_mem_chain hp
  | H => exact eq_zero_of_mem_chain hp

/-! #### The range proof -/

theorem ofBytes_one : (ScalarEncoding.ofBytes [1] : Scalar) = 1 := by decide +kernel

theorem run_drawRounds (rounds : List (Exponent × Exponent)) (t : Exponent.Transcript) :
    ((rounds.mapM (InnerProductProof.drawRound (F := Scalar))).run t).1 =
      List.replicate rounds.length 1 := by
  induction rounds generalizing t with
  | nil => rfl
  | cons round rounds ih =>
    rw [List.mapM_cons]
    exact congrArg₂ List.cons ofBytes_one (ih _)

theorem run_draws (proof : RangeProof Scalar Exponent) (n : ℕ) (values : List Exponent)
    (t : Exponent.Transcript) :
    ((proof.draws n values).run t).1 =
      (⟨1, 1, 1, 1, List.replicate (proof.inner.L.zip proof.inner.R).length 1⟩ : Challenges Scalar) := by
  have hus : ((proof.draws (F := Scalar) n values).run t).1.us =
      List.replicate (proof.inner.L.zip proof.inner.R).length 1 := run_drawRounds _ _
  rw [← hus, ← ofBytes_one]
  rfl

/-- A proof without scalars, whose points cancel. -/
def freeProof (rounds : ℕ) (T₁ T₂ : Exponent) : RangeProof Scalar Exponent where
  A := of 1
  S := -of 1
  T₁ := T₁
  T₂ := T₂
  tx := 0
  txBlinding := 0
  eBlinding := 0
  inner := ⟨List.replicate rounds (of 1), List.replicate rounds (-of 1), 0, 0⟩

section
variable {rounds : ℕ} {T₁ T₂ : Exponent} {values : List Exponent}

theorem freeProof_points (h₁ : T₁ ≠ 0) (h₂ : T₂ ≠ 0) :
    ∀ p ∈ (freeProof rounds T₁ T₂).points, p ≠ 0 := by
  have hone : of 1 ≠ 0 := by decide +kernel
  simp only [RangeProof.points, InnerProductProof.points, freeProof, List.forall_mem_append,
    List.forall_mem_cons, List.mem_replicate]
  refine ⟨⟨hone, neg_ne_zero.mpr hone, h₁, h₂, List.forall_mem_nil _⟩, ?_, ?_⟩
  · rintro p ⟨-, rfl⟩
    exact hone
  · rintro p ⟨-, rfl⟩
    exact neg_ne_zero.mpr hone

theorem freeProof_combination {x y : List Scalar} {Q : Exponent} {G H : List Exponent}
    (hG : ∀ p ∈ G, p = 0) (hH : ∀ p ∈ H, p = 0) :
    (freeProof rounds T₁ T₂).inner.combination x y (List.replicate rounds 1) Q G H = 0 := by
  have hone : ∀ u ∈ List.replicate rounds (1 : Scalar), u ≠ 0 := by
    intro u hu
    rw [List.eq_of_mem_replicate hu]
    exact one_ne_zero
  have hsquares : (FoldingScalars.ofChallenges (List.replicate rounds (1 : Scalar))).squares =
      List.replicate rounds 1 := by
    simp [FoldingScalars.ofChallenges]
  have hinverses : (FoldingScalars.ofChallenges (List.replicate rounds (1 : Scalar))).inverseSquares =
      List.replicate rounds 1 := by
    simp [FoldingScalars.inverseSquares_eq hone]
  have hL := dot_replicate (1 : Scalar) (freeProof rounds T₁ T₂).inner.L
  have hR := dot_replicate (1 : Scalar) (freeProof rounds T₁ T₂).inner.R
  unfold InnerProductProof.combination
  simp only [freeProof, List.length_replicate] at hL hR ⊢
  -- the left points of the rounds cancel the right ones, since all challenges are one
  rw [hsquares, hinverses, hL, hR, dot_of_forall_zero _ hG, dot_of_forall_zero _ hH]
  simp

/-- The proof is accepted under every weight if its last two points cancel what the challenges fix. -/
theorem freeProof_accepts
    (hfit : ParametersFit (.build stream 64 64 : Generators Exponent) 64 values.length)
    (hlt : rounds < 32) (hrounds : 64 * values.length = 2 ^ rounds) (hvalues : ∀ v ∈ values, v = 0)
    (h₁ : T₁ ≠ 0) (h₂ : T₂ ≠ 0)
    (hsum : delta 64 values.length (1 : Scalar) 1 • (CommitmentKey.ledger : CommitmentKey Exponent).value
      + T₁ + T₂ = 0)
    (t : Exponent.Transcript) (c : Scalar) :
    (freeProof rounds T₁ T₂).Accepts (.build stream 64 64) .ledger 64 values t c := by
  have hshape : (freeProof rounds T₁ T₂).inner.HasShape (64 * values.length) := by
    refine ⟨?_, ?_, ?_⟩ <;> simp only [freeProof, List.length_replicate]
    · exact hlt
    · exact hrounds
  have hdraws := run_draws (freeProof rounds T₁ T₂) 64 values t
  have hzip : ((freeProof rounds T₁ T₂).inner.L.zip (freeProof rounds T₁ T₂).inner.R).length =
      rounds := by
    simp [freeProof]
  rw [hzip] at hdraws
  have hprepare := RangeProof.prepare_eq_ok_iff.mpr ⟨checkParameters_eq_ok_iff.mpr hfit, hshape,
    freeProof_points h₁ h₂, Prod.ext hdraws rfl⟩
  have hG : ∀ p ∈ (Generators.build stream 64 64).vector .G 64 values.length, p = (0 : Exponent) :=
    fun _ => eq_zero_of_mem_vector
  have hH : ∀ p ∈ (Generators.build stream 64 64).vector .H 64 values.length, p = (0 : Exponent) :=
    fun _ => eq_zero_of_mem_vector
  have hvalue : ∀ j : Fin values.length, values[j] = 0 := fun j => hvalues _ (List.getElem_mem _)
  -- of the vector point only `A + S` is left, of the defect what the last two points cancel
  rw [RangeProof.accepts_iff hprepare, freeProof_combination hG hH]
  simp only [RangeProof.vectorPoint, RangeProof.valueDefect, hvalue, List.sum_eq_zero hG,
    dot_of_forall_zero _ hH]
  simp [freeProof, hsum]

end

theorem exists_add_eq (p : Exponent) : ∃ a b : Exponent, a ≠ 0 ∧ b ≠ 0 ∧ a + b = p := by
  by_cases h : p = of 1
  · refine ⟨of 2, -of 1, by decide +kernel, by decide +kernel, ?_⟩
    rw [h]
    decide +kernel
  · exact ⟨of 1, p - of 1, by decide +kernel, sub_ne_zero.mpr h, add_sub_cancel _ _⟩

/-- Any number of commitments to nothing, up to the parties of the table, has a proof that is read back
and accepted. -/
theorem exists_rangeProof {values : List Exponent} (hvalues : ∀ v ∈ values, v = 0)
    (hne : values ≠ []) (hle : values.length ≤ 64) :
    ∃ proof : RangeProof Scalar Exponent, RangeProof.ofBytes proof.toBytes = .ok proof ∧
      ∀ source, ((verifyPadded Exponent.Transcript (.build stream 64 64) .ledger proof values).run
        source).1 = .ok () := by
  have hfit := parametersFit_padToPowerOfTwo (P := Exponent) stream hne hle
  have hparties := hfit.parties.trans_eq (Generators.parties_build stream 64 64)
  obtain ⟨rounds, hrounds⟩ := hfit.exists_eq_two_pow
  have hlt : rounds < 32 := by
    refine (Nat.pow_lt_pow_iff_right (by decide : 1 < 2)).mp ?_
    rw [← hrounds, amountBits]
    omega
  obtain ⟨T₁, T₂, h₁, h₂, hsum⟩ := exists_add_eq
    (-(delta 64 (padToPowerOfTwo values).length (1 : Scalar) 1 •
      (CommitmentKey.ledger : CommitmentKey Exponent).value))
  have hzero : ∀ v ∈ padToPowerOfTwo values, v = 0 :=
    fun v hv => hvalues v (mem_of_mem_padToPowerOfTwo hv)
  have haccepts := freeProof_accepts hfit hlt hrounds hzero h₁ h₂
    (by rw [add_assoc, hsum, add_neg_cancel])
  refine ⟨freeProof rounds T₁ T₂, RangeProof.ofBytes_toBytes ?_ ?_, fun source => ?_⟩
  · simpa [freeProof] using hlt
  · simp [freeProof]
  · rw [verifyPadded_fst, RangeProof.verify_fst]
    exact haccepts _ _

/-! #### The ring signatures -/

/-- The ring whose only member has the given one-time key and commits to nothing. -/
def singleRing (x : Scalar) : List (RingMember Exponent) := [⟨0, x • base, 0⟩]

/-- The request to spend its member. -/
def singleRequest (message : Bytes) (x : Scalar) : SigningRequest Scalar Exponent where
  message := message
  ring := singleRing x
  realIndex := 0
  onetimeKey := x
  value := 0
  blinding := 0
  pseudoBlinding := 0
  pseudoOutput := 0

/-- What the signer closes the ring with if both of its random scalars are zero. -/
def singleSignature (message : Bytes) (x : Scalar) : RingSignature Scalar Exponent where
  cZero := (singleRequest message x).realChallenge ⟨0, x • base, 0⟩ (0, 0)
  responses := unpair [(singleRequest message x).realResponses
    ((singleRequest message x).realChallenge ⟨0, x • base, 0⟩ (0, 0)) (0, 0)]
  keyImage := keyImage x

theorem of_seven_ne_zero : of 7 ≠ 0 := by decide +kernel

theorem singleSignature_accepted (message : Bytes) {x : Scalar} (hx : x ≠ 0) :
    (singleSignature message x).verify message (singleRing x) 0 = .ok () := by
  have hcommitment : (singleRequest message x).pseudoOutput - 0 =
      (singleRequest message x).commitmentKey • base := by
    simp [singleRequest, SigningRequest.commitmentKey]
  have hclose : (singleRequest message x).close ⟨0, x • base, 0⟩ [] (0, 0) =
      .ok (singleSignature message x) :=
    SigningRequest.close_eq_ok_iff.mpr ⟨hcommitment, rfl⟩
  have himage : (keyImage x : Exponent) ≠ 0 := smul_ne_zero hx of_seven_ne_zero
  have haccepted : (singleSignature message x).verify (singleRequest message x).message
      (singleRequest message x).ring (singleRequest message x).pseudoOutput = .ok () :=
    SigningRequest.verify_of_close rfl rfl himage rfl hclose
  exact haccepted

theorem keyImage_injective : Function.Injective (keyImage : Scalar → Exponent) :=
  smul_left_injective Scalar of_seven_ne_zero

/-! #### The signature -/

/-- One-time keys that differ make a signature over as many commitments to nothing as the range proof has
room for. -/
theorem exists_accepted_of_keys {keys : List Scalar} (hkeys : ∀ x ∈ keys, x ≠ 0) (hnodup : keys.Nodup)
    {outputs : ℕ} (hpos : 0 < keys.length + outputs) (hle : keys.length + outputs ≤ 64)
    (message : Bytes) :
    ∃ signature : TxSignature Scalar Exponent, ∀ source,
      ((signature.verify Exponent.Transcript (.build stream 64 64) message (keys.map singleRing)
        (List.replicate outputs 0) 0).run source).1 = .ok () := by
  let pseudoOutputs : List Exponent := keys.map fun _ => 0
  let commitments : List Exponent := List.replicate outputs 0
  have hzero : ∀ v ∈ pseudoOutputs ++ commitments, v = 0 := by
    simp [pseudoOutputs, commitments]
  have hlength : (pseudoOutputs ++ commitments).length = keys.length + outputs := by
    simp [pseudoOutputs, commitments]
  obtain ⟨proof, hread, hproof⟩ := exists_rangeProof hzero
    (List.ne_nil_of_length_pos (hlength ▸ hpos)) (hlength ▸ hle)
  let extended := TxSignature.extendMessage message pseudoOutputs proof.toBytes
  refine ⟨⟨proof.toBytes, pseudoOutputs, keys.map (singleSignature extended)⟩, fun source => ?_⟩
  refine TxSignature.verify_eq_ok_iff.mpr ⟨?_, ?_, ?_, ⟨proof, hread, hproof source⟩, ?_, ?_⟩
  · rw [List.length_map, List.length_map]
  · rw [List.length_map, List.length_map]
  · rw [allDistinct_iff, TxSignature.keyImages, List.map_map, List.map_map]
    exact hnodup.map (encode_point_injective.comp keyImage_injective)
  · unfold isBalanced
    rw [beq_iff_eq, List.sum_append, List.sum_singleton, List.sum_eq_zero (by simp [pseudoOutputs]),
      List.sum_eq_zero (by simp), commitAmount_eq, zero_smul, add_zero]
    simp
  · rw [List.zip_map', List.zip_map']
    rintro entry hentry
    obtain ⟨x, hx, rfl⟩ := List.mem_map.mp hentry
    exact singleSignature_accepted extended (hkeys x hx)

/-- The one-time key of an input. -/
def inputKey (i : ℕ) : Scalar := (i + 1 : ℕ)

theorem inputKey_injOn {i j : ℕ} (hi : i < 64) (hj : j < 64) (h : inputKey i = inputKey j) : i = j := by
  have horder : 65 < groupOrder := by decide
  exact Nat.succ_injective
    (TxSignature.eq_of_natCast_eq (Nat.succ_lt_succ hi |>.trans horder) (by omega) h)

theorem inputKey_ne_zero {i : ℕ} (hi : i < 64) : inputKey i ≠ 0 := by
  intro h
  have horder : 65 < groupOrder := by decide
  have hcast : ((i + 1 : ℕ) : Scalar) = (0 : ℕ) := h.trans Nat.cast_zero.symm
  exact Nat.succ_ne_zero i (TxSignature.eq_of_natCast_eq (by omega) (by omega) hcast)

/-- Whether a signature with the given numbers of inputs and outputs is accepted from every source. -/
def AcceptsShape (message : Bytes) (inputs outputs : ℕ) : Prop :=
  ∃ (signature : TxSignature Scalar Exponent) (rings : List (List (RingMember Exponent)))
    (commitments : List Exponent), rings.length = inputs ∧ commitments.length = outputs ∧
      ∀ source, ((signature.verify Exponent.Transcript (.build stream 64 64) message rings commitments
        0).run source).1 = .ok ()

/-- Every pair of numbers of inputs and outputs that the range proof has room for is accepted. -/
theorem acceptsShape_of_le {inputs outputs : ℕ} (hpos : 0 < inputs + outputs)
    (hle : inputs + outputs ≤ 64) (message : Bytes) : AcceptsShape message inputs outputs := by
  let keys := (List.range inputs).map inputKey
  have hlength : keys.length = inputs := by simp [keys]
  have hkeys : ∀ x ∈ keys, x ≠ 0 := by
    rintro x hx
    obtain ⟨i, hi, rfl⟩ := List.mem_map.mp hx
    exact inputKey_ne_zero (by have := List.mem_range.mp hi; omega)
  have hnodup : keys.Nodup := by
    refine List.nodup_range.map_on fun i hi j hj h => inputKey_injOn ?_ ?_ h
    · have := List.mem_range.mp hi
      omega
    · have := List.mem_range.mp hj
      omega
  obtain ⟨signature, haccepted⟩ :=
    exists_accepted_of_keys hkeys hnodup (hlength.symm ▸ hpos) (hlength.symm ▸ hle) message
  exact ⟨signature, keys.map singleRing, List.replicate outputs 0, by rw [List.length_map, hlength],
    List.length_replicate, haccepted⟩

end Exponent

/-! ### The verifier -/

namespace TxSignature
variable {F P : Type}

/-- What the verifier makes sure of the numbers of inputs and outputs. -/
structure HasShape [Zero F] [NatCast F] [Add P] [Zero P] [PointEncoding P] [PointHash P] [BasePoint P]
    [MultiScalar F P] (signature : TxSignature F P) (rings : List (List (RingMember P)))
    (outputs : List P) (fee : UInt64) : Prop where
  length_ringSignatures : signature.ringSignatures.length = rings.length
  length_pseudoOutputs : signature.pseudoOutputs.length = rings.length
  rings_ne_nil : ∀ ring ∈ rings, ring ≠ []
  pos : 0 < rings.length + outputs.length
  le : rings.length + outputs.length ≤ 64
  balance : signature.pseudoOutputs.sum = outputs.sum + commitAmount fee (0 : F)

variable [Field F] [AddCommGroup P] [Module F P] [MultiScalar F P]
variable [ScalarEncoding F] [ScalarHash F] [PointEncoding P] [PointHash P] [BasePoint P]
variable [BEq F] [LawfulBEq F] [BEq P] [LawfulBEq P] {T : Type} [Transcript T]
variable {signature : TxSignature F P} {gens : Generators P} {message : Bytes}
variable {rings : List (List (RingMember P))} {outputs : List P} {fee : UInt64} {source : RandomSource}

omit [Module F P] in
theorem rings_ne_nil_of_verify
    (h : ((signature.verify T gens message rings outputs fee).run source).1 = .ok ()) :
    ∀ ring ∈ rings, ring ≠ [] := by
  obtain ⟨hsignatures, hpseudo, -, -, -, hverified⟩ := verify_eq_ok_iff.mp h
  intro ring hmem
  obtain ⟨i, hring⟩ := List.mem_iff_getElem?.mp hmem
  have hi := (List.getElem?_eq_some_iff.mp hring).1
  obtain ⟨ringSignature, hsignature⟩ : ∃ s, signature.ringSignatures[i]? = some s :=
    ⟨_, List.getElem?_eq_getElem (hsignatures ▸ hi)⟩
  obtain ⟨pseudoOutput, houtput⟩ : ∃ p, signature.pseudoOutputs[i]? = some p :=
    ⟨_, List.getElem?_eq_getElem (hpseudo ▸ hi)⟩
  have hverify := hverified (ringSignature, ring, pseudoOutput) (List.mem_of_getElem?
    (List.getElem?_zip_eq_some.mpr ⟨hsignature, List.getElem?_zip_eq_some.mpr ⟨hring, houtput⟩⟩))
  unfold RingSignature.verify at hverify
  exact (RingSignature.verifyWith_eq_ok_iff.mp hverify).1

omit [Module F P] [LawfulBEq F] [LawfulBEq P] in
/-- Without inputs the message is not looked at. -/
theorem verify_without_inputs
    (h : ((signature.verify T gens message [] outputs fee).run source).1 = .ok ()) (message' : Bytes) :
    ((signature.verify T gens message' [] outputs fee).run source).1 = .ok () := by
  obtain ⟨hsignatures, hpseudo, hdistinct, hproof, hbalanced, -⟩ := verify_eq_ok_iff.mp h
  refine verify_eq_ok_iff.mpr ⟨hsignatures, hpseudo, hdistinct, hproof, hbalanced, ?_⟩
  rw [List.zip_nil_left, List.zip_nil_right]
  exact List.forall_mem_nil _

/-- **Accepted shapes.**  Under the generators of every transaction, for any streams they are read from:
an accepted signature has one ring signature and one pseudo-output for every ring, no ring is empty, there
are inputs or outputs, and no more of both together than the table has parties.  If there are no inputs
then the signature is accepted over every message. -/
theorem shape_of_verify {stream : Bytes → ℕ → Bytes}
    (h : ((signature.verify T (.build stream 64 64) message rings outputs fee).run source).1 = .ok ()) :
    signature.HasShape (F := F) rings outputs fee ∧
      (rings = [] → ∀ message',
        ((signature.verify T (.build stream 64 64) message' rings outputs fee).run source).1 = .ok ()) := by
  obtain ⟨hsignatures, hpseudo, -, -, hbalanced, -⟩ := verify_eq_ok_iff.mp h
  have hfit := fit_of_verify h
  have hle := length_le_of_verify h
  rw [Generators.parties_build, ← hpseudo] at hle
  refine ⟨⟨hsignatures.symm, hpseudo.symm, rings_ne_nil_of_verify h, ?_, hle, ?_⟩, ?_⟩
  · rw [hpseudo, ← List.length_append, List.length_pos_iff]
    intro hnil
    rw [hnil] at hfit
    exact hfit.parties_ne rfl
  · unfold isBalanced at hbalanced
    rwa [beq_iff_eq, List.sum_append, List.sum_singleton] at hbalanced
  · rintro rfl message'
    exact verify_without_inputs h message'

/-- A signature over no inputs and one output. -/
theorem shape_of_verify_without_inputs : ∃ (signature : TxSignature Scalar Exponent)
    (outputs : List Exponent), outputs.length = 1 ∧
    ((signature.verify Exponent.Transcript (.build Exponent.stream 64 64) [] [] outputs 0).run
      Residue.source).1 = .ok () ∧
    signature.HasShape (F := Scalar) [] outputs 0 ∧
    ∀ message', ((signature.verify Exponent.Transcript (.build Exponent.stream 64 64) message' []
      outputs 0).run Residue.source).1 = .ok () := by
  obtain ⟨signature, rings, outputs, hrings, houtputs, haccepted⟩ :=
    Exponent.acceptsShape_of_le (by decide : 0 < 0 + 1) (by decide) []
  obtain rfl := List.length_eq_zero_iff.mp hrings
  have h := haccepted Residue.source
  obtain ⟨hshape, hmessages⟩ := shape_of_verify h
  exact ⟨signature, outputs, houtputs, h, hshape, hmessages rfl⟩

/-- The verifier accepts what the signer refuses: no inputs, no outputs, and more inputs than the largest
number of them. -/
theorem not_signable_of_accepted :
    (Exponent.AcceptsShape [] 0 1 ∧ ¬IsSignable 0 1) ∧
    (Exponent.AcceptsShape [] 1 0 ∧ ¬IsSignable 1 0) ∧
    (Exponent.AcceptsShape [] 17 1 ∧ ¬IsSignable 17 1) := by
  refine ⟨⟨?_, fun h => ?_⟩, ⟨?_, fun h => ?_⟩, ⟨?_, fun h => ?_⟩⟩
  · exact Exponent.acceptsShape_of_le (by decide) (by decide) []
  · exact absurd h.inputs_pos (by decide)
  · exact Exponent.acceptsShape_of_le (by decide) (by decide) []
  · exact absurd h.outputs_pos (by decide)
  · exact Exponent.acceptsShape_of_le (by decide) (by decide) []
  · exact absurd h.inputs_le (by decide)

end TxSignature
end ConfidentialTx
