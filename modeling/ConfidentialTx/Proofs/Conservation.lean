import ConfidentialTx.Proofs.ScalarField
import ConfidentialTx.Proofs.TxCompleteness

/-! # Conservation of amounts

A transaction that is accepted neither makes nor loses an amount, unless its openings give away the
discrete logarithm of the value base.

* `TxSignature.length_le_of_verify`: an accepted transaction has few inputs and outputs, since the
  range proof is one over all of them.
* `TxSignature.totalAmount_lt`: so few amounts sum to less than the group order.
* `TxSignature.smul_imageBase_of_isBalanced`: what the balance of the commitments says of openings.
* `TxSignature.conserved_or_discrete_log`: the amounts are conserved as numbers, or the value base is a
  known multiple of the base point. -/

namespace ConfidentialTx

/-! ### The number of commitments -/

theorem RangeProof.fit_of_verify {F P T : Type} [Field F] [AddCommGroup P] [Module F P]
    [MultiScalar F P] [ScalarEncoding F] [PointEncoding P] [BEq P] [LawfulBEq P] [Transcript T]
    {proof : RangeProof F P} {gens : Generators P} {key : CommitmentKey P} {n : ℕ} {values : List P}
    {t : T} {source : RandomSource} (h : (proof.verify gens key n values t source).1 = .ok ()) :
    ParametersFit gens n values.length := by
  rw [verify_fst] at h
  rcases hprepare : (proof.prepare gens n values).run t with ⟨e | ch, t'⟩
  · rw [verifyWith_of_refused hprepare] at h
    cases h
  · exact checkParameters_eq_ok_iff.mp (prepare_eq_ok_iff.mp hprepare).1

namespace TxSignature
variable {F P : Type} [Field F] [AddCommGroup P] [Module F P] [MultiScalar F P]
variable [ScalarEncoding F] [ScalarHash F] [PointEncoding P] [PointHash P] [BasePoint P]
variable [BEq F] [BEq P] [LawfulBEq P]

section
variable {T : Type} [Transcript T] {signature : TxSignature F P} {gens : Generators P}
variable {message : Bytes} {rings : List (List (RingMember P))} {outputs : List P} {fee : UInt64}
variable {source : RandomSource}

/-- The range proof of an accepted transaction is over all its padded commitments. -/
theorem fit_of_verify
    (h : ((signature.verify T gens message rings outputs fee).run source).1 = .ok ()) :
    ParametersFit gens amountBits (padToPowerOfTwo (signature.pseudoOutputs ++ outputs)).length := by
  obtain ⟨-, -, -, ⟨proof, -, hproof⟩, -⟩ := verify_eq_ok_iff.mp h
  rw [verifyPadded_fst] at hproof
  exact RangeProof.fit_of_verify hproof

theorem length_le_of_verify
    (h : ((signature.verify T gens message rings outputs fee).run source).1 = .ok ()) :
    signature.pseudoOutputs.length + outputs.length ≤ gens.parties := by
  calc signature.pseudoOutputs.length + outputs.length
    _ = (signature.pseudoOutputs ++ outputs).length := List.length_append.symm
    _ ≤ (padToPowerOfTwo (signature.pseudoOutputs ++ outputs)).length := length_le_padToPowerOfTwo _
    _ ≤ gens.parties := (fit_of_verify h).parties

end

/-! ### Sums of amounts -/

theorem totalAmount_le (amounts : List UInt64) : totalAmount amounts ≤ amounts.length * (2 ^ 64 - 1) := by
  induction amounts with
  | nil => exact Nat.zero_le _
  | cons v amounts ih =>
    have hv : v.toNat < 2 ^ 64 := v.toNat_lt
    have htotal : totalAmount (v :: amounts) = v.toNat + totalAmount amounts := rfl
    rw [htotal, List.length_cons, Nat.succ_mul]
    omega

theorem totalAmount_lt {amounts : List UInt64} (h : amounts.length ≤ 64) (fee : UInt64) :
    totalAmount amounts + fee.toNat < groupOrder := by
  have hfee : fee.toNat < 2 ^ 64 := fee.toNat_lt
  have htotal := totalAmount_le amounts
  have hcount := Nat.mul_le_mul_right (2 ^ 64 - 1) h
  have horder : 65 * 2 ^ 64 < groupOrder := by decide
  omega

omit [ScalarEncoding F] [ScalarHash F] [BEq F] in
theorem eq_of_natCast_eq {p a b : ℕ} [CharP F p] (ha : a < p) (hb : b < p) (h : (a : F) = b) : a = b :=
  ((CharP.natCast_eq_natCast F p).mp h).eq_of_lt_of_lt ha hb

/-! ### Openings -/

/-- The sum of the amounts of openings, as a number of any size. -/
def openedTotal {F : Type} (openings : List (Opening F)) : ℕ := totalAmount (openings.map (·.value))

/-- The sum of the blinding factors of openings. -/
def openedBlinding {F : Type} [Add F] [Zero F] (openings : List (Opening F)) : F :=
  (openings.map (·.blinding)).sum

variable [LawfulMultiScalar F P] {spent received : List (Opening F)} {fee : UInt64}

omit [ScalarEncoding F] [ScalarHash F] [BEq F] [BEq P] [LawfulBEq P] in
theorem sum_commitOutputs (openings : List (Opening F)) :
    (commitOutputs openings : List P).sum =
      (openedTotal openings : F) • imageBase (base : P) + openedBlinding openings • (base : P) := by
  rw [commitOutputs_eq, sum_commitAmount (by simp)]
  rfl

omit [ScalarEncoding F] [ScalarHash F] [BEq F] in
/-- The openings of commitments that balance relate the value base and the base point. -/
theorem smul_imageBase_of_isBalanced
    (h : isBalanced F (commitOutputs spent : List P) (commitOutputs received) fee = true) :
    ((openedTotal spent : F) - openedTotal received - fee.toNat) • imageBase (base : P) =
      (openedBlinding received - openedBlinding spent) • (base : P) := by
  unfold isBalanced at h
  rw [beq_iff_eq, List.sum_append, List.sum_singleton, sum_commitOutputs, sum_commitOutputs,
    commitAmount_eq, zero_smul, add_zero] at h
  rw [sub_smul, sub_smul, sub_smul, sub_sub, sub_eq_sub_iff_add_eq_add, h]
  abel

/-- **Conservation.**  Under the generators of every transaction, for any streams they are read from:
let a transaction be accepted whose pseudo-outputs and outputs are commitments to amounts.  The sums
stay below the group order.  Either the amounts are conserved as numbers, and the blinding factors with
them; or they are not conserved as residues either, and the value base of the ledger is the quotient of
the two differences times the base point. -/
theorem conserved_or_discrete_log [CharP F groupOrder] {T : Type} [Transcript T]
    (stream : Bytes → ℕ → Bytes) {signature : TxSignature F P} {message : Bytes}
    {rings : List (List (RingMember P))} {outputs : List P} {source : RandomSource}
    (hbase : (base : P) ≠ 0)
    (h : ((signature.verify T (.build stream 64 64) message rings outputs fee).run source).1 = .ok ())
    (hspent : signature.pseudoOutputs = commitOutputs spent)
    (hreceived : outputs = commitOutputs received) :
    openedTotal spent < groupOrder ∧ openedTotal received + fee.toNat < groupOrder ∧
    ((openedTotal spent = openedTotal received + fee.toNat ∧
        openedBlinding spent = openedBlinding received) ∨
      (openedTotal spent : F) - openedTotal received - fee.toNat ≠ 0 ∧
        (CommitmentKey.ledger : CommitmentKey P).value =
          ((openedBlinding received - openedBlinding spent) /
            ((openedTotal spent : F) - openedTotal received - fee.toNat)) • (base : P)) := by
  have hcount := length_le_of_verify h
  obtain ⟨-, -, -, -, hbalanced, -⟩ := verify_eq_ok_iff.mp h
  rw [hspent, hreceived] at hbalanced
  rw [Generators.parties_build, hspent, hreceived, commitOutputs, commitOutputs, List.length_map,
    List.length_map] at hcount
  have hspent_length : (spent.map (·.value)).length ≤ 64 := by
    rw [List.length_map]
    omega
  have hreceived_length : (received.map (·.value)).length ≤ 64 := by
    rw [List.length_map]
    omega
  have hspent_lt : openedTotal spent < groupOrder := totalAmount_lt hspent_length 0
  have hreceived_lt : openedTotal received + fee.toNat < groupOrder :=
    totalAmount_lt hreceived_length fee
  have hvalue := smul_imageBase_of_isBalanced hbalanced
  refine ⟨hspent_lt, hreceived_lt, ?_⟩
  by_cases hzero : (openedTotal spent : F) - openedTotal received - fee.toNat = 0
  · left
    constructor
    · rw [sub_sub, sub_eq_zero, ← Nat.cast_add] at hzero
      exact eq_of_natCast_eq hspent_lt hreceived_lt hzero
    · rw [hzero, zero_smul] at hvalue
      have hsum := (smul_eq_zero.mp hvalue.symm).resolve_right hbase
      exact (sub_eq_zero.mp hsum).symm
  · right
    refine ⟨hzero, ?_⟩
    change imageBase (base : P) = _
    rw [div_eq_inv_mul, mul_smul, ← hvalue, inv_smul_smul₀ hzero]

end TxSignature

/-! ### Points that are their discrete logarithms -/

/-- The scalars as points: a group of the group order in which every point is its own discrete
logarithm. -/
def Exponent : Type := Scalar

namespace Exponent

instance : AddCommGroup Exponent := inferInstanceAs (AddCommGroup Scalar)
instance : Module Scalar Exponent := inferInstanceAs (Module Scalar Scalar)
instance : DecidableEq Exponent := inferInstanceAs (DecidableEq Scalar)

/-- The point with the given discrete logarithm. -/
def of (n : ℕ) : Exponent := (n : Scalar)

instance : MultiScalar Scalar Exponent := ⟨dot⟩
instance : LawfulMultiScalar Scalar Exponent := ⟨fun _ _ _ => rfl⟩
instance : BasePoint Exponent := ⟨of 1⟩
instance : PointHash Exponent := ⟨fun _ _ => of 7⟩
instance : PointEncoding Exponent := ⟨Scalar.encode, Scalar.decode, Scalar.ofBytes⟩
instance : LawfulPointEncoding Exponent := ⟨fun x => Bytes.length_ofNat 32 x.val, Scalar.decode_encode⟩

/-- A transcript that draws nothing but ones. -/
abbrev Transcript : Type := History fun _ => [1]

/-- A stream that ends at once, so all generators are zero. -/
def stream (_ : Bytes) (_ : ℕ) : Bytes := []

/-- An input of 5, opened without a blinding factor. -/
def spent : List (Opening Scalar) := [⟨5, 0⟩]

/-- An output of 3, which with a fee of 1 loses an amount. -/
def received : List (Opening Scalar) := [⟨3, 7⟩]

/-- A proof for the two commitments over generators that are zero. -/
def rangeProof : RangeProof Scalar Exponent where
  A := -of 15
  S := of 1
  T₁ := of (14 * (2 ^ 64 - 1) - 64)
  T₂ := of 1
  tx := 0
  txBlinding := 0
  eBlinding := 0
  inner := ⟨List.replicate 7 (of 1), List.replicate 7 (of 1), 0, 0⟩

/-- The request for the ring of the input. -/
def request : SigningRequest Scalar Exponent where
  message := TxSignature.extendMessage [] [of 35] rangeProof.toBytes
  ring := [⟨of 2, of 3, of 35⟩]
  realIndex := 0
  onetimeKey := 3
  value := 5
  blinding := 0
  pseudoBlinding := 0
  pseudoOutput := of 35

theorem exists_ringSignature : ∃ signature : RingSignature Scalar Exponent,
    signature.verify request.message request.ring request.pseudoOutput = .ok () := by
  have hcommitment : request.pseudoOutput - of 35 = request.commitmentKey • base := by decide +kernel
  have hclose : request.close ⟨of 2, of 3, of 35⟩ [] (1, 1) = .ok _ :=
    SigningRequest.close_eq_ok_iff.mpr ⟨hcommitment, rfl⟩
  exact ⟨_, SigningRequest.verify_of_close rfl (by decide +kernel) (by decide +kernel) rfl hclose⟩

theorem rangeProof_accepted : ((verifyPadded Exponent.Transcript (.build stream 64 64) .ledger rangeProof
    [of 35, of 28]).run Residue.source).1 = .ok () := by
  decide +kernel

theorem exists_accepted : ∃ signature : TxSignature Scalar Exponent,
    signature.pseudoOutputs = [of 35] ∧
    ((signature.verify Exponent.Transcript (.build stream 64 64) [] [request.ring] [of 28] 1).run
      Residue.source).1 = .ok () := by
  obtain ⟨ringSignature, hring⟩ := exists_ringSignature
  have hread : RangeProof.ofBytes rangeProof.toBytes = .ok rangeProof :=
    RangeProof.ofBytes_toBytes (by decide) rfl
  have hbalanced : isBalanced Scalar [of 35] [of 28] 1 = true := by decide +kernel
  refine ⟨⟨rangeProof.toBytes, [of 35], [ringSignature]⟩, rfl, ?_⟩
  exact TxSignature.verify_eq_ok_iff.mpr ⟨rfl, rfl, rfl, ⟨rangeProof, hread, rangeProof_accepted⟩,
    hbalanced, List.forall_mem_singleton.mpr hring⟩

end Exponent

/-- An input of 5 with an output of 3 and a fee of 1 is accepted, and gives the discrete logarithm of
the value base away. -/
theorem TxSignature.discrete_log_of_lost_amount :
    (base : Exponent) ≠ 0 ∧ ∃ signature : TxSignature Scalar Exponent,
      ((signature.verify Exponent.Transcript (.build Exponent.stream 64 64) []
        [Exponent.request.ring] (commitOutputs Exponent.received) 1).run Residue.source).1 = .ok () ∧
      signature.pseudoOutputs = commitOutputs Exponent.spent ∧
      (CommitmentKey.ledger : CommitmentKey Exponent).value =
        ((openedBlinding Exponent.received - openedBlinding Exponent.spent) /
          ((openedTotal Exponent.spent : Scalar) - openedTotal Exponent.received
            - (1 : UInt64).toNat)) • (base : Exponent) := by
  have hbase : (base : Exponent) ≠ 0 := by decide +kernel
  have hspent : commitOutputs Exponent.spent = [Exponent.of 35] := by decide +kernel
  have hreceived : commitOutputs Exponent.received = [Exponent.of 28] := by decide +kernel
  obtain ⟨signature, hpseudo, h⟩ := Exponent.exists_accepted
  rw [← hspent] at hpseudo
  rw [← hreceived] at h
  obtain ⟨-, -, ⟨hconserved, -⟩ | ⟨-, hvalue⟩⟩ :=
    conserved_or_discrete_log Exponent.stream hbase h hpseudo rfl
  · exact absurd hconserved (by decide)
  · exact ⟨hbase, signature, h, hpseudo, hvalue⟩

end ConfidentialTx
