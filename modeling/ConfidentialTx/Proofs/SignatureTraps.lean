import ConfidentialTx.Proofs.Blame
import ConfidentialTx.Proofs.DealerTraps
import ConfidentialTx.Proofs.RingLoop
import ConfidentialTx.Proofs.WireTraps
import ConfidentialTx.Tx.Signature

/-! # Signatures do not trap

A ring signature finds its two responses at positions that it computes for every member of the ring.  A
transaction signature decodes a range proof from bytes, pads commitments to a power of two, and finds the ring
signature and the pseudo-output of every input by its position.

* `RingSignature.verifyTrapping_eq`: a ring signature with any responses is verified without a trap.
* `TxSignature.verifyTrapping_eq`: so is a transaction signature with any bytes in place of the range proof.
* `verifiers_never_trap`: no verifier traps, whatever lengths the lists in its data have. -/

namespace ConfidentialTx

open Trapping

/-! ### Ring signatures -/

namespace RingSignature

variable {F P : Type} [BEq F] [AddCommGroup P] [BEq P] [MultiScalar F P]
variable [PointEncoding P] [PointHash P] [BasePoint P]

/-- The challenge behind position `i`. -/
def positionTrapping (signature : RingSignature F P) (hash : RingPoints P → F) (ring : List (RingMember P))
    (pseudoOutput : P) (c : F) (i : ℕ) : Except Trap F := do
  let member ← entry ring i
  let first ← mul 2 i
  let r ← entry signature.responses first
  let L₀ ← Iter.multiscalar (.ofList [r, c]) (.ofList [base, member.targetKey])
  let R₀ ← Iter.multiscalar (.ofList [r, c]) (.ofList [imageBase member.targetKey, signature.keyImage])
  let second ← add first 1
  let r' ← entry signature.responses second
  let L₁ ← Iter.multiscalar (.ofList [r', c]) (.ofList [base, pseudoOutput - member.commitment])
  pure (hash ⟨L₀, R₀, L₁⟩)

variable [ScalarHash F]

/-- Verifies a signature over a message, a ring and a pseudo-output. -/
def verifyTrapping (signature : RingSignature F P) (message : Bytes) (ring : List (RingMember P))
    (pseudoOutput : P) : Except Trap (Except SignatureError Unit) := do
  if ring.isEmpty then return .error .emptyRing
  let expected ← mul 2 ring.length
  if signature.responses.length ≠ expected then
    return .error (.lengthMismatch expected signature.responses.length)
  if signature.keyImage == 0 then return .error .invalidKeyImage
  let hash := challenge message signature.keyImage
  let c ← (List.range ring.length).foldlM (signature.positionTrapping hash ring pseudoOutput) signature.cZero
  return if c == signature.cZero then .ok () else .error .invalid

omit [BEq F] [BEq P] [ScalarHash F] in
theorem positions_eq {signature : RingSignature F P} {ring : List (RingMember P)} (hash : RingPoints P → F)
    (pseudoOutput : P) (hring : ring.length < 2 ^ 57)
    (hresponses : signature.responses.length = 2 * ring.length) :
    (List.range ring.length).foldlM (signature.positionTrapping hash ring pseudoOutput) signature.cZero =
      .ok (walk hash signature.keyImage pseudoOutput signature.cZero
        (ring.zip (pairs signature.responses))) := by
  have hpairs : (pairs signature.responses).length = ring.length := (unpair_pairs hresponses).2
  have hlength : (ring.zip (pairs signature.responses)).length = ring.length := by
    rw [List.length_zip, hpairs, Nat.min_self]
  refine foldlM_range_eq_ok (fun i => walk hash signature.keyImage pseudoOutput signature.cZero
    ((ring.zip (pairs signature.responses)).take i)) rfl ?_ fun i hi => ?_
  · rw [List.take_of_length_le hlength.le]
  · have hfirst : 2 * i < signature.responses.length := by omega
    have hsecond : 2 * i + 1 < signature.responses.length := by omega
    have hi' : i < (ring.zip (pairs signature.responses)).length := by omega
    have hpair : (pairs signature.responses)[i]? =
        some (signature.responses[2 * i], signature.responses[2 * i + 1]) :=
      pairs_getElem?_eq_some_iff.mpr ⟨List.getElem?_eq_getElem hfirst, List.getElem?_eq_getElem hsecond⟩
    have hzip : (ring.zip (pairs signature.responses))[i] =
        (ring[i], signature.responses[2 * i], signature.responses[2 * i + 1]) := by
      rw [List.getElem_zip, (List.getElem?_eq_some_iff.mp hpair).2]
    have hsum : ∀ (r c : F) (p q : P), Iter.multiscalar (.ofList [r, c]) (.ofList [p, q]) =
        .ok (combine [r, c] [p, q]) := fun r c p q => Iter.multiscalar_ofList rfl
    simp only [positionTrapping, entry_eq hi, mul_eq (by omega : 2 * i < 2 ^ 64), entry_eq hfirst,
      add_eq (by omega : 2 * i + 1 < 2 ^ 64), entry_eq hsecond, hsum, bind, Except.bind]
    rw [List.take_succ_eq_append_getElem hi', hzip, walk, walk, List.foldl_append]
    rfl

theorem verifyTrapping_eq (signature : RingSignature F P) (message : Bytes) {ring : List (RingMember P)}
    (pseudoOutput : P) (hring : ring.length < 2 ^ 57) :
    signature.verifyTrapping message ring pseudoOutput = .ok (signature.verify message ring pseudoOutput) := by
  have hexpected : mul 2 ring.length = .ok (2 * ring.length) := mul_eq (by omega)
  simp only [verifyTrapping, verify, verifyWith, hexpected, bind, Except.bind]
  by_cases hempty : ring.isEmpty = true
  · rw [if_pos hempty, if_pos hempty]
    rfl
  rw [if_neg hempty, if_neg hempty]
  by_cases hlength : signature.responses.length ≠ 2 * ring.length
  · rw [if_pos hlength, if_pos hlength]
    rfl
  rw [if_neg hlength, if_neg hlength]
  by_cases himage : (signature.keyImage == 0) = true
  · rw [if_pos himage, if_pos himage]
    rfl
  rw [if_neg himage, if_neg himage, positions_eq _ _ hring (not_not.mp hlength)]
  simp only
  split <;> rfl

end RingSignature

/-! ### Padded proofs -/

/-- A list with its last entry repeated up to the next power of two. -/
def padTrapping {α : Type} (xs : List α) : Except Trap (List α) :=
  match xs.getLast? with
  | none => .ok xs
  | some last => do
    let size ← roundUp xs.length
    pure (xs ++ List.replicate (size - xs.length) last)

theorem padTrapping_eq {α : Type} {xs : List α} (h : xs.length ≤ 2 ^ 58) :
    padTrapping xs = .ok (padToPowerOfTwo xs) := by
  have hlog : Nat.clog 2 xs.length ≤ 58 := Nat.clog_le_of_le_pow h
  have hsize : nextPowerOfTwo xs.length < 2 ^ 64 := by
    rw [nextPowerOfTwo_eq]
    exact Nat.pow_lt_pow_right (Nat.lt_succ_self 1) (by omega)
  rw [padTrapping, padToPowerOfTwo]
  cases xs.getLast? with
  | none => rfl
  | some last =>
    simp only [roundUp_eq hsize, bind, Except.bind]
    rfl

section Padded
variable {F P : Type} (T : Type) [Transcript T] [Field F] [ScalarEncoding F] [AddCommGroup P] [BEq P]
variable [PointEncoding P] [MultiScalar F P]

/-- Verifies a proof over commitments in any number. -/
def verifyPaddedTrapping (gens : Generators P) (key : CommitmentKey P) (proof : RangeProof F P)
    (commitments : List P) : Trapping RandomSource RangeProofError Unit := do
  let padded ← step (padTrapping commitments)
  let source ← get
  let (result, _, source) ← step (proof.verifyTrapping gens key amountBits padded
    (Transcript.start amountLabel : T) source)
  set source
  match result with
  | .ok () => pure ()
  | .error e => throw e

theorem verifyPaddedTrapping_eq {gens : Generators P} (hgens : gens.parties < 2 ^ 57) (key : CommitmentKey P)
    (proof : RangeProof F P) {commitments : List P} (hlength : commitments.length ≤ 2 ^ 58) :
    verifyPaddedTrapping T gens key proof commitments = safe (verifyPadded T gens key proof commitments) := by
  have hsmall : min gens.parties (padToPowerOfTwo commitments).length < 2 ^ 57 :=
    (Nat.min_le_left _ _).trans_lt hgens
  simp only [verifyPaddedTrapping, verifyPadded, padTrapping_eq hlength, step_ok, pure_bind,
    proof.verifyTrapping_eq gens key amountBits hsmall, safe_bind]
  refine bind_congr fun source => bind_congr fun _ => ?_
  cases (proof.verify gens key amountBits (padToPowerOfTwo commitments)
    (Transcript.start amountLabel : T) source).1 <;> rfl

end Padded

/-! ### Transaction signatures -/

namespace TxSignature
variable {F P : Type}

/-- The message that the ring signatures sign, with the number of its bytes computed before. -/
def extendMessageTrapping [PointEncoding P] (message : Bytes) (pseudoOutputs : List P) (rangeProof : Bytes) :
    Except Trap Bytes := do
  let points ← mul pseudoOutputs.length 32
  let front ← add message.length points
  let _ ← add front rangeProof.length
  pure (extendMessage message pseudoOutputs rangeProof)

theorem extendMessageTrapping_eq [PointEncoding P] {message : Bytes} {pseudoOutputs : List P}
    {rangeProof : Bytes} (hmessage : message.length < 2 ^ 57) (houtputs : pseudoOutputs.length < 2 ^ 57)
    (hproof : rangeProof.length < 2 ^ 57) :
    extendMessageTrapping message pseudoOutputs rangeProof =
      .ok (extendMessage message pseudoOutputs rangeProof) := by
  have hpoints : mul pseudoOutputs.length 32 = .ok (pseudoOutputs.length * 32) := mul_eq (by omega)
  have hfront : add message.length (pseudoOutputs.length * 32) =
      .ok (message.length + pseudoOutputs.length * 32) := add_eq (by omega)
  have hall : add (message.length + pseudoOutputs.length * 32) rangeProof.length =
      .ok (message.length + pseudoOutputs.length * 32 + rangeProof.length) := add_eq (by omega)
  simp only [extendMessageTrapping, hpoints, hfront, hall, bind, Except.bind]
  rfl

variable [Field F] [BEq F] [ScalarEncoding F] [ScalarHash F]
variable [AddCommGroup P] [BEq P] [PointEncoding P] [PointHash P] [BasePoint P] [MultiScalar F P]

/-- Whether the inputs sum to the outputs and a public amount. -/
def isBalancedTrapping (F : Type) [Field F] [MultiScalar F P] (inputs outputs : List P) (extra : UInt64) :
    Except Trap Bool := do
  let commitment ← Iter.multiscalar (.ofList [(extra.toNat : F), 0]) (.ofList [imageBase base, (base : P)])
  pure (inputs.sum == (outputs ++ [commitment]).sum)

/-- Verifies the ring signature of every input. -/
def verifyRingsTrapping (signature : TxSignature F P) (extended : Bytes) (rings : List (List (RingMember P))) :
    Trapping RandomSource TransactionError Unit :=
  rings.zipIdx.forM fun (ring, i) => do
    let ringSignature ← step (entry signature.ringSignatures i)
    let pseudoOutput ← step (entry signature.pseudoOutputs i)
    ExceptT.adapt TransactionError.signature (check (ringSignature.verifyTrapping extended ring pseudoOutput))

/-- Verifies a signature over a message, rings, output commitments and a fee. -/
def verifyTrapping (T : Type) [Transcript T] (signature : TxSignature F P) (gens : Generators P)
    (message : Bytes) (rings : List (List (RingMember P))) (outputs : List P) (fee : UInt64) :
    Trapping RandomSource TransactionError Unit := do
  if rings.length ≠ signature.ringSignatures.length then
    throw (.lengthMismatch rings.length signature.ringSignatures.length)
  if rings.length ≠ signature.pseudoOutputs.length then
    throw (.lengthMismatch rings.length signature.pseudoOutputs.length)
  unless allDistinct (signature.keyImages.map PointEncoding.encode) do throw .duplicateKeyImage
  let proof : RangeProof F P ← ExceptT.adapt TransactionError.rangeProof
    (check (formatted (RangeProof.ofBytesTrapping signature.rangeProof)))
  ExceptT.adapt TransactionError.rangeProof
    (verifyPaddedTrapping T gens .ledger proof (signature.pseudoOutputs ++ outputs))
  let balanced ← step (isBalancedTrapping F signature.pseudoOutputs outputs fee)
  unless balanced do throw .valueNotConserved
  let extended ← step (extendMessageTrapping message signature.pseudoOutputs signature.rangeProof)
  signature.verifyRingsTrapping extended rings

omit [BEq F] [ScalarEncoding F] [ScalarHash F] in
theorem isBalancedTrapping_eq (inputs outputs : List P) (extra : UInt64) :
    isBalancedTrapping F inputs outputs extra = .ok (isBalanced F inputs outputs extra) := by
  have hcommit : Iter.multiscalar (.ofList [(extra.toNat : F), 0]) (.ofList [imageBase base, (base : P)]) =
      .ok (commitAmount extra (0 : F)) := Iter.multiscalar_ofList rfl
  simp only [isBalancedTrapping, hcommit, bind, Except.bind]
  rfl

omit [Field F] [ScalarEncoding F] in
theorem verifyRingsTrapping_eq {signature : TxSignature F P} (extended : Bytes)
    {rings : List (List (RingMember P))} (hsignatures : rings.length = signature.ringSignatures.length)
    (hinputs : rings.length = signature.pseudoOutputs.length) (hrings : ∀ ring ∈ rings, ring.length < 2 ^ 57) :
    signature.verifyRingsTrapping extended rings =
      safe ((signature.ringSignatures.zip (rings.zip signature.pseudoOutputs)).forM
        fun (ringSignature, ring, pseudoOutput) =>
          liftM ((ringSignature.verify extended ring pseudoOutput).mapError TransactionError.signature)) := by
  refine forM_zipIdx_eq ?_ ?_
  · rw [List.length_zip, List.length_zip, ← hsignatures, ← hinputs, Nat.min_self, Nat.min_self]
  · rintro i ring ⟨ringSignature, ring', pseudoOutput⟩ hring hinput
    obtain ⟨hsignature, hrest⟩ := List.getElem?_zip_eq_some.mp hinput
    obtain ⟨hring', hpseudo⟩ := List.getElem?_zip_eq_some.mp hrest
    obtain rfl : ring = ring' := Option.some.inj (hring.symm.trans hring')
    have hlength : ring.length < 2 ^ 57 := hrings ring (List.mem_of_getElem? hring)
    simp only [Nat.zero_add, entry_eq_ok_iff.mpr hsignature, entry_eq_ok_iff.mpr hpseudo, step_ok, pure_bind,
      ringSignature.verifyTrapping_eq extended pseudoOutput hlength, adapt_check_ok]

theorem verifyTrapping_eq (T : Type) [Transcript T] (signature : TxSignature F P) {gens : Generators P}
    (hgens : gens.parties < 2 ^ 57) {message : Bytes} {rings : List (List (RingMember P))} {outputs : List P}
    (fee : UInt64) (hmessage : message.length < 2 ^ 57) (hproof : signature.rangeProof.length < 2 ^ 57)
    (hpseudo : signature.pseudoOutputs.length < 2 ^ 57) (houtputs : outputs.length < 2 ^ 57)
    (hrings : ∀ ring ∈ rings, ring.length < 2 ^ 57) :
    signature.verifyTrapping T gens message rings outputs fee =
      safe (signature.verify T gens message rings outputs fee) := by
  unfold verifyTrapping verify
  by_cases hsignatures : rings.length ≠ signature.ringSignatures.length
  · rw [if_pos hsignatures, if_pos hsignatures]
    rfl
  rw [if_neg hsignatures, if_neg hsignatures]
  by_cases hinputs : rings.length ≠ signature.pseudoOutputs.length
  · rw [if_pos hinputs, if_pos hinputs]
    rfl
  rw [if_neg hinputs, if_neg hinputs]
  by_cases hdistinct : allDistinct (signature.keyImages.map PointEncoding.encode) = true
  · rw [if_pos hdistinct, if_pos hdistinct, RangeProof.ofBytesTrapping_eq, adapt_check_ok]
    have hcommitments : (signature.pseudoOutputs ++ outputs).length ≤ 2 ^ 58 := by
      rw [List.length_append]
      omega
    simp only [safe_bind, verifyPaddedTrapping_eq T hgens CommitmentKey.ledger _ hcommitments, adapt_safe]
    refine bind_congr fun proof => bind_congr fun _ => ?_
    simp only [isBalancedTrapping_eq, extendMessageTrapping_eq hmessage hpseudo hproof, step_ok, pure_bind]
    by_cases hbalanced : isBalanced F signature.pseudoOutputs outputs fee = true
    · rw [if_pos hbalanced, if_pos hbalanced]
      exact verifyRingsTrapping_eq _ (not_not.mp hsignatures) (not_not.mp hinputs) hrings
    · rw [if_neg hbalanced, if_neg hbalanced]
      rfl
  · rw [if_neg hdistinct, if_neg hdistinct]
    rfl

end TxSignature

/-! ### All verifiers -/

section All
variable {F P : Type} [Field F] [BEq F] [ScalarEncoding F] [ScalarHash F]
variable [AddCommGroup P] [BEq P] [Module F P] [PointEncoding P] [PointHash P] [BasePoint P] [MultiScalar F P]

/-- **No traps.**  Every verifier ends with an answer, which is the one that it gives by its definition on
whole lists.  On the way all sizes fit in a word, all entries and parts exist, and the scalars and points of
every sum are equally many and say so.  This holds of range proofs and inner-product proofs with lists of any
lengths, of shares with vectors of any lengths for a dealer after its first two rounds, of ring signatures with
any responses, and of transaction signatures with any bytes in place of the range proof; only the lists of
commitments, the rings, the message and those bytes are short enough for some memory. -/
theorem verifiers_never_trap (T : Type) [Transcript T] (gens : Generators P) (key : CommitmentKey P) :
    (∀ (proof : RangeProof F P) (n : ℕ) (values : List P) (t : T) (source : RandomSource),
      values.length < 2 ^ 57 →
      proof.verifyTrapping gens key n values t source = .ok (proof.verify gens key n values t source)) ∧
    (∀ (proof : InnerProductProof F P) (n : ℕ) (x y : List F) (expected Q : P) (G H : List P) (t : T),
      (proof.verifyTrapping n x y expected Q G H).run t = .ok ((proof.verify n x y expected Q G H).run t)) ∧
    (∀ (start : T) (n m : ℕ) (bits : List (BitCommitment P)) (polys : List (PolyCommitment P))
      (created : Dealer T) (withBits : Dealer.WithBits F P T) (dealer : Dealer.WithPolys F P T),
      Dealer.create gens start n m = .ok created → created.receiveBits bits = .ok withBits →
      withBits.receivePolys polys = .ok dealer → bits.length < 2 ^ 57 →
      ∀ (shares : List (ProofShare F)) (source : RandomSource),
        (dealer.receiveSharesTrapping gens key shares).run source =
          .ok ((dealer.receiveShares gens key shares).run source)) ∧
    (∀ (signature : RingSignature F P) (message : Bytes) (ring : List (RingMember P)) (pseudoOutput : P),
      ring.length < 2 ^ 57 →
      signature.verifyTrapping message ring pseudoOutput =
        .ok (signature.verify message ring pseudoOutput)) ∧
    (∀ (signature : TxSignature F P) (message : Bytes) (rings : List (List (RingMember P)))
      (outputs : List P) (fee : UInt64) (source : RandomSource),
      gens.parties < 2 ^ 57 → message.length < 2 ^ 57 → signature.rangeProof.length < 2 ^ 57 →
      signature.pseudoOutputs.length < 2 ^ 57 → outputs.length < 2 ^ 57 →
      (∀ ring ∈ rings, ring.length < 2 ^ 57) →
      (signature.verifyTrapping T gens message rings outputs fee).run source =
        .ok ((signature.verify T gens message rings outputs fee).run source)) := by
  refine ⟨?_, ?_, ?_, ?_, ?_⟩
  · intro proof n values t source hvalues
    exact proof.verifyTrapping_eq gens key n ((Nat.min_le_right _ _).trans_lt hvalues) t source
  · intro proof n x y expected Q G H t
    rw [proof.verifyTrapping_eq, run_safe]
  · intro start n m bits polys created withBits dealer hcreate hbits hpolys hlength shares source
    obtain ⟨hreached, -, -, -, hdealer, -⟩ := Dealer.isReached hcreate hbits hpolys
    rw [Dealer.WithPolys.receiveSharesTrapping_eq hreached (hdealer ▸ hlength), run_safe]
  · intro signature message ring pseudoOutput hring
    exact signature.verifyTrapping_eq message pseudoOutput hring
  · intro signature message rings outputs fee source hgens hmessage hproof hpseudo houtputs hrings
    rw [signature.verifyTrapping_eq T hgens fee hmessage hproof hpseudo houtputs hrings, run_safe]

end All

/-! ### Crooked data -/

/-- A proof with three points on the left and five on the right. -/
def crookedProof : RangeProof Residue Residue := ⟨1, 2, 3, 4, 5, 6, 7, ⟨[1, 2, 3], [1, 2, 3, 4, 5], 8, 9⟩⟩

/-- Shares with vectors of no common length. -/
def crookedShares : List (ProofShare Residue) := [⟨1, 2, 3, [1, 2, 3], []⟩, ⟨4, 5, 6, [], [7, 8, 9, 10]⟩]

/-- A ring signature with an odd number of responses. -/
def crookedRing : RingSignature Residue Residue := ⟨1, [2, 3, 4], 5⟩

/-- A transaction signature with thirty-three bytes in place of the range proof. -/
def crookedSignature : TxSignature Residue Residue := ⟨List.replicate 33 0, [6, 7], [crookedRing, ⟨1, [], 6⟩]⟩

/-- Crooked data is refused by every verifier. -/
theorem verifiers_never_trap_on_crooked :
    (∃ t, crookedProof.verifyTrapping (Residue.table 8 2) Residue.key 8 [1, 2] Residue.start Residue.source =
      .ok (.error .verificationError, t, Residue.source)) ∧
    (crookedProof.inner.verifyTrapping 2 [1, 1] [1, 1] 3 4 [5, 6] [7, 8]).run Residue.start =
      .ok (.error (.verificationError), Residue.start) ∧
    (∃ dealer, Dealer.WithPolys.rogueDealer = .ok dealer ∧
      (dealer.receiveSharesTrapping (Residue.table 8 2) Residue.key crookedShares).run Residue.source =
        .ok (.error (.malformedProofShares [0, 1]), Residue.source)) ∧
    crookedRing.verifyTrapping [] [⟨1, 2, 3⟩, ⟨4, 5, 6⟩] 7 = .ok (.error (.lengthMismatch 4 3)) ∧
    (crookedSignature.verifyTrapping Residue.Transcript (Residue.table 8 2) [] [[⟨1, 2, 3⟩], []] [8] 9).run
      Residue.source = .ok (.error (.rangeProof .formatError), Residue.source) := by
  obtain ⟨hproof, hinner, hshares, hring, hsignature⟩ :=
    verifiers_never_trap (F := Residue) Residue.Transcript (Residue.table 8 2) Residue.key
  refine ⟨?_, ?_, ?_, ?_, ?_⟩
  · rw [hproof crookedProof 8 [1, 2] Residue.start Residue.source (by decide)]
    exact ⟨_, rfl⟩
  · rw [hinner]
    rfl
  · have hrun : Dealer.WithPolys.rogueDealer.toOption.any (fun dealer =>
        match dealer.assemble (Residue.table 8 2) Residue.key crookedShares with
        | .error e => e = .malformedProofShares [0, 1]
        | .ok _ => false) = true := by
      decide +kernel
    obtain ⟨dealer, hdealer, hassemble⟩ := any_toOption_iff.mp hrun
    obtain ⟨created, hcreate, hrest⟩ := bind_eq_ok.mp hdealer
    obtain ⟨withBits, hbits, hpolys⟩ := bind_eq_ok.mp hrest
    refine ⟨dealer, hdealer, ?_⟩
    rw [hshares _ _ _ _ _ _ _ _ hcreate hbits hpolys (by decide) crookedShares Residue.source]
    cases hrefused : dealer.assemble (Residue.table 8 2) Residue.key crookedShares with
    | error e =>
      rw [hrefused, decide_eq_true_eq] at hassemble
      rw [Dealer.WithPolys.receiveShares, hrefused, hassemble]
      rfl
    | ok answer =>
      rw [hrefused] at hassemble
      cases hassemble
  · rw [hring crookedRing [] [⟨1, 2, 3⟩, ⟨4, 5, 6⟩] 7 (by decide)]
    rfl
  · rw [hsignature crookedSignature [] [[⟨1, 2, 3⟩], []] [8] 9 Residue.source (by decide) (by decide)
      (by decide) (by decide) (by decide) (by decide)]
    rfl

end ConfidentialTx
