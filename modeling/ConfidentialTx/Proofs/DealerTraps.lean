import ConfidentialTx.Proofs.Assembly
import ConfidentialTx.Proofs.ProverTraps
import ConfidentialTx.Proofs.VerifierTraps

/-! # The dealer does not trap on shares

A dealer that waits for shares gets vectors of any lengths.  It looks at their sizes before it assembles them,
and it audits them with positions, sizes and tables that it computes from them.

* `ProofShare.auditTrapping_eq`: no share makes its audit trap, if a word holds the number of the entries
  before its vectors.
* `Dealer.WithPolys.receiveSharesTrapping_eq`: no shares make a dealer trap that is reached by its first two
  rounds. -/

namespace ConfidentialTx

open Transcript Trapping

/-! ### The audit of a share -/

namespace ProofShare
variable {F P : Type} [Field F]

/-- The scalars of the audit of the vectors; `before` entries stand before those of the share. -/
def vectorIter (share : ProofShare F) (ch : BitChallenge F) (x : F) (j before : ℕ) : Iter F :=
  let zz := ch.z * ch.z
  let zj := pow ch.z j
  let yInv := (pow ch.y before)⁻¹
  Iter.chained (.once 1)
    [.once x, .once (-share.eBlinding),
      (Iter.ofList share.l).map (-ch.z - ·),
      (((Iter.ofList share.r).zipPowers ((2 : ℕ) : F)).zipPowers ch.y⁻¹).map fun ((r, two), y) =>
        ch.z + y * yInv * (-r) + y * yInv * (zz * zj * two)]

/-- The scalars of the audit of the inner product. -/
def valueIter (share : ProofShare F) (ch : BitChallenge F) (x : F) (j before : ℕ) : Iter F :=
  let n := share.l.length
  let zz := ch.z * ch.z
  let zj := pow ch.z j
  let delta := (ch.z - zz) * powerSum ch.y n * pow ch.y before
    - ch.z * zz * powerSum ((2 : ℕ) : F) n * zj
  Iter.chained (.once (zz * zj)) [.once x, .once (x * x), .once (delta - share.tx), .once (-share.txBlinding)]

theorem length_vectorScalars {share : ProofShare F} (hr : share.r.length = share.l.length)
    (ch : BitChallenge F) (x : F) (j : ℕ) :
    (share.vectorScalars ch x j).length = 3 + share.l.length + share.l.length := by
  simp only [vectorScalars, List.length_append, List.length_cons, List.length_nil, List.length_map,
    List.length_zipWith, List.length_zip, length_powers, hr, Nat.min_self]

theorem vectorIter_eq {share : ProofShare F} (hr : share.r.length = share.l.length)
    (hlength : share.l.length < 2 ^ 57) (ch : BitChallenge F) (x : F) (j : ℕ) :
    share.vectorIter ch x j (j * share.l.length) = .ofList (share.vectorScalars ch x j) := by
  have hfew : (share.vectorScalars ch x j).length < 2 ^ 64 := by
    rw [length_vectorScalars hr]
    omega
  have hpairs : (share.r.zip (powers ((2 : ℕ) : F) share.l.length)).length = share.l.length := by
    rw [List.length_zip, length_powers, hr, Nat.min_self]
  have hpowers : (Iter.ofList share.r).zipPowers ((2 : ℕ) : F) =
      .ofList (share.r.zip (powers ((2 : ℕ) : F) share.l.length)) := by
    rw [Iter.zipPowers_ofList _ (by omega), hr]
  have hpowers' : (Iter.ofList (share.r.zip (powers ((2 : ℕ) : F) share.l.length))).zipPowers ch.y⁻¹ =
      .ofList ((share.r.zip (powers ((2 : ℕ) : F) share.l.length)).zip (powers ch.y⁻¹ share.l.length)) := by
    rw [Iter.zipPowers_ofList _ (by omega), hpairs]
  have hright : ((share.r.zip (powers ((2 : ℕ) : F) share.l.length)).zip (powers ch.y⁻¹ share.l.length)).map
      (fun ((r, two), y) => ch.z + y * (pow ch.y (j * share.l.length))⁻¹ * (-r)
        + y * (pow ch.y (j * share.l.length))⁻¹ * (ch.z * ch.z * pow ch.z j * two)) =
      List.zipWith (fun r p => ch.z + p.2 * (pow ch.y (j * share.l.length))⁻¹ * (-r)
        + p.2 * (pow ch.y (j * share.l.length))⁻¹ * (ch.z * ch.z * pow ch.z j * p.1)) share.r
        ((powers ((2 : ℕ) : F) share.l.length).zip (powers ch.y⁻¹ share.l.length)) := by
    apply List.ext_getElem
    · simp
    · intro i h₁ h₂
      simp
  simp only [vectorIter, hpowers, hpowers', Iter.map_ofList, hright]
  exact Iter.chained_ofList [_, _, _, _] hfew

theorem valueIter_eq (share : ProofShare F) (ch : BitChallenge F) (x : F) (j : ℕ) :
    share.valueIter ch x j (j * share.l.length) = .ofList (share.valueScalars ch x j) :=
  Iter.chained_ofList [_, _, _, _] (by simp)

variable [BEq F] [Zero P] [BEq P] [MultiScalar F P]

/-- Whether a share passes its audit. -/
def auditTrapping (share : ProofShare F) (gens : Generators P) (key : CommitmentKey P) (j : ℕ)
    (bits : BitCommitment P) (ch : BitChallenge F) (polys : PolyCommitment P) (x : F) : Except Trap Bool := do
  let n := share.l.length
  unless share.fits gens n j do return false
  let before ← mul j n
  unless share.tx == innerProduct share.l share.r do return false
  let rows ← entry gens.shares j
  let vector ← Iter.multiscalar (share.vectorIter ch x j before)
    (.chained (.once bits.A)
      [.once bits.S, .once key.blinding, (Iter.ofList rows.G).take n, (Iter.ofList rows.H).take n])
  unless vector == 0 do return false
  let value ← Iter.multiscalar (share.valueIter ch x j before)
    (.chained (.once bits.V) [.once polys.T₁, .once polys.T₂, .once key.value, .once key.blinding])
  return value == 0

omit [BEq F] [Zero P] [BEq P] in
theorem multiscalar_vectors {share : ProofShare F} (hr : share.r.length = share.l.length)
    (hlength : share.l.length < 2 ^ 57) (ch : BitChallenge F) (x : F) (j : ℕ) (A S blinding : P) {G H : List P}
    (hG : share.l.length ≤ G.length) (hH : share.l.length ≤ H.length) :
    Iter.multiscalar (share.vectorIter ch x j (j * share.l.length)) (.chained (.once A)
        [.once S, .once blinding, (Iter.ofList G).take share.l.length, (Iter.ofList H).take share.l.length]) =
      .ok (combine (share.vectorScalars ch x j)
        ([A, S, blinding] ++ G.take share.l.length ++ H.take share.l.length)) := by
  have hscalars := length_vectorScalars hr ch x j
  have hpoints : ([A, S, blinding] ++ G.take share.l.length ++ H.take share.l.length).length =
      3 + share.l.length + share.l.length := by
    simp only [List.length_append, List.length_take, Nat.min_eq_left hG, Nat.min_eq_left hH, List.length_cons,
      List.length_nil]
  have hiter : Iter.chained (.once A) [.once S, .once blinding, (Iter.ofList G).take share.l.length,
      (Iter.ofList H).take share.l.length] =
      .ofList ([A, S, blinding] ++ G.take share.l.length ++ H.take share.l.length) := by
    rw [Iter.take_ofList, Iter.take_ofList]
    exact Iter.chained_ofList [_, _, _, _] (hpoints.trans_lt (by omega))
  rw [vectorIter_eq hr hlength, hiter, Iter.multiscalar_ofList (hscalars.trans hpoints.symm)]

theorem auditTrapping_eq {share : ProofShare F} (gens : Generators P) (key : CommitmentKey P) {j : ℕ}
    (bits : BitCommitment P) (ch : BitChallenge F) (polys : PolyCommitment P) (x : F)
    (hlength : share.l.length < 2 ^ 57) (hbefore : j * share.l.length < 2 ^ 64) :
    share.auditTrapping gens key j bits ch polys x = .ok (share.audit gens key j bits ch polys x) := by
  rw [auditTrapping, audit]
  by_cases hfits : share.fits gens share.l.length j = true
  · rw [if_pos hfits]
    obtain ⟨-, hr, hcap, hj⟩ := fits_iff.mp hfits
    obtain ⟨rows, hrows⟩ : ∃ rows, gens.shares[j]? = some rows := ⟨_, List.getElem?_eq_getElem hj⟩
    have hrow : ∀ family, gens.row family j share.l.length =
        some ((rows.family family).take share.l.length) := by
      intro family
      rw [Generators.row, Generators.share, hrows, Option.map_some]
    have hfull : ∀ family, share.l.length ≤ (rows.family family).length := fun family =>
      hcap.trans_eq (gens.full rows (List.mem_of_getElem? hrows) family).symm
    have hvector := multiscalar_vectors hr hlength ch x j bits.A bits.S key.blinding (hfull .G) (hfull .H)
    have hvalue : Iter.multiscalar (share.valueIter ch x j (j * share.l.length))
        (.chained (.once bits.V) [.once polys.T₁, .once polys.T₂, .once key.value, .once key.blinding]) =
        .ok (combine (share.valueScalars ch x j)
          [bits.V, polys.T₁, polys.T₂, key.value, key.blinding]) := by
      rw [valueIter_eq]
      exact Iter.multiscalar_ofList rfl
    simp only [mul_eq hbefore, entry_eq_ok_iff.mpr hrows, hrow, hfits, hvalue, bind, Except.bind,
      Bool.true_and]
    rw [show rows.G = rows.family .G from rfl, show rows.H = rows.family .H from rfl, hvector]
    cases share.tx == innerProduct share.l share.r with
    | false => rfl
    | true =>
      simp only [if_true, Bool.true_and]
      split
      · next hzero =>
        rw [hzero]
        rfl
      · next hzero =>
        rw [Bool.eq_false_of_not_eq_true hzero]
        rfl
  · rw [if_neg hfits, Bool.eq_false_of_not_eq_true hfits]
    cases gens.row .G j share.l.length <;> cases gens.row .H j share.l.length <;> rfl

end ProofShare

/-! ### The dealer -/

namespace Dealer.WithPolys
variable {F P T : Type} [Field F] [BEq F] [AddCommGroup P] [BEq P] [Module F P] [MultiScalar F P]
variable [ScalarEncoding F] [PointEncoding P] [Transcript T]

section Steps
omit [BEq F] [BEq P]

/-- The transcript of the shares, and the proof. -/
def shareRoundTrapping (dealer : WithPolys F P T) (gens : Generators P) (key : CommitmentKey P)
    (shares : List (ProofShare F)) : Trapping T RangeProofError (RangeProof F P) := do
  let w ← act (absorbSums (shares.map (·.tx)).sum (shares.map (·.txBlinding)).sum
    (shares.map (·.eBlinding)).sum)
  let size ← step (mul dealer.n dealer.m)
  let inner ← InnerProductProof.createTrapping (w • key.value)
    { G := (Cursor.start gens .G dealer.n dealer.m).toList
      H := (Cursor.start gens .H dealer.n dealer.m).toList
      x := List.replicate size 1
      y := powers dealer.bitChallenge.y⁻¹ size
      a := shares.flatMap (·.l)
      b := shares.flatMap (·.r) }
  pure (dealer.proofWith shares inner)

/-- Assembles the shares into a proof; also gives the transcript behind it. -/
def assembleTrapping (dealer : WithPolys F P T) (gens : Generators P) (key : CommitmentKey P)
    (shares : List (ProofShare F)) : Except Trap (Except RangeProofError (RangeProof F P × T)) := do
  if dealer.m ≠ shares.length then return .error (.wrongNumProofShares dealer.m shares.length)
  let bad := positions (fun j share => !share.fits gens dealer.n j) shares
  unless bad.isEmpty do return .error (.malformedProofShares bad)
  match ← (dealer.shareRoundTrapping gens key shares).run dealer.transcript with
  | (.ok proof, t) => return .ok (proof, t)
  | (.error e, _) => return .error e

end Steps

/-- Whether the share of party `j` passes its audit against the messages of the party. -/
def passesTrapping (dealer : WithPolys F P T) (gens : Generators P) (key : CommitmentKey P) (j : ℕ)
    (share : ProofShare F) : Except Trap Bool := do
  let bits ← entry dealer.bits j
  let polys ← entry dealer.polys j
  share.auditTrapping gens key j bits dealer.bitChallenge polys dealer.polyChallenge

/-- The positions of the shares that do not pass their audit. -/
def failedAuditsTrapping (dealer : WithPolys F P T) (gens : Generators P) (key : CommitmentKey P)
    (shares : List (ProofShare F)) : Except Trap (List ℕ) :=
  shares.zipIdx.foldlM (fun bad entry => do
    let passes ← dealer.passesTrapping gens key entry.2 entry.1
    pure (if passes then bad else bad ++ [entry.2])) []

/-- Assembles the shares and verifies the proof from the first transcript on. -/
def receiveSharesTrapping (dealer : WithPolys F P T) (gens : Generators P) (key : CommitmentKey P)
    (shares : List (ProofShare F)) : Trapping RandomSource RangeProofError (RangeProof F P) := do
  let (proof, _) ← check (dealer.assembleTrapping gens key shares)
  let source ← get
  let (result, _, source) ← step (proof.verifyTrapping gens key dealer.n (dealer.bits.map (·.V)) dealer.initial
    source)
  set source
  match result with
  | .ok () => pure proof
  | .error _ => do
    let bad ← step (dealer.failedAuditsTrapping gens key shares)
    throw (.malformedProofShares bad)

variable {dealer : WithPolys F P T} {gens : Generators P} {shares : List (ProofShare F)}

section Steps
omit [BEq F] [BEq P]

omit [Field F] [Module F P] [MultiScalar F P] in
theorem IsReached.size_lt (h : dealer.IsReached gens) (hbits : dealer.bits.length < 2 ^ 57) :
    dealer.n * dealer.m < 2 ^ 63 :=
  h.fit.size_lt (h.length_bits.symm.trans_lt hbits)

theorem shareRoundTrapping_eq (h : dealer.IsReached gens) (hbits : dealer.bits.length < 2 ^ 57)
    (key : CommitmentKey P) :
    dealer.shareRoundTrapping gens key shares = safe (dealer.shareRound gens key shares) := by
  have hsize := h.size_lt hbits
  have hword : dealer.n * dealer.m < 2 ^ 64 := by omega
  have hlist : ∀ family, (Cursor.start gens family dealer.n dealer.m).toList =
      gens.vector family dealer.n dealer.m := fun family =>
    (Cursor.toList_eq (Cursor.isPlaced_start h.fit.capacity h.fit.parties hword family)).trans
      (Cursor.left_start gens family dealer.n dealer.m)
  have hlength : (dealer.argument gens shares).G.length < 2 ^ 63 := by
    rw [argument, Generators.length_vector h.fit.capacity h.fit.parties]
    exact hsize
  have hcreate : ∀ w : F, _ := fun w => InnerProductProof.createTrapping_eq (T := T) (w • key.value) hlength
  have hround : dealer.shareRound gens key shares =
      (liftM (absorbSums (T := T) (shares.map (·.tx)).sum (shares.map (·.txBlinding)).sum
        (shares.map (·.eBlinding)).sum) >>= fun w =>
        InnerProductProof.create (w • key.value) (dealer.argument gens shares) >>= fun inner =>
          pure (dealer.proofWith shares inner)) := rfl
  rw [hround, shareRoundTrapping, safe_bind]
  refine bind_congr fun w => ?_
  rw [mul_eq hword, step_ok, pure_bind, safe_bind, ← hcreate w]
  simp only [hlist, argument]
  rfl

theorem assembleTrapping_eq (h : dealer.IsReached gens) (hbits : dealer.bits.length < 2 ^ 57)
    (key : CommitmentKey P) :
    dealer.assembleTrapping gens key shares = .ok (dealer.assemble gens key shares) := by
  rw [assembleTrapping, assemble, shareRoundTrapping_eq h hbits, run_safe]
  by_cases hlen : dealer.m ≠ shares.length
  · rw [if_pos hlen, if_pos hlen]
    rfl
  · rw [if_neg hlen, if_neg hlen]
    by_cases hfit : (positions (fun j (share : ProofShare F) => !share.fits gens dealer.n j)
        shares).isEmpty = true
    · rw [if_pos hfit, if_pos hfit]
      rcases (dealer.shareRound gens key shares).run dealer.transcript with ⟨e | proof, t⟩ <;> rfl
    · rw [if_neg hfit, if_neg hfit]
      rfl

end Steps

omit [Module F P] in
/-- The messages of every party are there, and a word holds the number of entries before those of a share. -/
theorem passesTrapping_eq (h : dealer.IsReached gens) (hbits : dealer.bits.length < 2 ^ 57)
    (key : CommitmentKey P) {j : ℕ} (hj : j < dealer.m) {share : ProofShare F}
    (hlength : share.l.length = dealer.n) :
    dealer.passesTrapping gens key j share = .ok ((dealer.bits.zip dealer.polys)[j]?.any fun (bits, polys) =>
      share.audit gens key j bits dealer.bitChallenge polys dealer.polyChallenge) := by
  have hjbits : j < dealer.bits.length := hj.trans_eq h.length_bits.symm
  have hjpolys : j < dealer.polys.length := hj.trans_eq h.length_polys.symm
  have hbit : dealer.bits[j]? = some dealer.bits[j] := List.getElem?_eq_getElem hjbits
  have hpoly : dealer.polys[j]? = some dealer.polys[j] := List.getElem?_eq_getElem hjpolys
  have hzip : (dealer.bits.zip dealer.polys)[j]? = some (dealer.bits[j], dealer.polys[j]) :=
    List.getElem?_zip_eq_some.mpr ⟨hbit, hpoly⟩
  have hbefore : j * share.l.length < 2 ^ 64 :=
    calc j * share.l.length = dealer.n * j := by rw [hlength, Nat.mul_comm]
      _ ≤ dealer.n * dealer.m := Nat.mul_le_mul_left _ hj.le
      _ < 2 ^ 64 := (h.size_lt hbits).trans (by decide)
  have hsmall : share.l.length < 2 ^ 57 := by
    rw [hlength]
    rcases h.fit.bits with hn | hn | hn | hn <;> omega
  simp only [passesTrapping, entry_eq_ok_iff.mpr hbit, entry_eq_ok_iff.mpr hpoly, hzip, bind, Except.bind,
    Option.any_some]
  exact ProofShare.auditTrapping_eq gens key _ _ _ _ hsmall hbefore

omit [Module F P] in
theorem failedAuditsTrapping_eq (h : dealer.IsReached gens) (hbits : dealer.bits.length < 2 ^ 57)
    (key : CommitmentKey P) (hlen : shares.length = dealer.m)
    (hlengths : ∀ s ∈ shares, s.l.length = dealer.n) :
    dealer.failedAuditsTrapping gens key shares = .ok (dealer.failedAudits gens key shares) := by
  refine foldlM_filter_eq_ok (fun (entry : ProofShare F × ℕ) =>
    (dealer.bits.zip dealer.polys)[entry.2]?.any fun (bits, polys) =>
      entry.1.audit gens key entry.2 bits dealer.bitChallenge polys dealer.polyChallenge) ?_ []
  rintro ⟨share, j⟩ hmem
  obtain ⟨hj, hshare⟩ := List.getElem?_eq_some_iff.mp (List.mk_mem_zipIdx_iff_getElem?.mp hmem)
  exact passesTrapping_eq h hbits key (hj.trans_eq hlen) (hlengths share (hshare ▸ List.getElem_mem hj))

theorem receiveSharesTrapping_eq (h : dealer.IsReached gens) (hbits : dealer.bits.length < 2 ^ 57)
    (key : CommitmentKey P) :
    dealer.receiveSharesTrapping gens key shares = safe (dealer.receiveShares gens key shares) := by
  simp only [receiveSharesTrapping, receiveShares, assembleTrapping_eq h hbits, check_ok, safe_bind]
  refine safe_bind_congr fun assembled s s' hrun => ?_
  obtain ⟨proof, t⟩ := assembled
  obtain ⟨hlen, hlengths⟩ := lengths_of_assemble h (Prod.mk.inj hrun).1
  have hvalues : min gens.parties (dealer.bits.map (·.V)).length < 2 ^ 57 :=
    (Nat.min_le_right _ _).trans_lt ((List.length_map _).trans_lt hbits)
  have hfailed := failedAuditsTrapping_eq h hbits key hlen fun share hshare => (hlengths share hshare).1
  simp only [proof.verifyTrapping_eq gens key dealer.n hvalues, hfailed, step_ok, pure_bind]
  refine bind_congr fun source => bind_congr fun _ => ?_
  cases (proof.verify gens key dealer.n (dealer.bits.map (·.V)) dealer.initial source).1 <;> rfl

end Dealer.WithPolys
end ConfidentialTx
