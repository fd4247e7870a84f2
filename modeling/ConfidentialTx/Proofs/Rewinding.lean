import ConfidentialTx.Proofs.RingAgreement

/-! # Two runs around one ring

An accepted ring signature comes from somebody who owns a member.  To see this, a run of the verifier is
wound back to some position, where the challenge hash answers differently the second time: two signatures
with one key image are then accepted, each under a function of its own in place of the hash.  Wherever both
runs compute the same points from different challenges, the responses of the two give the secrets of the
member there.

* `RingSignature.challengeAt`: the challenge with which a run comes to a position; `challengeAt_succ` is the
  step to the next one, `challengeAt_length` that an accepted run comes back to where it began.
* `RingMember.IsOpened`: what the owner of a member knows, and what follows for its value.
* `RingSignature.secrets_of_two_runs`: the owner's secrets from two runs. -/

namespace ConfidentialTx

/-- Whether `x` is the private key of a member and of the key image, and the pseudo-output differs from the
member's commitment by `k` in the blinding factor alone. -/
structure RingMember.IsOpened {F P : Type} [SMul F P] [Sub P] [PointEncoding P] [PointHash P] [BasePoint P]
    (member : RingMember P) (image pseudoOutput : P) (x k : F) : Prop where
  targetKey : member.targetKey = x • base
  image : image = x • imageBase member.targetKey
  difference : pseudoOutput - member.commitment = k • base

namespace RingSignature
variable {F P : Type} [AddCommGroup P] [MultiScalar F P]
variable [PointEncoding P] [PointHash P] [BasePoint P]

/-! ### Runs -/

/-- The challenge with which the verifier comes to position `i` of a ring, with any function in place of the
challenge hash. -/
def challengeAt (hash : RingPoints P → F) (signature : RingSignature F P) (ring : List (RingMember P))
    (pseudoOutput : P) (i : ℕ) : F :=
  walk hash signature.keyImage pseudoOutput signature.cZero
    ((ring.zip (pairs signature.responses)).take i)

section Runs
variable {hash : RingPoints P → F} {signature : RingSignature F P} {ring : List (RingMember P)}
variable {pseudoOutput : P} {i : ℕ} {member : RingMember P} {r : F × F}

/-- Behind a position the challenge is the hash of the points there. -/
theorem challengeAt_succ (hmember : ring[i]? = some member)
    (hresponses : (pairs signature.responses)[i]? = some r) :
    signature.challengeAt hash ring pseudoOutput (i + 1) =
      hash (points signature.keyImage pseudoOutput (signature.challengeAt hash ring pseudoOutput i)
        member r) := by
  have hposition : (ring.zip (pairs signature.responses))[i]? = some (member, r) :=
    List.getElem?_zip_eq_some.mpr ⟨hmember, hresponses⟩
  unfold challengeAt walk
  rw [List.take_add_one, hposition, Option.toList_some, List.foldl_append, List.foldl_cons,
    List.foldl_nil]

variable [BEq F] [LawfulBEq F] [BEq P] [LawfulBEq P]

theorem exists_responses (h : signature.verifyWith hash ring pseudoOutput = .ok ())
    (hmember : ring[i]? = some member) : ∃ r, (pairs signature.responses)[i]? = some r := by
  obtain ⟨-, hlen, -, -⟩ := verifyWith_eq_ok_iff.mp h
  have hi : i < (pairs signature.responses).length := by
    rw [(unpair_pairs hlen).2]
    exact (List.getElem?_eq_some_iff.mp hmember).1
  exact ⟨_, List.getElem?_eq_getElem hi⟩

/-- An accepted run comes back to the challenge that it began with. -/
theorem challengeAt_length (h : signature.verifyWith hash ring pseudoOutput = .ok ()) :
    signature.challengeAt hash ring pseudoOutput ring.length = signature.cZero := by
  obtain ⟨-, hlen, -, hwalk⟩ := verifyWith_eq_ok_iff.mp h
  have hwhole : (ring.zip (pairs signature.responses)).length ≤ ring.length := by
    rw [List.length_zip]
    exact Nat.min_le_left _ _
  rw [challengeAt, List.take_of_length_le hwhole, hwalk]

end Runs

/-! ### Secrets -/

variable [Field F] [Module F P] [LawfulMultiScalar F P]

omit [PointEncoding P] [PointHash P] [BasePoint P] in
theorem eq_smul_of_combine_eq {p q : P} {r r' c c' : F} (hc : c ≠ c')
    (h : combine [r, c] [p, q] = combine [r', c'] [p, q]) : q = ((r - r') / (c' - c)) • p := by
  rw [combine_pair, combine_pair] at h
  have hmultiple : (c' - c) • q = (r - r') • p := by
    rw [sub_smul, sub_smul, sub_eq_sub_iff_add_eq_add, add_comm (c' • q), h, add_comm]
  rw [div_eq_inv_mul, mul_smul, ← hmultiple, inv_smul_smul₀ (sub_ne_zero.mpr hc.symm)]

/-- The same points from two challenges open the member. -/
theorem isOpened_of_points_eq {image pseudoOutput : P} {c c' : F} {member : RingMember P} {r r' : F × F}
    (hc : c ≠ c')
    (h : points image pseudoOutput c member r = points image pseudoOutput c' member r') :
    member.IsOpened image pseudoOutput ((r.1 - r'.1) / (c' - c)) ((r.2 - r'.2) / (c' - c)) := by
  obtain ⟨hL₀, hR₀, hL₁⟩ := RingPoints.mk.inj h
  exact ⟨eq_smul_of_combine_eq hc hL₀, eq_smul_of_combine_eq hc hR₀, eq_smul_of_combine_eq hc hL₁⟩

end RingSignature

theorem RingMember.IsOpened.pseudoOutput_eq {F P : Type} [Field F] [AddCommGroup P] [Module F P]
    [MultiScalar F P] [LawfulMultiScalar F P] [PointEncoding P] [PointHash P] [BasePoint P]
    {member : RingMember P} {image pseudoOutput : P} {x k : F}
    (h : member.IsOpened image pseudoOutput x k) {value : UInt64} {blinding : F}
    (hcommitment : member.commitment = commitAmount value blinding) :
    pseudoOutput = commitAmount value (blinding + k) := by
  rw [sub_eq_iff_eq_add.mp h.difference, hcommitment, commitAmount_eq, commitAmount_eq, add_smul]
  abel

namespace RingSignature
variable {F P : Type} [Field F] [AddCommGroup P] [Module F P] [MultiScalar F P] [LawfulMultiScalar F P]
variable [PointEncoding P] [PointHash P] [BasePoint P] [BEq F] [LawfulBEq F] [BEq P] [LawfulBEq P]

/-- **Extraction.**  Two signatures with one key image that are accepted for one ring and pseudo-output, each
under any function in place of the challenge hash: every member has two responses in each of them, and these
give the points that either run hashes behind the challenge with which it comes there.  If the points are
the same and the challenges are not, then the quotient of the differences is the private key of the member
and of the key image in the first responses, and in the second ones it is what the pseudo-output has more of
blinding than the member; so the pseudo-output commits to every value that the member commits to. -/
theorem secrets_of_two_runs {hash hash' : RingPoints P → F} {signature signature' : RingSignature F P}
    {ring : List (RingMember P)} {pseudoOutput : P}
    (himage : signature'.keyImage = signature.keyImage)
    (h : signature.verifyWith hash ring pseudoOutput = .ok ())
    (h' : signature'.verifyWith hash' ring pseudoOutput = .ok ())
    {i : ℕ} {member : RingMember P} (hmember : ring[i]? = some member) :
    let c := signature.challengeAt hash ring pseudoOutput i
    let c' := signature'.challengeAt hash' ring pseudoOutput i
    ∃ r₀ r₁ r₀' r₁' : F,
      signature.responses[2 * i]? = some r₀ ∧ signature.responses[2 * i + 1]? = some r₁ ∧
      signature'.responses[2 * i]? = some r₀' ∧ signature'.responses[2 * i + 1]? = some r₁' ∧
      let here := points signature.keyImage pseudoOutput c member (r₀, r₁)
      let here' := points signature.keyImage pseudoOutput c' member (r₀', r₁')
      signature.challengeAt hash ring pseudoOutput (i + 1) = hash here ∧
      signature'.challengeAt hash' ring pseudoOutput (i + 1) = hash' here' ∧
      (here = here' → c ≠ c' →
        let x := (r₀ - r₀') / (c' - c)
        let k := (r₁ - r₁') / (c' - c)
        member.targetKey = x • base ∧
        signature.keyImage = x • imageBase member.targetKey ∧
        pseudoOutput - member.commitment = k • base ∧
        ∀ (value : UInt64) (blinding : F), member.commitment = commitAmount value blinding →
          pseudoOutput = commitAmount value (blinding + k)) := by
  intro c c'
  obtain ⟨r, hr⟩ := exists_responses h hmember
  obtain ⟨r', hr'⟩ := exists_responses h' hmember
  obtain ⟨hr₀, hr₁⟩ := pairs_getElem?_eq_some_iff.mp hr
  obtain ⟨hr₀', hr₁'⟩ := pairs_getElem?_eq_some_iff.mp hr'
  have hnext' : signature'.challengeAt hash' ring pseudoOutput (i + 1) =
      hash' (points signature.keyImage pseudoOutput c' member r') :=
    himage ▸ challengeAt_succ hmember hr'
  refine ⟨r.1, r.2, r'.1, r'.2, hr₀, hr₁, hr₀', hr₁', challengeAt_succ hmember hr, hnext', ?_⟩
  intro hpoints hc
  have hopened := isOpened_of_points_eq hc hpoints
  exact ⟨hopened.targetKey, hopened.image, hopened.difference, fun _ _ => hopened.pseudoOutput_eq⟩

/-- A signature over a message by the owner of the second of three members, who takes the same scalars for
every message. -/
def careless (message : Bytes) : RingSignature Residue Residue :=
  (({ ownerRequest with message := message }.close ⟨4, 5, commitAmount 200 (7 : Residue)⟩
    [(1, 2), (3, 4)] (11, 13)).toOption).getD ⟨0, [], 0⟩

/-- The challenge with which the verifier of a careless signature comes to the owner. -/
def carelessChallenge (message : Bytes) : Residue :=
  (careless message).challengeAt (challenge message (careless message).keyImage) ownerRequest.ring
    ownerRequest.pseudoOutput 1

/-- Two messages signed with the same scalars give away the private key 5 and the blinding factor of the
pseudo-output. -/
theorem secrets_of_reused_scalars :
    (careless [1]).verify [1] ownerRequest.ring ownerRequest.pseudoOutput = .ok () ∧
    (careless [2]).verify [2] ownerRequest.ring ownerRequest.pseudoOutput = .ok () ∧
    carelessChallenge [1] ≠ carelessChallenge [2] ∧
    (5 : Residue) = ((5735 - 20050) / (carelessChallenge [2] - carelessChallenge [1]) : Residue) • base ∧
    ownerRequest.pseudoOutput = commitAmount 200
      (7 + (15410 - 21136) / (carelessChallenge [2] - carelessChallenge [1]) : Residue) := by
  have hfirst : (careless [1]).verify [1] ownerRequest.ring ownerRequest.pseudoOutput = .ok () := by
    decide +kernel
  have hsecond : (careless [2]).verify [2] ownerRequest.ring ownerRequest.pseudoOutput = .ok () := by
    decide +kernel
  have hne : carelessChallenge [1] ≠ carelessChallenge [2] := by decide +kernel
  have hresponses : (careless [1]).responses = [1, 2, 5735, 15410, 3, 4] := by decide +kernel
  have hresponses' : (careless [2]).responses = [1, 2, 20050, 21136, 3, 4] := by decide +kernel
  obtain ⟨r₀, r₁, r₀', r₁', hr₀, hr₁, hr₀', hr₁', -, -, hsecrets⟩ :=
    secrets_of_two_runs (i := 1) (by decide +kernel) hfirst hsecond rfl
  rw [hresponses] at hr₀ hr₁
  rw [hresponses'] at hr₀' hr₁'
  obtain rfl := Option.some.inj hr₀
  obtain rfl := Option.some.inj hr₁
  obtain rfl := Option.some.inj hr₀'
  obtain rfl := Option.some.inj hr₁'
  -- in both runs the points are those of the scalars 11 and 13
  obtain ⟨hkey, -, -, hvalue⟩ := hsecrets (by
    rw [points, points, RingPoints.mk.injEq]
    decide +kernel) hne
  exact ⟨hfirst, hsecond, hne, hkey, hvalue 200 7 rfl⟩

end RingSignature
end ConfidentialTx
