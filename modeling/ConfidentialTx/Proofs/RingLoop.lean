import ConfidentialTx.Proofs.Draws
import ConfidentialTx.Proofs.Laws
import ConfidentialTx.Ring.Signature

/-! # The loop around a ring

A ring signature is a loop of challenges: the verifier starts at the first position, the signer behind
the real one.  Both walk the same lists.

* `pairs_unpair`, `unpair_pairs`: responses as pairs and as one list.
* `pairs_getElem?_eq_some_iff`: the responses of position `i` stand in the places `2 i` and `2 i + 1`.
* `RingSignature.walk_around`: a walk around the ring is a walk to the real position, the step there,
  and the walk behind it.
* `RingSignature.points_real`: at the real position the points are multiples by the responses and the
  challenge together, so the signer can fix the points first and solve for the responses.
* `SigningRequest.verify_of_close`, `SigningRequest.exists_close`: the verifier accepts what the signer
  closes, and the signer closes what the verifier accepts (`SigningRequest.accepted_iff_closed`). -/

namespace ConfidentialTx

/-! ### Responses -/

/-- The responses one after the other. -/
def unpair {α : Type} (rs : List (α × α)) : List α := rs.flatMap fun r => [r.1, r.2]

section Responses
variable {α : Type}

theorem unpair_cons (r : α × α) (rs : List (α × α)) : unpair (r :: rs) = r.1 :: r.2 :: unpair rs := rfl

theorem unpair_append (rs rs' : List (α × α)) : unpair (rs ++ rs') = unpair rs ++ unpair rs' :=
  List.flatMap_append

theorem pairs_unpair (rs : List (α × α)) : pairs (unpair rs) = rs := by
  induction rs with
  | nil => rfl
  | cons r rs ih => rw [unpair_cons, pairs, ih]

theorem length_unpair (rs : List (α × α)) : (unpair rs).length = 2 * rs.length := by
  induction rs with
  | nil => rfl
  | cons r rs ih =>
    rw [unpair_cons, List.length_cons, List.length_cons, ih, List.length_cons]
    omega

theorem unpair_pairs {n : ℕ} {as : List α} (h : as.length = 2 * n) :
    unpair (pairs as) = as ∧ (pairs as).length = n := by
  induction n generalizing as with
  | zero =>
    obtain rfl := List.length_eq_zero_iff.mp h
    exact ⟨rfl, rfl⟩
  | succ n ih =>
    match as with
    | [] => simp at h
    | [a] =>
      rw [List.length_singleton] at h
      omega
    | a :: b :: rest =>
      rw [List.length_cons, List.length_cons] at h
      have hshort : rest.length = 2 * n := by omega
      obtain ⟨hrest, hlen⟩ := ih hshort
      rw [pairs, unpair_cons, hrest, List.length_cons, hlen]
      exact ⟨rfl, rfl⟩

theorem pairs_getElem?_eq_some_iff {as : List α} {i : ℕ} {r : α × α} :
    (pairs as)[i]? = some r ↔ as[2 * i]? = some r.1 ∧ as[2 * i + 1]? = some r.2 := by
  induction as using pairs.induct generalizing i with
  | case1 a b rest ih =>
    cases i with
    | zero => simp [pairs, Prod.ext_iff]
    | succ i =>
      rw [pairs, List.getElem?_cons_succ, ih, Nat.mul_succ]
      exact Iff.rfl
  | case2 as hshort =>
    have hlen : as.length ≤ 1 := by
      rcases as with _ | ⟨a, _ | ⟨b, rest⟩⟩
      · exact Nat.zero_le 1
      · exact le_rfl
      · exact absurd rfl (hshort a b rest)
    have hodd : as[2 * i + 1]? = none := List.getElem?_eq_none (by omega)
    rw [pairs, hodd]
    · simp
    · exact hshort

theorem zip_around {β : Type} {ring : List β} {entries : List α} {i : ℕ} {member : β}
    (hi : ring[i]? = some member) (hlen : entries.length + 1 = ring.length) (r : α) :
    ring.zip (entries.take i ++ r :: entries.drop i) =
      (ring.take i).zip (entries.take i) ++
        (member, r) :: (ring.drop (i + 1)).zip (entries.drop i) := by
  obtain ⟨hlt, hmember⟩ := List.getElem?_eq_some_iff.mp hi
  have hring : ring = ring.take i ++ member :: ring.drop (i + 1) := by
    rw [← hmember, ← List.drop_eq_getElem_cons hlt, List.take_append_drop]
  have hbefore : (ring.take i).length = (entries.take i).length := by
    rw [List.length_take, List.length_take]
    omega
  conv_lhs => rw [hring]
  rw [List.zip_append hbefore, List.zip_cons_cons]

theorem exists_around {entries : List α} {i : ℕ} (hi : i < entries.length) :
    ∃ (rest : List α) (r : α), rest.length + 1 = entries.length ∧
      rest.take i ++ r :: rest.drop i = entries := by
  have htake : (entries.take i).length = i := by
    rw [List.length_take]
    omega
  refine ⟨entries.take i ++ entries.drop (i + 1), entries[i], ?_, ?_⟩
  · rw [List.length_append, List.length_drop, htake]
    omega
  · rw [List.take_left' htake, List.drop_left' htake, ← List.drop_eq_getElem_cons hi,
      List.take_append_drop]

end Responses

/-! ### Walks -/

namespace RingSignature
variable {F P : Type} [AddCommGroup P] [MultiScalar F P]
variable [PointEncoding P] [PointHash P] [BasePoint P]

/-- A walk around the ring goes to a position, through it, and on behind it. -/
theorem walk_around (hash : RingPoints P → F) (image pseudoOutput : P) (c : F)
    {ring : List (RingMember P)} {entries : List (F × F)} {i : ℕ} {member : RingMember P}
    (hi : ring[i]? = some member) (hlen : entries.length + 1 = ring.length) (r : F × F) :
    walk hash image pseudoOutput c (ring.zip (entries.take i ++ r :: entries.drop i)) =
      walk hash image pseudoOutput
        (hash (points image pseudoOutput
          (walk hash image pseudoOutput c ((ring.take i).zip (entries.take i))) member r))
        ((ring.drop (i + 1)).zip (entries.drop i)) := by
  unfold walk
  rw [zip_around hi hlen, List.foldl_append, List.foldl_cons]

theorem verifyWith_eq_ok_iff [BEq F] [LawfulBEq F] [BEq P] [LawfulBEq P] {hash : RingPoints P → F}
    {signature : RingSignature F P} {ring : List (RingMember P)} {pseudoOutput : P} :
    signature.verifyWith hash ring pseudoOutput = .ok () ↔
      ring ≠ [] ∧ signature.responses.length = 2 * ring.length ∧ signature.keyImage ≠ 0 ∧
        walk hash signature.keyImage pseudoOutput signature.cZero
          (ring.zip (pairs signature.responses)) = signature.cZero := by
  unfold verifyWith
  rw [if_throw_eq_ok, if_throw_eq_ok, if_throw_eq_ok]
  have hwalk : ∀ c : F, (if c == signature.cZero then pure () else throw .invalid :
      Except SignatureError Unit) = .ok () ↔ c = signature.cZero := by
    intro c
    by_cases hc : c = signature.cZero <;> simp [hc]
  rw [hwalk, List.isEmpty_iff, not_not, beq_iff_eq]

variable [Field F] [Module F P] [LawfulMultiScalar F P]

/-- At the real position the points are multiples by the responses and the challenge together. -/
theorem points_real {x k : F} {member : RingMember P} {pseudoOutput : P}
    (hkey : member.targetKey = x • base) (hcommitment : pseudoOutput - member.commitment = k • base)
    (c : F) (r : F × F) :
    points (ConfidentialTx.keyImage x) pseudoOutput c member r =
      { L₀ := (r.1 + c * x) • base
        R₀ := (r.1 + c * x) • imageBase member.targetKey
        L₁ := (r.2 + c * k) • base } := by
  unfold points ConfidentialTx.keyImage
  rw [combine_pair, combine_pair, combine_pair, hcommitment, hkey]
  simp only [smul_smul, add_smul]

end RingSignature

/-! ### The signer -/

namespace SigningRequest

theorem realMember_eq_ok_iff {F P : Type} [PointEncoding P] [PointHash P] [BasePoint P] [MultiScalar F P]
    [NatCast F] [BEq P] [LawfulBEq P] {request : SigningRequest F P} {member : RingMember P} :
    request.realMember = .ok member ↔ request.ring[request.realIndex]? = some member ∧
      commitAmount request.value request.pseudoBlinding = request.pseudoOutput := by
  unfold realMember
  rw [if_throw_eq_ok]
  cases hmember : request.ring[request.realIndex]? with
  | none => simp
  | some real =>
    have hring : ¬request.ring.isEmpty = true := by
      intro hempty
      rw [List.isEmpty_iff.mp hempty] at hmember
      cases hmember
    simp only
    rw [unless_throw_eq_ok, beq_iff_eq, pure_eq_ok, Option.some.injEq, and_comm (a := real = member)]
    exact and_iff_right hring

variable {F P : Type} [Field F] [AddCommGroup P] [Module F P] [MultiScalar F P]
variable [ScalarHash F] [PointEncoding P] [PointHash P] [BasePoint P]

/-- The challenges of the positions of a request. -/
def hash (request : SigningRequest F P) : RingPoints P → F :=
  RingSignature.challenge request.message (keyImage request.onetimeKey)

/-- The challenge behind a list of positions of a request. -/
def walk (request : SigningRequest F P) : F → List (RingMember P × F × F) → F :=
  RingSignature.walk request.hash (keyImage request.onetimeKey) request.pseudoOutput

/-- The difference of the blinding factors, by which the difference of the commitments is a multiple of
the base point. -/
def commitmentKey (request : SigningRequest F P) : F := request.pseudoBlinding - request.blinding

/-- The challenge behind the real position. -/
def realChallenge (request : SigningRequest F P) (member : RingMember P) (α : F × F) : F :=
  request.hash ⟨α.1 • base, α.1 • imageBase member.targetKey, α.2 • base⟩

/-- The positions behind the real one. -/
def behind (request : SigningRequest F P) (decoys : List (F × F)) : List (RingMember P × F × F) :=
  (request.ring.drop (request.realIndex + 1)).zip (decoys.drop request.realIndex)

/-- The positions before the real one. -/
def before (request : SigningRequest F P) (decoys : List (F × F)) : List (RingMember P × F × F) :=
  (request.ring.take request.realIndex).zip (decoys.take request.realIndex)

/-- The responses of the real position under a challenge. -/
def realResponses (request : SigningRequest F P) (c : F) (α : F × F) : F × F :=
  (α.1 - c * request.onetimeKey, α.2 - c * request.commitmentKey)

variable {request : SigningRequest F P} {member : RingMember P} {decoys : List (F × F)} {α : F × F}
variable {signature : RingSignature F P}

variable [LawfulMultiScalar F P]

/-- A walk around the ring of a request, from the challenge at the first position on: to the real
position, through it under any responses, and on behind it. -/
theorem walk_around (hi : request.ring[request.realIndex]? = some member)
    (hlen : decoys.length + 1 = request.ring.length)
    (hkey : member.targetKey = request.onetimeKey • base)
    (hcommitment : request.pseudoOutput - member.commitment = request.commitmentKey • base) (c : F)
    (r : F × F) :
    request.walk c (request.ring.zip (decoys.take request.realIndex ++ r ::
      decoys.drop request.realIndex)) =
      request.walk (request.realChallenge member
        (r.1 + request.walk c (request.before decoys) * request.onetimeKey,
          r.2 + request.walk c (request.before decoys) * request.commitmentKey))
        (request.behind decoys) := by
  unfold walk
  rw [RingSignature.walk_around _ _ _ _ hi hlen, RingSignature.points_real hkey hcommitment]
  rfl

variable [BEq P] [LawfulBEq P]

omit [LawfulMultiScalar F P] in
/-- What the signer gives: the challenge at the first position, and the responses with those of the
real position in their place. -/
theorem close_eq_ok_iff :
    request.close member decoys α = .ok signature ↔
      request.pseudoOutput - member.commitment = request.commitmentKey • base ∧
        { cZero := request.walk (request.realChallenge member α) (request.behind decoys)
          responses := unpair (decoys.take request.realIndex ++
            request.realResponses (request.walk (request.walk (request.realChallenge member α)
              (request.behind decoys)) (request.before decoys)) α ::
            decoys.drop request.realIndex)
          keyImage := keyImage request.onetimeKey } = signature := by
  rw [unpair_append, unpair_cons]
  unfold close
  rw [unless_throw_eq_ok, beq_iff_eq, pure_eq_ok, List.append_assoc]
  exact Iff.rfl

variable [BEq F] [LawfulBEq F]

theorem verify_of_close (hi : request.ring[request.realIndex]? = some member)
    (hkey : member.targetKey = request.onetimeKey • base)
    (himage : keyImage (P := P) request.onetimeKey ≠ 0)
    (hlen : decoys.length + 1 = request.ring.length)
    (h : request.close member decoys α = .ok signature) :
    signature.verify request.message request.ring request.pseudoOutput = .ok () := by
  obtain ⟨hcommitment, rfl⟩ := close_eq_ok_iff.mp h
  have hring : request.ring ≠ [] := by
    intro hnil
    rw [hnil, List.length_nil] at hlen
    omega
  have hresponses : ∀ r : F × F, (decoys.take request.realIndex ++ r ::
      decoys.drop request.realIndex).length = request.ring.length := by
    intro r
    rw [List.length_append, List.length_cons, ← Nat.add_assoc, ← List.length_append,
      List.take_append_drop, hlen]
  unfold RingSignature.verify
  rw [RingSignature.verifyWith_eq_ok_iff]
  refine ⟨hring, ?_, himage, ?_⟩
  · rw [length_unpair, hresponses]
  · rw [pairs_unpair]
    refine (walk_around hi hlen hkey hcommitment _ _).trans ?_
    -- the responses of the real position are solved for the points behind it
    unfold realResponses
    rw [sub_add_cancel, sub_add_cancel]

/-- The signer closes what the verifier accepts, with the responses of the other members and the two
scalars that belong to those of the real position. -/
theorem exists_close (hi : request.ring[request.realIndex]? = some member)
    (hkey : member.targetKey = request.onetimeKey • base)
    (hcommitment : request.pseudoOutput - member.commitment = request.commitmentKey • base)
    (himage : signature.keyImage = keyImage request.onetimeKey)
    (h : signature.verify request.message request.ring request.pseudoOutput = .ok ()) :
    ∃ decoys α, decoys.length + 1 = request.ring.length ∧
      request.close member decoys α = .ok signature := by
  unfold RingSignature.verify at h
  rw [RingSignature.verifyWith_eq_ok_iff] at h
  obtain ⟨-, hlen, -, hwalk⟩ := h
  obtain ⟨hunpair, hpairs⟩ := unpair_pairs hlen
  have hlt : request.realIndex < (pairs signature.responses).length := by
    rw [hpairs]
    exact (List.getElem?_eq_some_iff.mp hi).1
  obtain ⟨decoys, r, hdecoys, haround⟩ := exists_around hlt
  rw [hpairs] at hdecoys
  -- the challenge at the real position, and the scalars that the responses there were solved from
  let c := request.walk signature.cZero (request.before decoys)
  let α := (r.1 + c * request.onetimeKey, r.2 + c * request.commitmentKey)
  have hloop : request.walk (request.realChallenge member α) (request.behind decoys) =
      signature.cZero := by
    rw [← walk_around hi hdecoys hkey hcommitment, haround]
    rw [himage] at hwalk
    exact hwalk
  have hreal : request.realResponses c α = r := by
    unfold realResponses
    exact Prod.ext (add_sub_cancel_right _ _) (add_sub_cancel_right _ _)
  refine ⟨decoys, α, hdecoys, close_eq_ok_iff.mpr ⟨hcommitment, ?_⟩⟩
  rw [hloop, hreal, haround, hunpair, ← himage]

/-- What the verifier accepts under the key image of a request is what the signer closes, with as many
responses as the ring has other members. -/
theorem accepted_iff_closed (hi : request.ring[request.realIndex]? = some member)
    (hkey : member.targetKey = request.onetimeKey • base)
    (himage : keyImage (P := P) request.onetimeKey ≠ 0)
    (hcommitment : request.pseudoOutput - member.commitment = request.commitmentKey • base) :
    (signature.keyImage = keyImage request.onetimeKey ∧
        signature.verify request.message request.ring request.pseudoOutput = .ok ()) ↔
      ∃ decoys α, decoys.length = request.ring.length - 1 ∧
        request.close member decoys α = .ok signature := by
  have hring : 0 < request.ring.length := Nat.zero_lt_of_lt (List.getElem?_eq_some_iff.mp hi).1
  constructor
  · rintro ⟨hsignature, hverify⟩
    obtain ⟨decoys, α, hlen, hclose⟩ := exists_close hi hkey hcommitment hsignature hverify
    exact ⟨decoys, α, by omega, hclose⟩
  · rintro ⟨decoys, α, hlen, hclose⟩
    refine ⟨?_, verify_of_close hi hkey himage (by omega) hclose⟩
    obtain ⟨-, rfl⟩ := close_eq_ok_iff.mp hclose
    rfl

end SigningRequest
end ConfidentialTx
