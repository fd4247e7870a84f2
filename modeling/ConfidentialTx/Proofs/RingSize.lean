import ConfidentialTx.Proofs.CredentialRing

/-! # The size of a credential's ring

A ring in which no public key appears twice gives a credential with a ring of the same size, with one
exception.  Whether the ring has the real output is asked of whole outputs, and members are told apart by
their public keys: a real output that the ring does not have takes the place of the first member, and then
that of any other member with its public key too.  Two members are lost for one that comes in.

* `Collides`: the exception.
* `length_canonicalRing`: the number of members is the number of keys, and `length_canonicalRing_of_distinct`,
  `length_canonicalRing_of_collides`: this number where no key appears twice.
* `mem_canonicalRing_of_collides`: the members in the exception.
* `Builder.check_eq`: what a builder checks, and `Builder.check_ne_of_size`, `Builder.check_ne_ok_of_size`:
  what it says of a ring of the right size and of one of another size.
* `Credential.ring_size_of_distinct`: the size of the ring, and what a builder says of it. -/

namespace ConfidentialTx

/-! ### The number of members -/

section Ring
variable {P : Type}

/-- Whether a real output takes the places of two members: the ring does not have it, but behind the first
member there is one with its public key. -/
def Collides (real : Output P) (ring : List (Output P)) : Prop :=
  real ∉ ring ∧ ∃ o ∈ ring.tail, o.publicKey = real.publicKey

variable [PointEncoding P] [BEq P] {real : Output P} {ring : List (Output P)}

theorem length_canonicalRing {keys : List Bytes} (h : keys.Nodup)
    (hkeys : ∀ k, k ∈ keys ↔ k = real.sortKey ∨ ∃ o ∈ withRealOutput real ring, o.sortKey = k) :
    (canonicalRing real ring).length = keys.length := by
  have hnodup : ((canonicalRing real ring).map Output.sortKey).Nodup :=
    List.pairwise_map.mpr ((pairwise_canonicalRing real ring).imp Std.ne_of_lt)
  have hperm : ((canonicalRing real ring).map Output.sortKey).Perm keys := by
    refine (List.perm_ext_iff_of_nodup hnodup h).mpr fun k => ?_
    rw [hkeys, ← exists_mem_canonicalRing_iff, List.mem_map]
  rw [← hperm.length_eq, List.length_map]

variable [LawfulPointEncoding P]

omit [BEq P] in
theorem mem_map_sortKey_iff {outputs : List (Output P)} {publicKey : P} :
    PointEncoding.encode publicKey ∈ outputs.map Output.sortKey ↔
      ∃ o ∈ outputs, o.publicKey = publicKey := by
  rw [List.mem_map]
  exact exists_congr fun o => and_congr_right fun _ => encode_point_injective.eq_iff

variable [LawfulBEq P]

theorem length_canonicalRing_of_distinct (hring : ring ≠ []) (h : (ring.map (·.publicKey)).Nodup)
    (hfree : ¬Collides real ring) : (canonicalRing real ring).length = ring.length := by
  have hnodup := nodup_sortKey h
  by_cases hreal : real ∈ ring
  · rw [length_canonicalRing hnodup, List.length_map]
    intro k
    rw [withRealOutput_eq, if_pos hreal, List.mem_map]
    refine ⟨.inr, ?_⟩
    rintro (rfl | hk)
    · exact ⟨real, hreal, rfl⟩
    · exact hk
  · obtain ⟨first, rest, rfl⟩ := List.exists_cons_of_ne_nil hring
    -- the real output comes in for the first member, and its key is that of no other
    have hnew : real.sortKey ∉ rest.map Output.sortKey :=
      fun hk => hfree ⟨hreal, mem_map_sortKey_iff.mp hk⟩
    have hkeys : ((real :: rest).map Output.sortKey).Nodup :=
      List.nodup_cons.mpr ⟨hnew, (List.nodup_cons.mp hnodup).2⟩
    rw [length_canonicalRing hkeys, List.length_map, List.length_cons, List.length_cons]
    intro k
    rw [withRealOutput_eq, if_neg hreal, List.tail_cons, List.mem_map]
    refine ⟨.inr, ?_⟩
    rintro (rfl | hk)
    · exact ⟨real, List.mem_cons_self, rfl⟩
    · exact hk

theorem length_canonicalRing_of_collides (h : (ring.map (·.publicKey)).Nodup)
    (hcollides : Collides real ring) : (canonicalRing real ring).length + 1 = ring.length := by
  obtain ⟨hreal, hother⟩ := hcollides
  cases ring with
  | nil => simp at hother
  | cons first rest =>
    have hmem : real.sortKey ∈ rest.map Output.sortKey := mem_map_sortKey_iff.mpr hother
    have hkeys := (List.nodup_cons.mp (nodup_sortKey h)).2
    rw [length_canonicalRing hkeys, List.length_map, List.length_cons]
    intro k
    rw [withRealOutput_eq, if_neg hreal, List.tail_cons]
    constructor
    · intro hk
      obtain ⟨o, ho, rfl⟩ := List.mem_map.mp hk
      exact .inr ⟨o, List.mem_cons_of_mem real ho, rfl⟩
    · rintro (rfl | ⟨o, ho, rfl⟩)
      · exact hmem
      · rcases List.mem_cons.mp ho with rfl | ho
        · exact hmem
        · exact List.mem_map_of_mem ho

/-- The real output comes in for the first member and for the one with its public key. -/
theorem mem_canonicalRing_of_collides {first other o : Output P} {rest : List (Output P)}
    (h : ((first :: rest).map (·.publicKey)).Nodup) (hreal : real ∉ first :: rest) (hother : other ∈ rest)
    (hkey : other.publicKey = real.publicKey) :
    o ∈ canonicalRing real (first :: rest) ↔ o = real ∨ o ∈ first :: rest ∧ o ≠ first ∧ o ≠ other := by
  have hsortKey : other.sortKey = real.sortKey := congrArg PointEncoding.encode hkey
  obtain ⟨hfirst, hrest⟩ := List.nodup_cons.mp (nodup_sortKey h)
  rw [mem_canonicalRing_iff, withRealOutput_eq, if_neg hreal, List.tail_cons]
  refine or_congr_right ⟨?_, ?_⟩
  · rintro ⟨hne, hlast⟩
    rw [lastWithKey_cons_of_ne hne.symm, lastWithKey_eq_some_iff hrest] at hlast
    refine ⟨List.mem_cons_of_mem _ hlast.1, ?_, ?_⟩
    · rintro rfl
      exact hfirst (List.mem_map_of_mem hlast.1)
    · rintro rfl
      exact hne hsortKey
  · rintro ⟨ho, hne, hne'⟩
    have ho := (List.mem_cons.mp ho).resolve_left hne
    have hkey' : o.sortKey ≠ real.sortKey := fun heq =>
      hne' (List.inj_on_of_nodup_map hrest ho hother (heq.trans hsortKey.symm))
    rw [lastWithKey_cons_of_ne hkey'.symm]
    exact ⟨hkey', (lastWithKey_eq_some_iff hrest).mpr ⟨ho, rfl⟩⟩

end Ring

/-! ### The check of a builder -/

namespace Builder
variable {F P : Type} {b : Builder F P}

/-- The first input with a ring of another size, with its number. -/
def firstOddRing (b : Builder F P) : Option (Credential F P × ℕ) :=
  b.inputs.zipIdx.find? fun entry => entry.1.ring.length ≠ ringSize

theorem firstOddRing_eq_none_iff :
    b.firstOddRing = none ↔ ∀ input ∈ b.inputs, input.ring.length = ringSize := by
  unfold firstOddRing
  rw [List.find?_eq_none]
  constructor
  · intro h input hinput
    obtain ⟨i, hi⟩ := List.getElem?_of_mem hinput
    simpa using h (input, i) (List.mem_zipIdx_iff_getElem?.mpr hi)
  · intro h entry hentry
    have hinput := List.mem_of_getElem? (List.mem_zipIdx_iff_getElem?.mp hentry)
    simpa using h entry.1 hinput

theorem of_firstOddRing_eq_some {input : Credential F P} {i : ℕ} (h : b.firstOddRing = some (input, i)) :
    b.inputs[i]? = some input ∧ input.ring.length ≠ ringSize := by
  have hmem := List.mem_zipIdx_iff_getElem?.mp (List.mem_of_find?_eq_some h)
  have hsize := List.find?_some h
  exact ⟨hmem, by simpa using hsize⟩

/-- What a builder checks: the numbers of inputs and outputs, then the rings. -/
theorem check_eq (b : Builder F P) : b.check =
    if b.inputs = [] then .error .noInputs
    else if b.outputs = [] then .error .noOutputs
    else if maxInputs < b.inputs.length then .error (.tooManyInputs b.inputs.length)
    else b.firstOddRing.elim (.ok ()) fun entry =>
      .error (.invalidRingSize entry.2 ringSize entry.1.ring.length) := by
  have hrings : b.inputs.zipIdx.forM (fun entry => (do
      if entry.1.ring.length ≠ ringSize then
        throw (.invalidRingSize entry.2 ringSize entry.1.ring.length) : Except TransactionError Unit)) =
      b.firstOddRing.elim (.ok ()) fun entry =>
        .error (.invalidRingSize entry.2 ringSize entry.1.ring.length) := by
    refine forM_eq_find? fun entry _ => ?_
    by_cases hsize : entry.1.ring.length = ringSize
    · simp [hsize]
    · simp [hsize]
      rfl
  unfold check
  rw [← hrings]
  simp only [List.isEmpty_iff]
  split
  · rfl
  · split
    · rfl
    · split <;> rfl

theorem check_ne_of_size {input : Credential F P} (hsize : input.ring.length = ringSize) {i : ℕ}
    (hinput : b.inputs[i]? = some input) (expected actual : ℕ) :
    b.check ≠ .error (.invalidRingSize i expected actual) := by
  rw [check_eq]
  split_ifs
  iterate 3 · nofun
  cases hfirst : b.firstOddRing with
  | none => nofun
  | some entry =>
    intro h
    obtain ⟨rfl, -, -⟩ := TransactionError.invalidRingSize.inj (Except.error.inj h)
    obtain ⟨hentry, hodd⟩ := of_firstOddRing_eq_some hfirst
    obtain rfl := Option.some.inj (hentry.symm.trans hinput)
    exact hodd hsize

theorem check_ne_ok_of_size {input : Credential F P} (hsize : input.ring.length ≠ ringSize)
    (hinput : input ∈ b.inputs) : b.check ≠ .ok () := by
  rw [check_eq]
  split_ifs
  iterate 3 · nofun
  cases hfirst : b.firstOddRing with
  | none => exact absurd (firstOddRing_eq_none_iff.mp hfirst input hinput) hsize
  | some entry => nofun

end Builder

/-! ### Credentials -/

namespace Credential
variable {F P : Type} [SMul F P] [PointEncoding P] [LawfulPointEncoding P] [BasePoint P] [BEq P] [LawfulBEq P]

/-- **Sizes of rings.**  For every ring with some member and no public key twice, every real output, in the
ring or not, and its one-time key: there is a credential, and its ring has as many members as the given one,
or one less if the ring does not have the real output but, behind its first member, another output with its
public key: then the real output is there for these two members.  If the given ring has as many members as a builder asks for, then no builder refuses the
credential for the size of its ring in the first case, and none lets it through in the second. -/
theorem ring_size_of_distinct (real : Output P) {ring : List (Output P)} (onetimeKey viewKey : F)
    (hring : ring ≠ []) (hdistinct : (ring.map (·.publicKey)).Nodup)
    (hkey : onetimeKey • (base : P) = real.targetKey) :
    ∃ credential, create real ring onetimeKey viewKey = .ok credential ∧
      (¬Collides real ring → credential.ring.length = ring.length) ∧
      (Collides real ring → credential.ring.length + 1 = ring.length ∧
        ∃ first other, ring.head? = some first ∧ other ∈ ring.tail ∧ other.publicKey = real.publicKey ∧
          ∀ o, o ∈ credential.ring ↔ o = real ∨ o ∈ ring ∧ o ≠ first ∧ o ≠ other) ∧
      (ring.length = ringSize → ∀ b : Builder F P,
        (¬Collides real ring → ∀ i expected actual, b.inputs[i]? = some credential →
          b.check ≠ .error (.invalidRingSize i expected actual)) ∧
        (Collides real ring → credential ∈ b.inputs → b.check ≠ .ok ())) := by
  obtain ⟨credential, hcreate⟩ : ∃ credential, create real ring onetimeKey viewKey = .ok credential :=
    exists_create_iff.mpr hkey
  have hsame : ¬Collides real ring → credential.ring.length = ring.length := by
    rw [(ring_of_create hcreate).1]
    exact length_canonicalRing_of_distinct hring hdistinct
  have hless : Collides real ring → credential.ring.length + 1 = ring.length := by
    rw [(ring_of_create hcreate).1]
    exact length_canonicalRing_of_collides hdistinct
  refine ⟨credential, hcreate, hsame, fun hcollides => ⟨hless hcollides, ?_⟩, fun hsize b => ⟨?_, ?_⟩⟩
  · obtain ⟨hreal, other, hother, hpublicKey⟩ := hcollides
    obtain ⟨first, rest, rfl⟩ := List.exists_cons_of_ne_nil hring
    refine ⟨first, other, rfl, hother, hpublicKey, fun o => ?_⟩
    rw [(ring_of_create hcreate).1]
    exact mem_canonicalRing_of_collides hdistinct hreal hother hpublicKey
  · intro hfree i expected actual hinput
    exact Builder.check_ne_of_size ((hsame hfree).trans hsize) hinput expected actual
  · intro hcollides hinput
    refine Builder.check_ne_ok_of_size ?_ hinput
    have hlength := hless hcollides
    omega

/-- A ring of as many members as a builder asks for, with public keys that are all different. -/
def distinctRing : List (Output Residue) :=
  (List.range ringSize).map fun i : ℕ =>
    ⟨⟨(i : Residue), 0⟩, ((100 + i : ℕ) : Residue), ((7 + i : ℕ) : Residue), []⟩

/-- The output of the private key 5 comes in for the first member of the ring, whose size stays. -/
theorem ring_size_of_newcomer : distinctRing ≠ [] ∧ (distinctRing.map (·.publicKey)).Nodup ∧
    (5 : Residue) • (base : Residue) = owned.targetKey ∧ ¬Collides owned distinctRing ∧
    ∃ credential, create owned distinctRing (5 : Residue) 3 = .ok credential ∧
      credential.ring.length = ringSize := by
  have hring : distinctRing ≠ [] := by decide
  have hdistinct : (distinctRing.map (·.publicKey)).Nodup := by decide +kernel
  have hkey : (5 : Residue) • (base : Residue) = owned.targetKey := by decide +kernel
  have hfree : ¬Collides owned distinctRing := by
    rintro ⟨-, h⟩
    revert h
    decide +kernel
  obtain ⟨credential, hcreate, hsame, -⟩ :=
    ring_size_of_distinct owned (5 : Residue) 3 hring hdistinct hkey
  exact ⟨hring, hdistinct, hkey, hfree, credential, hcreate, hsame hfree⟩

/-- The same ring with the public key of that output at the last member. -/
def collidingRing : List (Output Residue) :=
  distinctRing.dropLast ++ [⟨⟨5, 0⟩, 8, 6, []⟩]

/-- Although its public keys all differ, its credential has one member less, and a builder refuses it. -/
theorem ring_smaller_of_collision : collidingRing ≠ [] ∧ (collidingRing.map (·.publicKey)).Nodup ∧
    (5 : Residue) • (base : Residue) = owned.targetKey ∧ collidingRing.length = ringSize ∧
    ∃ credential, create owned collidingRing (5 : Residue) 3 = .ok credential ∧
      credential.ring.length = 10 ∧ credential.ring.length ≠ collidingRing.length ∧
      Builder.check ⟨[credential], [Builder.received], 0, 0⟩ =
        .error (.invalidRingSize 0 ringSize 10) := by
  refine ⟨by decide, by decide +kernel, by decide +kernel, by decide, ?_⟩
  obtain ⟨credential, hcreate⟩ :
      ∃ credential, create owned collidingRing (5 : Residue) 3 = .ok credential :=
    exists_create_iff.mpr (by decide +kernel)
  have hlength : credential.ring.length = 10 := by
    rw [(ring_of_create hcreate).1]
    decide +kernel
  refine ⟨credential, hcreate, hlength, by rw [hlength]; decide, ?_⟩
  rw [Builder.check_eq, Builder.firstOddRing]
  simp [hlength, ringSize, maxInputs]

end Credential
end ConfidentialTx
