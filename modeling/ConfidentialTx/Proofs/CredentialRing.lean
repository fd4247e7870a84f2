import ConfidentialTx.Proofs.Ownership

/-! # The ring of a credential

The ring of a credential is a map from public keys to outputs, written out in the order of the keys.  A given
ring may hold outputs more than once, and different outputs with one public key; the last of them stays, and
the real output whatever there is.

* `mem_insertKeyed_iff`, `pairwise_insertKeyed`: what one insertion does to an increasing list.
* `lastWithKey`: the last output with a key, and `mem_canonicalRing_iff`: the members of the ring.
* `eq_of_pairwise_sortKey`: increasing rings with the same members are equal, so a ring in which no key
  appears twice is only sorted (`canonicalRing_congr`), and a ring that is sorted stays as it is
  (`canonicalRing_idem`).
* `Credential.create_canonical`: the ring that a credential has. -/

namespace ConfidentialTx

/-! ### Keyed lists -/

section Keyed
variable {α : Type} {entry e : Bytes × α} {entries : List (Bytes × α)}

theorem mem_insertKeyed_iff (h : entries.Pairwise fun e e' => e.1 < e'.1) :
    e ∈ insertKeyed entry entries ↔ e = entry ∨ (e ∈ entries ∧ e.1 ≠ entry.1) := by
  induction entries with
  | nil => simp [insertKeyed]
  | cons other rest ih =>
    obtain ⟨hother, hrest⟩ := List.pairwise_cons.mp h
    unfold insertKeyed
    split
    case isTrue hkey =>
      -- the entries behind the one that is replaced have larger keys
      have hlarger : ∀ e ∈ rest, e.1 ≠ entry.1 := fun e he => hkey ▸ (Std.ne_of_lt (hother e he)).symm
      rw [List.mem_cons, List.mem_cons, hkey]
      grind
    case isFalse hkey =>
      split
      case isTrue hle =>
        have hlt : entry.1 < other.1 := Std.lt_of_le_of_ne ((Bytes.le_iff _ _).mp hle) hkey
        have hlarger : ∀ e ∈ other :: rest, e.1 ≠ entry.1 := by
          rw [List.forall_mem_cons]
          exact ⟨Ne.symm hkey, fun e he => (Std.ne_of_lt (List.lt_trans hlt (hother e he))).symm⟩
        rw [List.mem_cons]
        grind
      case isFalse hle =>
        rw [List.mem_cons, ih hrest, List.mem_cons]
        grind

theorem pairwise_insertKeyed (h : entries.Pairwise fun e e' => e.1 < e'.1) :
    (insertKeyed entry entries).Pairwise fun e e' => e.1 < e'.1 := by
  induction entries with
  | nil => exact List.pairwise_singleton _ _
  | cons other rest ih =>
    obtain ⟨hother, hrest⟩ := List.pairwise_cons.mp h
    unfold insertKeyed
    split
    case isTrue hkey => exact List.pairwise_cons.mpr ⟨hkey ▸ hother, hrest⟩
    case isFalse hkey =>
      split
      case isTrue hle =>
        have hlt : entry.1 < other.1 := Std.lt_of_le_of_ne ((Bytes.le_iff _ _).mp hle) hkey
        refine List.pairwise_cons.mpr ⟨?_, h⟩
        rw [List.forall_mem_cons]
        exact ⟨hlt, fun e he => List.lt_trans hlt (hother e he)⟩
      case isFalse hle =>
        have hlt : other.1 < entry.1 := List.not_le.mp (mt (Bytes.le_iff _ _).mpr hle)
        refine List.pairwise_cons.mpr ⟨fun e he => ?_, ih hrest⟩
        rcases (mem_insertKeyed_iff hrest).mp he with rfl | ⟨he, -⟩
        · exact hlt
        · exact hother e he

end Keyed

/-! ### The last output with a key -/

section Ring
variable {P : Type} [PointEncoding P] {outputs : List (Output P)} {k : Bytes} {o : Output P}

/-- The last output with a key. -/
def lastWithKey (k : Bytes) (outputs : List (Output P)) : Option (Output P) :=
  outputs.reverse.find? fun o => o.sortKey == k

theorem lastWithKey_append (k : Bytes) (outputs : List (Output P)) (o : Output P) :
    lastWithKey k (outputs ++ [o]) = if o.sortKey = k then some o else lastWithKey k outputs := by
  rw [lastWithKey, List.reverse_append, List.reverse_singleton, List.singleton_append, List.find?_cons]
  by_cases h : o.sortKey = k
  · rw [if_pos h, beq_iff_eq.mpr h]
  · rw [if_neg h, beq_eq_false_iff_ne.mpr h]
    rfl

theorem lastWithKey_cons_of_ne (h : o.sortKey ≠ k) : lastWithKey k (o :: outputs) = lastWithKey k outputs := by
  have hnone : [o].find? (fun o => o.sortKey == k) = none := by simpa using h
  rw [lastWithKey, List.reverse_cons, List.find?_append, hnone, Option.or_none, lastWithKey]

theorem mem_of_lastWithKey (h : lastWithKey k outputs = some o) : o ∈ outputs ∧ o.sortKey = k := by
  unfold lastWithKey at h
  exact ⟨List.mem_reverse.mp (List.mem_of_find?_eq_some h), by simpa using List.find?_some h⟩

theorem exists_lastWithKey (h : o ∈ outputs) (hkey : o.sortKey = k) :
    ∃ o', lastWithKey k outputs = some o' :=
  Option.isSome_iff_exists.mp
    (List.find?_isSome.mpr ⟨o, List.mem_reverse.mpr h, beq_iff_eq.mpr hkey⟩)

theorem lastWithKey_eq_some_iff (h : (outputs.map Output.sortKey).Nodup) :
    lastWithKey k outputs = some o ↔ o ∈ outputs ∧ o.sortKey = k := by
  refine ⟨mem_of_lastWithKey, fun ⟨ho, hkey⟩ => ?_⟩
  obtain ⟨o', ho'⟩ := exists_lastWithKey ho hkey
  obtain ⟨hmem, hkey'⟩ := mem_of_lastWithKey ho'
  rw [ho', List.inj_on_of_nodup_map h hmem ho (hkey'.trans hkey.symm)]

/-- The outputs by key, each inserted after those before it. -/
def keyed (outputs : List (Output P)) : List (Bytes × Output P) :=
  outputs.foldl (fun sorted o => insertKeyed (o.sortKey, o) sorted) []

theorem keyed_append (outputs : List (Output P)) (o : Output P) :
    keyed (outputs ++ [o]) = insertKeyed (o.sortKey, o) (keyed outputs) := by
  rw [keyed, List.foldl_append]
  rfl

theorem pairwise_keyed (outputs : List (Output P)) : (keyed outputs).Pairwise fun e e' => e.1 < e'.1 := by
  induction outputs using List.reverseRecOn with
  | nil => exact .nil
  | append_singleton outputs o ih =>
    rw [keyed_append]
    exact pairwise_insertKeyed ih

/-- A map from keys to outputs holds the last output with every key. -/
theorem mem_keyed_iff (outputs : List (Output P)) (e : Bytes × Output P) :
    e ∈ keyed outputs ↔ lastWithKey e.1 outputs = some e.2 := by
  induction outputs using List.reverseRecOn with
  | nil => exact iff_of_false List.not_mem_nil nofun
  | append_singleton outputs o ih =>
    rw [keyed_append, mem_insertKeyed_iff (pairwise_keyed outputs), lastWithKey_append, ih, Prod.ext_iff]
    by_cases h : o.sortKey = e.1
    · rw [if_pos h, Option.some.injEq]
      constructor
      · rintro (⟨-, ho⟩ | ⟨-, hne⟩)
        · exact ho.symm
        · exact absurd h.symm hne
      · exact fun ho => .inl ⟨h.symm, ho.symm⟩
    · rw [if_neg h]
      constructor
      · rintro (⟨hkey, -⟩ | ⟨hlast, -⟩)
        · exact absurd hkey.symm h
        · exact hlast
      · exact fun hlast => .inr ⟨hlast, Ne.symm h⟩

theorem nodup_of_pairwise_sortKey (h : outputs.Pairwise fun o o' => o.sortKey < o'.sortKey) :
    outputs.Nodup :=
  h.imp fun hlt heq => Std.ne_of_lt hlt (congrArg _ heq)

theorem nodup_sortKey [LawfulPointEncoding P] (h : (outputs.map (·.publicKey)).Nodup) :
    (outputs.map Output.sortKey).Nodup := by
  have hencode := h.map (encode_point_injective (P := P))
  rwa [List.map_map] at hencode

theorem eq_of_pairwise_sortKey {outputs' : List (Output P)}
    (h : outputs.Pairwise fun o o' => o.sortKey < o'.sortKey)
    (h' : outputs'.Pairwise fun o o' => o.sortKey < o'.sortKey)
    (hmem : ∀ o, o ∈ outputs ↔ o ∈ outputs') : outputs = outputs' := by
  have hperm := (List.perm_ext_iff_of_nodup (nodup_of_pairwise_sortKey h)
    (nodup_of_pairwise_sortKey h')).mpr hmem
  refine hperm.eq_of_pairwise (fun a b _ _ hab hba => ?_) h h'
  exact absurd (List.lt_trans hab hba) (List.lt_irrefl _)

/-! ### The canonical ring -/

variable [BEq P] {real : Output P} {ring : List (Output P)}

theorem canonicalRing_eq (real : Output P) (ring : List (Output P)) :
    canonicalRing real ring = (keyed (withRealOutput real ring ++ [real])).map (·.2) := rfl

/-- The members of the ring: the real output, and of every other key the last output that has it. -/
theorem mem_canonicalRing_iff : o ∈ canonicalRing real ring ↔
    o = real ∨ (o.sortKey ≠ real.sortKey ∧ lastWithKey o.sortKey (withRealOutput real ring) = some o) := by
  have hlast : o ∈ canonicalRing real ring ↔
      lastWithKey o.sortKey (withRealOutput real ring ++ [real]) = some o := by
    rw [canonicalRing_eq, List.mem_map]
    constructor
    · rintro ⟨e, he, rfl⟩
      have he := (mem_keyed_iff _ e).mp he
      rwa [(mem_of_lastWithKey he).2]
    · exact fun h => ⟨(o.sortKey, o), (mem_keyed_iff _ _).mpr h, rfl⟩
  rw [hlast, lastWithKey_append]
  by_cases h : real.sortKey = o.sortKey
  · rw [if_pos h, Option.some.injEq]
    constructor
    · exact fun ho => .inl ho.symm
    · rintro (ho | ⟨hne, -⟩)
      · exact ho.symm
      · exact absurd h.symm hne
  · rw [if_neg h]
    constructor
    · exact fun ho => .inr ⟨Ne.symm h, ho⟩
    · rintro (rfl | ⟨-, ho⟩)
      · exact absurd rfl h
      · exact ho

theorem pairwise_canonicalRing (real : Output P) (ring : List (Output P)) :
    (canonicalRing real ring).Pairwise fun o o' => o.sortKey < o'.sortKey := by
  rw [canonicalRing_eq, List.pairwise_map]
  refine (pairwise_keyed _).imp_of_mem fun he he' hlt => ?_
  rwa [(mem_of_lastWithKey ((mem_keyed_iff _ _).mp he)).2,
    (mem_of_lastWithKey ((mem_keyed_iff _ _).mp he')).2]

theorem exists_mem_canonicalRing_iff : (∃ o ∈ canonicalRing real ring, o.sortKey = k) ↔
    k = real.sortKey ∨ ∃ o ∈ withRealOutput real ring, o.sortKey = k := by
  constructor
  · rintro ⟨o, ho, rfl⟩
    rcases mem_canonicalRing_iff.mp ho with rfl | ⟨-, hlast⟩
    · exact .inl rfl
    · exact .inr ⟨o, (mem_of_lastWithKey hlast).1, rfl⟩
  · intro h
    by_cases hreal : k = real.sortKey
    · exact ⟨real, mem_canonicalRing real ring, hreal.symm⟩
    · obtain ⟨o, ho, hkey⟩ := h.resolve_left hreal
      obtain ⟨last, hlast⟩ := exists_lastWithKey ho hkey
      obtain ⟨-, rfl⟩ := mem_of_lastWithKey hlast
      exact ⟨last, mem_canonicalRing_iff.mpr (.inr ⟨hreal, hlast⟩), rfl⟩

variable [LawfulBEq P]

omit [PointEncoding P] in
theorem withRealOutput_eq (real : Output P) (ring : List (Output P)) :
    withRealOutput real ring = if real ∈ ring then ring else real :: ring.tail := by
  unfold withRealOutput
  simp only [List.contains_iff_mem]

theorem mem_of_mem_canonicalRing (h : o ∈ canonicalRing real ring) (hne : o ≠ real) : o ∈ ring := by
  obtain ⟨-, hlast⟩ := (mem_canonicalRing_iff.mp h).resolve_left hne
  obtain ⟨hmem, -⟩ := mem_of_lastWithKey hlast
  rw [withRealOutput_eq] at hmem
  split at hmem
  · exact hmem
  · exact List.mem_of_mem_tail ((List.mem_cons.mp hmem).resolve_left hne)

/-- A ring that has the real output and no key twice keeps its members. -/
theorem mem_canonicalRing_of_nodup (hreal : real ∈ ring) (h : (ring.map Output.sortKey).Nodup) :
    o ∈ canonicalRing real ring ↔ o ∈ ring := by
  rw [mem_canonicalRing_iff, withRealOutput_eq, if_pos hreal, lastWithKey_eq_some_iff h]
  constructor
  · rintro (rfl | ⟨-, ho, -⟩)
    · exact hreal
    · exact ho
  · intro ho
    by_cases hkey : o.sortKey = real.sortKey
    · exact .inl (List.inj_on_of_nodup_map h ho hreal hkey)
    · exact .inr ⟨hkey, ho, rfl⟩

theorem canonicalRing_congr {ring' : List (Output P)} (hreal : real ∈ ring)
    (h : (ring.map Output.sortKey).Nodup) (hperm : ring'.Perm ring) :
    canonicalRing real ring' = canonicalRing real ring := by
  refine eq_of_pairwise_sortKey (pairwise_canonicalRing _ _) (pairwise_canonicalRing _ _) fun o => ?_
  rw [mem_canonicalRing_of_nodup hreal h, mem_canonicalRing_of_nodup (hperm.mem_iff.mpr hreal)
    ((hperm.map _).nodup_iff.mpr h), hperm.mem_iff]

theorem canonicalRing_idem (real : Output P) (ring : List (Output P)) :
    canonicalRing real (canonicalRing real ring) = canonicalRing real ring := by
  have hincreasing := pairwise_canonicalRing real ring
  have hnodup : ((canonicalRing real ring).map Output.sortKey).Nodup :=
    List.pairwise_map.mpr (hincreasing.imp Std.ne_of_lt)
  exact eq_of_pairwise_sortKey (pairwise_canonicalRing _ _) hincreasing fun o =>
    mem_canonicalRing_of_nodup (mem_canonicalRing real ring) hnodup

/-- The public keys of the ring, with the real output in the first place of a ring that does not have it. -/
theorem exists_publicKey_iff [LawfulPointEncoding P] {publicKey : P} :
    (∃ o ∈ canonicalRing real ring, o.publicKey = publicKey) ↔
      publicKey = real.publicKey ∨
        ∃ o ∈ if real ∈ ring then ring else ring.set 0 real, o.publicKey = publicKey := by
  have hkey : ∀ {o : Output P}, o.publicKey = publicKey ↔ o.sortKey = PointEncoding.encode publicKey :=
    encode_point_injective.eq_iff.symm
  rw [eq_comm (a := publicKey), hkey, eq_comm (a := real.sortKey)]
  simp only [hkey]
  rw [exists_mem_canonicalRing_iff, withRealOutput_eq]
  refine or_congr_right' fun hne => ?_
  split
  · rfl
  · cases ring with
    | nil => simp [Ne.symm hne]
    | cons first rest => rfl

end Ring

namespace Credential
variable {F P : Type} [SMul F P] [PointEncoding P] [BasePoint P] [BEq P] [LawfulBEq P]
variable {real : Output P} {ring ring' : List (Output P)} {onetimeKey viewKey : F}
variable {credential : Credential F P}

omit [LawfulBEq P] in
theorem create_congr (h : canonicalRing real ring' = canonicalRing real ring) :
    create real ring' onetimeKey viewKey = create real ring onetimeKey viewKey := by
  unfold create
  rw [h]

theorem ring_of_create (h : create real ring onetimeKey viewKey = .ok credential) :
    credential.ring = canonicalRing real ring ∧ credential.realOutput = some real := by
  obtain ⟨-, i, hi, rfl⟩ := create_eq_ok_iff.mp h
  obtain ⟨hlt, hreal, -⟩ := List.findIdx?_eq_some_iff_getElem.mp hi
  exact ⟨rfl, List.getElem?_eq_some_iff.mpr ⟨hlt, beq_iff_eq.mp hreal⟩⟩

/-- **Canonical rings.**  For every real output, every ring with whatever repetitions, and all keys: a
credential is given if and only if the private key is that of the real output, and refused for it otherwise.
Its ring is strictly increasing in the encoded public key, has the real output at its position and members of
the given ring at all others, and the public keys are those of the real output and of the given ring, in
which the real output takes the first place if the ring does not have it.  The ring of a credential gives the
credential again, and a ring that has the real output and no public key twice gives it in every order. -/
theorem create_canonical [LawfulPointEncoding P] (real : Output P) (ring : List (Output P))
    (onetimeKey viewKey : F) :
    ((∃ credential, create real ring onetimeKey viewKey = .ok credential) ↔
      onetimeKey • (base : P) = real.targetKey) ∧
    (onetimeKey • (base : P) ≠ real.targetKey →
      create real ring onetimeKey viewKey = .error .onetimeKeyMismatch) ∧
    (∀ credential, create real ring onetimeKey viewKey = .ok credential →
      (credential.ring.Pairwise fun o o' =>
        PointEncoding.encode o.publicKey < PointEncoding.encode o'.publicKey) ∧
      credential.ring[credential.realIndex]? = some real ∧
      (∀ i o, i ≠ credential.realIndex → credential.ring[i]? = some o → o ∈ ring) ∧
      (∀ publicKey, (∃ o ∈ credential.ring, o.publicKey = publicKey) ↔
        publicKey = real.publicKey ∨
          ∃ o ∈ if real ∈ ring then ring else ring.set 0 real, o.publicKey = publicKey) ∧
      create real credential.ring onetimeKey viewKey = .ok credential) ∧
    (real ∈ ring → (ring.map (·.publicKey)).Nodup → ∀ ring', ring'.Perm ring →
      create real ring' onetimeKey viewKey = create real ring onetimeKey viewKey) := by
  refine ⟨exists_create_iff, create_eq_error_iff.mpr, fun credential h => ?_, fun hreal hnodup ring' hperm =>
    create_congr (canonicalRing_congr hreal (nodup_sortKey hnodup) hperm)⟩
  obtain ⟨hring, hreal⟩ := ring_of_create h
  have hincreasing := pairwise_canonicalRing real ring
  refine ⟨?_, hreal, fun i o hi ho => ?_, fun publicKey => ?_, ?_⟩
  · rw [hring]
    exact hincreasing
  · have hlt : i < credential.ring.length := (List.getElem?_eq_some_iff.mp ho).1
    have hne : o ≠ real := by
      rintro rfl
      have hnodup : credential.ring.Nodup := hring ▸ nodup_of_pairwise_sortKey hincreasing
      exact hi ((List.getElem?_inj hlt hnodup).mp (ho.trans hreal.symm))
    exact mem_of_mem_canonicalRing (hring ▸ List.mem_of_getElem? ho) hne
  · rw [hring]
    exact exists_publicKey_iff
  · rw [hring, create_congr (canonicalRing_idem real ring), h]

/-- An output of the private key 5 with the public key 6. -/
def owned : Output Residue := ⟨⟨2, 0⟩, 5, 6, []⟩

/-- A ring without this output, in which one public key appears twice and another one is that of the output. -/
def crowded : List (Output Residue) :=
  [⟨⟨1, 0⟩, 7, 9, []⟩, ⟨⟨3, 0⟩, 7, 4, []⟩, ⟨⟨4, 0⟩, 8, 4, []⟩, ⟨⟨5, 0⟩, 8, 6, []⟩]

/-- The owner has a credential for the crowded ring, whose ring gives it again, also backwards; with another
private key there is none. -/
theorem create_canonical_crowded :
    create owned crowded (4 : Residue) 3 = .error .onetimeKeyMismatch ∧
    ∃ credential, create owned crowded (5 : Residue) 3 = .ok credential ∧
      credential.ring = [⟨⟨4, 0⟩, 8, 4, []⟩, owned] ∧
      credential.ring[credential.realIndex]? = some owned ∧
      create owned credential.ring (5 : Residue) 3 = .ok credential ∧
      create owned credential.ring.reverse (5 : Residue) 3 = .ok credential := by
  obtain ⟨hiff, -, hcanonical, -⟩ := create_canonical owned crowded (5 : Residue) 3
  obtain ⟨credential, h⟩ := hiff.mpr (by decide +kernel)
  obtain ⟨-, hreal, -, -, hagain⟩ := hcanonical credential h
  have hring : credential.ring = [⟨⟨4, 0⟩, 8, 4, []⟩, owned] :=
    (ring_of_create h).1.trans (beq_iff_eq.mp (by decide +kernel))
  obtain ⟨-, -, -, horder⟩ := create_canonical owned credential.ring (5 : Residue) 3
  refine ⟨(create_canonical owned crowded (4 : Residue) 3).2.1 (by decide +kernel), credential, h, hring,
    hreal, hagain, ?_⟩
  rw [horder (List.mem_of_getElem? hreal) ?_ _ (List.reverse_perm _), hagain]
  rw [hring]
  decide +kernel

end Credential
end ConfidentialTx
