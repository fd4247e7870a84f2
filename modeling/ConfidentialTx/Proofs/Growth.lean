import ConfidentialTx.Ledger
import ConfidentialTx.Proofs.Canonical
import ConfidentialTx.Proofs.Rows

/-! # How generator tables grow

A generator depends on its family, its party and its position, and on nothing else: a table that has grown
in any number of steps is the one that is built at once.

* `fronts`: streams that give the fronts of one infinite stream for every key, as those of the sponge do
  (`exists_shake_eq_fronts`).
* `Generators.generator`: the generator of a family, a party and a position.
* `Generators.IsRead`: what it means that a table holds these and no others.  It is kept by every request for
  more generators (`IsRead.increase`) and leaves one table of every size (`IsRead.eq_of_size`).
* `Generators.grow_eq_build`: so a table does not remember how it has grown, one that is read from the sponge
  among others (`Generators.increase_ofShake`). -/

namespace ConfidentialTx

/-! ### Streams -/

/-- The first bytes of an infinite stream for every key. -/
def fronts (stream : Bytes → ℕ → UInt8) (key : Bytes) (count : ℕ) : Bytes :=
  (List.range count).map (stream key)

theorem slice_fronts (stream : Bytes → ℕ → UInt8) (key : Bytes) {count : ℕ} (offset width : ℕ)
    (h : offset + width ≤ count) :
    Bytes.slice (fronts stream key count) offset width =
      (List.range width).map fun k => stream key (offset + k) := by
  unfold Bytes.slice fronts
  apply List.ext_getElem
  · simp only [List.length_take, List.length_drop, List.length_map, List.length_range]
    omega
  · intro k h₁ h₂
    simp

namespace Keccak
variable {rate : ℕ}

theorem length_squeeze (hrate : rate ≤ 200) (blocks : ℕ) (s : State) :
    (squeeze rate blocks s).length = rate * blocks := by
  induction blocks generalizing s with
  | zero => rfl
  | succ blocks ih =>
    rw [squeeze, List.length_append, List.length_take, State.length_toBytes, Nat.min_eq_left hrate, ih,
      Nat.mul_succ, Nat.add_comm]

theorem isPrefix_squeeze {blocks more : ℕ} (h : blocks ≤ more) (s : State) :
    squeeze rate blocks s <+: squeeze rate more s := by
  induction more generalizing blocks s with
  | zero =>
    obtain rfl := Nat.le_zero.mp h
    exact List.prefix_rfl
  | succ more ih =>
    cases blocks with
    | zero => exact List.nil_prefix
    | succ blocks =>
      exact (List.prefix_append_right_inj _).mpr (ih (Nat.le_of_succ_le_succ h) (permute s))

end Keccak

/-- The sponge gives every key the fronts of one infinite stream. -/
theorem exists_shake_eq_fronts : ∃ stream : Bytes → ℕ → UInt8, shake = fronts stream := by
  let state (key : Bytes) : Keccak.State := Keccak.absorb 136 0x1f (key.length / 136) .zero key
  let squeezed (key : Bytes) (count : ℕ) : Bytes := Keccak.squeeze 136 ((count + 135) / 136) (state key)
  have hlong : ∀ key count, count ≤ (squeezed key count).length := by
    intro key count
    rw [Keccak.length_squeeze (by decide)]
    omega
  refine ⟨fun key i => (squeezed key (i + 1)).get ⟨i, hlong key (i + 1)⟩, ?_⟩
  funext key count
  have hshake : shake key count = (squeezed key count).take count := rfl
  rw [hshake]
  apply List.ext_getElem
  · simp [fronts, hlong]
  · intro i h₁ h₂
    have hi : i < count := by simpa [fronts] using h₂
    have hfront : squeezed key (i + 1) <+: squeezed key count :=
      Keccak.isPrefix_squeeze (by omega) (state key)
    simp only [fronts, List.getElem_take, List.getElem_map, List.getElem_range, List.get_eq_getElem]
    exact (hfront.getElem (hlong key (i + 1))).symm

theorem Share.ext_family {P : Type} {s s' : Share P}
    (h : ∀ family, s.family family = s'.family family) : s = s' := by
  cases s
  cases s'
  rw [Share.mk.injEq]
  exact ⟨h .G, h .H⟩

theorem Family.letter_injective : Function.Injective Family.letter :=
  Function.LeftInverse.injective (g := fun b => if b = 71 then .G else .H) fun f => by cases f <;> rfl

namespace Generators
variable {P : Type} [PointEncoding P]

/-! ### Single generators -/

/-- Generator `i` of a family and a party: the point of the bytes `64 i`, …, `64 i + 63` of their stream. -/
def generator (stream : Bytes → ℕ → UInt8) (family : Family) (party i : ℕ) : P :=
  PointEncoding.ofUniform ((List.range 64).map fun k => stream (chainKey family party) (64 * i + k))

/-- Families and parties have streams of their own, as long as four bytes hold the party. -/
theorem chainKey_inj {family family' : Family} {party party' : ℕ} (hparty : party < 2 ^ 32)
    (hparty' : party' < 2 ^ 32) (h : chainKey family party = chainKey family' party') :
    family = family' ∧ party = party' := by
  obtain ⟨hletter, hnumber⟩ := List.cons.inj (List.append_cancel_left h)
  have hsize : 1 <<< (8 * 4) = 2 ^ 32 := by decide
  have hnumber := congrArg Bytes.toNat hnumber
  rw [Bytes.toNat_ofNat, Bytes.toNat_ofNat, hsize, Nat.mod_eq_of_lt hparty, Nat.mod_eq_of_lt hparty']
    at hnumber
  exact ⟨Family.letter_injective hletter, hnumber⟩

theorem chain_eq (stream : Bytes → ℕ → UInt8) (family : Family) (party skip count : ℕ) :
    (chain (fronts stream) family party skip count : List P) =
      (List.range' skip count).map (generator stream family party) := by
  unfold chain
  dsimp only
  rw [Bytes.blocks_eq_map, List.map_map, List.range'_eq_map_range, List.map_map]
  refine List.map_congr_left fun i hi => ?_
  have hi := List.mem_range.mp hi
  have hbound : 64 * (skip + i) + 64 ≤ 64 * (skip + count) := by omega
  have hslice := slice_fronts stream (chainKey family party) (64 * (skip + i)) 64 hbound
  unfold Bytes.slice at hslice ⊢
  simp only [Function.comp_apply, List.drop_drop, generator, ← Nat.mul_add]
  rw [hslice]

/-! ### Tables -/

/-- Whether every party of a table has the generators of its streams, as many as there are. -/
def IsRead (stream : Bytes → ℕ → UInt8) (t : Generators P) : Prop :=
  ∀ j share, t.share j = some share →
    ∀ family, share.family family = (List.range t.capacity).map (generator stream family j)

section Tables
variable {stream : Bytes → ℕ → UInt8} {t : Generators P} {j : ℕ} {share : Share P}

theorem extendShare_family (stream : Bytes → ℕ → Bytes) (capacity larger j : ℕ) (s : Share P)
    (family : Family) : (extendShare stream capacity larger j s).family family =
      s.family family ++ chain stream family j capacity (larger - capacity) := by
  cases family <;> rfl

theorem share_increase (stream : Bytes → ℕ → Bytes) (t : Generators P) (larger j : ℕ) :
    (t.increase stream larger).share j = (t.share j).map (extendShare stream t.capacity larger j) := by
  unfold increase Generators.share
  split
  case isTrue h =>
    have hkept : (extendShare stream t.capacity larger j : Share P → Share P) = id := by
      funext s
      refine Share.ext_family fun family => ?_
      rw [extendShare_family, Nat.sub_eq_zero_of_le h]
      exact List.append_nil _
    rw [hkept, Option.map_id]
    rfl
  case isFalse h => rw [List.getElem?_mapIdx]

theorem isRead_empty (parties : ℕ) : (empty parties : Generators P).IsRead stream := by
  intro j share hshare family
  obtain rfl := List.eq_of_mem_replicate (List.mem_of_getElem? hshare)
  cases family <;> rfl

/-- A request for more generators goes on reading where the table ends. -/
theorem IsRead.increase (h : t.IsRead stream) (larger : ℕ) :
    (t.increase (fronts stream) larger).IsRead stream := by
  intro j share hshare family
  rw [share_increase] at hshare
  obtain ⟨old, hold, rfl⟩ := Option.map_eq_some_iff.mp hshare
  have hsize : max t.capacity larger = t.capacity + (larger - t.capacity) := by omega
  rw [extendShare_family, h j old hold family, chain_eq, ← List.map_append, capacity_increase, hsize,
    List.range_eq_range', List.range_eq_range', ← List.range'_append_1, Nat.zero_add]

/-- There is one table of every size that holds the generators of its streams. -/
theorem IsRead.eq_of_size {t' : Generators P} (h : t.IsRead stream) (h' : t'.IsRead stream)
    (hcapacity : t.capacity = t'.capacity) (hparties : t.parties = t'.parties) : t = t' := by
  have hshares : t.shares = t'.shares := by
    refine List.ext_getElem hparties fun j hj hj' => Share.ext_family fun family => ?_
    rw [h j _ (List.getElem?_eq_getElem hj), h' j _ (List.getElem?_eq_getElem hj'), hcapacity]
  cases t
  cases t'
  cases hcapacity
  cases hshares
  rfl

end Tables

/-! ### Any number of requests -/

/-- The table behind a sequence of requests. -/
def grow (stream : Bytes → ℕ → Bytes) (t : Generators P) (requests : List ℕ) : Generators P :=
  requests.foldl (fun t larger => t.increase stream larger) t

theorem capacity_grow (stream : Bytes → ℕ → Bytes) (t : Generators P) (requests : List ℕ) :
    (t.grow stream requests).capacity = requests.foldl max t.capacity := by
  induction requests generalizing t with
  | nil => rfl
  | cons larger requests ih => exact (ih _).trans (by rw [capacity_increase, List.foldl_cons])

theorem parties_grow (stream : Bytes → ℕ → Bytes) (t : Generators P) (requests : List ℕ) :
    (t.grow stream requests).parties = t.parties := by
  induction requests generalizing t with
  | nil => rfl
  | cons larger requests ih => exact (ih _).trans (parties_increase stream t larger)

theorem IsRead.grow {stream : Bytes → ℕ → UInt8} {t : Generators P} (h : t.IsRead stream) (requests : List ℕ) :
    (t.grow (fronts stream) requests).IsRead stream := by
  induction requests generalizing t with
  | nil => exact h
  | cons larger requests ih => exact ih (h.increase larger)

theorem isRead_build (stream : Bytes → ℕ → UInt8) (capacity parties : ℕ) :
    (build (fronts stream) capacity parties : Generators P).IsRead stream :=
  (isRead_empty parties).increase capacity

theorem prefix_share_increase (stream : Bytes → ℕ → Bytes) (t : Generators P) (larger : ℕ) {j : ℕ}
    {share : Share P} (h : t.share j = some share) :
    ∃ share', (t.increase stream larger).share j = some share' ∧
      ∀ family, share.family family <+: share'.family family := by
  rw [share_increase, h]
  refine ⟨_, rfl, fun family => ?_⟩
  rw [extendShare_family]
  exact List.prefix_append _ _

/-- **Growth.**  For any infinite streams, any number of parties, any capacity to begin with and any sequence
of requests, growing, shrinking or repeated: the table is the one that is built at once for the largest of
all capacities.  It has as many generators in both families of every party, and generator `i` is the point of
the bytes `64 i`, …, `64 i + 63` of a stream that no other family and no other party has.  A further request
leaves every generator in its place. -/
theorem grow_eq_build (stream : Bytes → ℕ → UInt8) (capacity parties : ℕ) (requests : List ℕ) :
    let t : Generators P := (build (fronts stream) capacity parties).grow (fronts stream) requests
    t = build (fronts stream) (requests.foldl max capacity) parties ∧
    t.capacity = requests.foldl max capacity ∧ t.parties = parties ∧
    (∀ j < parties, ∃ share, t.share j = some share ∧ ∀ family,
      (share.family family).length = t.capacity ∧
      ∀ i < t.capacity, (share.family family)[i]? = some (generator stream family j i)) ∧
    (∀ family family' j j', j < 2 ^ 32 → j' < 2 ^ 32 → chainKey family j = chainKey family' j' →
      family = family' ∧ j = j') ∧
    ∀ larger j share, t.share j = some share →
      ∃ share', (t.increase (fronts stream) larger).share j = some share' ∧
        ∀ family, share.family family <+: share'.family family := by
  intro t
  have hread : t.IsRead stream := (isRead_build stream capacity parties).grow requests
  have hcapacity : t.capacity = requests.foldl max capacity :=
    (capacity_grow _ _ requests).trans (by rw [capacity_build])
  have hparties : t.parties = parties :=
    (parties_grow _ _ requests).trans (parties_build _ capacity parties)
  refine ⟨?_, hcapacity, hparties, ?_, fun _ _ _ _ hj hj' h => chainKey_inj hj hj' h, ?_⟩
  · refine hread.eq_of_size (isRead_build stream _ parties) ?_ ?_
    · rw [hcapacity, capacity_build]
    · rw [hparties, parties_build]
  · intro j hj
    have hlt : j < t.shares.length := hj.trans_eq hparties.symm
    have hshare : t.share j = some t.shares[j] := List.getElem?_eq_getElem hlt
    refine ⟨_, hshare, fun family => ⟨t.full _ (List.getElem_mem _) family, fun i hi => ?_⟩⟩
    rw [hread j _ hshare family, List.getElem?_map, List.getElem?_range hi]
    rfl
  · intro larger j share hshare
    exact prefix_share_increase _ t larger hshare

/-- The table of two parties with two generators each, grown to five, has a fifth generator of the second
party where the table of five has it, and so it has after a smaller request. -/
theorem grow_eq_build_residues :
    let t := (Residue.table 2 2).grow Residue.stream [5, 1, 3]
    t = Residue.table 5 2 ∧
    (∃ share, t.share 1 = some share ∧ share.H[4]? =
      some (generator (fun key i => key.sum + UInt8.ofNat i) .H 1 4)) ∧
    chainKey .G 1 ≠ chainKey .H 1 := by
  intro t
  obtain ⟨heq, -, -, hshares, hkeys, -⟩ := grow_eq_build (P := Residue)
    (fun key i => key.sum + UInt8.ofNat i) 2 2 [5, 1, 3]
  obtain ⟨share, hshare, hgenerators⟩ := hshares 1 (by decide)
  refine ⟨heq, ⟨share, hshare, (hgenerators .H).2 4 ?_⟩, fun h => ?_⟩
  · rw [heq]
    exact Nat.lt_succ_self 4
  · exact Family.noConfusion (hkeys .G .H 1 1 (by decide) (by decide) h).1

end Generators

/-- The tables that are read from the sponge, grown by a request, are those of the larger capacity. -/
theorem Generators.increase_ofShake (capacity parties larger : ℕ) :
    (ofShake capacity parties).increase shake larger = ofShake (max capacity larger) parties := by
  obtain ⟨stream, hstream⟩ := exists_shake_eq_fronts
  unfold ofShake
  rw [hstream]
  refine ((isRead_build stream capacity parties).increase larger).eq_of_size
    (isRead_build stream _ parties) ?_ ?_
  · rw [capacity_increase, capacity_build, capacity_build]
  · rw [parties_increase, parties_build, parties_build]

end ConfidentialTx
