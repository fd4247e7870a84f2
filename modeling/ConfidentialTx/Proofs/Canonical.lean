import ConfidentialTx.Proofs.Residues
import ConfidentialTx.Proofs.Wire

/-! # Canonical range proofs

The reader of range proofs takes exactly what the writer gives: nothing that it takes has a second wire
form, so the signed bytes cannot be changed without changing the proof.

* `CanonicalScalarEncoding`, `CanonicalPointEncoding`: encodings of which nothing else is read.
* `Bytes.flatten_blocks`: the blocks of a byte string put together again.
* `InnerProductProof.ofBytes_eq_ok_iff`, `RangeProof.ofBytes_eq_ok_iff`: the byte strings that are read are
  those that are written.
* `RangeProof.HasForm`: these byte strings by their length and their blocks
  (`RangeProof.exists_ofBytes_iff`).
* `RangeProof.ofBytes_eq_error`: the one error of what is refused. -/

namespace ConfidentialTx

/-- Scalars of which nothing but the encoding is read. -/
class CanonicalScalarEncoding (F : Type) [ScalarEncoding F] : Prop extends LosslessScalarEncoding F where
  encode_of_decode : ∀ {bs : Bytes} {s : F},
    ScalarEncoding.decode bs = some s → ScalarEncoding.encode s = bs

/-- Points of which nothing but the encoding is read. -/
class CanonicalPointEncoding (P : Type) [PointEncoding P] : Prop extends LawfulPointEncoding P where
  encode_of_decode : ∀ {bs : Bytes} {p : P},
    PointEncoding.decode bs = some p → PointEncoding.encode p = bs

/-! ### Blocks -/

namespace Bytes
variable {width : ℕ}

theorem blocks_eq_map (width count : ℕ) (bs : Bytes) :
    blocks width count bs = (List.range count).map fun i => slice bs (width * i) width := by
  induction count generalizing bs with
  | zero => rfl
  | succ count ih =>
    rw [blocks, ih, List.range_succ_eq_map, List.map_cons, List.map_map]
    congr 1
    refine List.map_congr_left fun i _ => ?_
    simp only [slice, Function.comp_apply, List.drop_drop, Nat.succ_eq_add_one, Nat.mul_succ]
    rw [Nat.add_comm]

theorem flatten_blocks (width count : ℕ) (bs : Bytes) :
    (blocks width count bs).flatten = bs.take (width * count) := by
  induction count generalizing bs with
  | zero => rfl
  | succ count ih => rw [blocks, List.flatten_cons, ih, Nat.mul_succ, Nat.add_comm, List.take_add]

end Bytes

variable {F P : Type}

/-! ### Inner-product proofs -/

namespace InnerProductProof

variable [ScalarEncoding F] [PointEncoding P]

theorem ofBytes_eq (bs : Bytes) :
    (ofBytes bs : Except RangeProofError (InnerProductProof F P)) =
      if bs.length % 32 ≠ 0 ∨ bs.length / 32 < 2 ∨ (bs.length / 32 - 2) % 2 ≠ 0 ∨
          32 ≤ (bs.length / 32 - 2) / 2 then .error .formatError
      else (ofBlocks ((bs.length / 32 - 2) / 2) (Bytes.blocks 32 (bs.length / 32) bs)).elim
        (.error .formatError) .ok := rfl

theorem ofBytes_eq_error {bs : Bytes} {e : RangeProofError}
    (h : (ofBytes bs : Except RangeProofError (InnerProductProof F P)) = .error e) :
    e = .formatError := by
  rw [ofBytes_eq] at h
  split at h
  · exact (Except.error.inj h).symm
  · exact (elim_eq_error.mp h).2.symm

theorem exists_ofBlocks [LosslessScalarEncoding F] [LawfulPointEncoding P] {k : ℕ} {bss : List Bytes}
    (hlength : bss.length = 2 * k + 2)
    (hpoints : ∀ b ∈ bss.take (2 * k), b ∈ Set.range (PointEncoding.encode : P → Bytes))
    (hscalars : ∀ b ∈ bss.drop (2 * k), b ∈ Set.range (ScalarEncoding.encode : F → Bytes)) :
    ∃ proof : InnerProductProof F P, ofBlocks k bss = some proof := by
  induction k generalizing bss with
  | zero =>
    obtain ⟨a, b, rfl⟩ := List.length_eq_two.mp hlength
    obtain ⟨x, rfl⟩ := hscalars a (by simp)
    obtain ⟨y, rfl⟩ := hscalars b (by simp)
    exact ⟨⟨[], [], x, y⟩, by simp [ofBlocks, LosslessScalarEncoding.decode_encode]⟩
  | succ k ih =>
    have hdouble : 2 * (k + 1) = 2 * k + 1 + 1 := by ring
    rw [hdouble] at hlength hpoints hscalars
    obtain ⟨l, rest', rfl⟩ := List.exists_cons_of_length_eq_add_one hlength
    obtain ⟨r, rest, rfl⟩ := List.exists_cons_of_length_eq_add_one (Nat.succ.inj hlength)
    rw [List.take_succ_cons, List.take_succ_cons] at hpoints
    rw [List.drop_succ_cons, List.drop_succ_cons] at hscalars
    obtain ⟨L, rfl⟩ := hpoints l (by simp)
    obtain ⟨R, rfl⟩ := hpoints r (by simp)
    obtain ⟨proof, hrest⟩ := ih (Nat.succ.inj (Nat.succ.inj hlength))
      (fun b hb => hpoints b (List.mem_cons_of_mem _ (List.mem_cons_of_mem _ hb))) hscalars
    exact ⟨{ proof with L := L :: proof.L, R := R :: proof.R },
      by simp [ofBlocks, LawfulPointEncoding.decode_encode, hrest]⟩

theorem wireBlocks_getElem? (proof : InnerProductProof F P) {k i : ℕ} {b : Bytes}
    (hL : proof.L.length = k) (hR : proof.R.length = k) (hb : proof.wireBlocks[i]? = some b) :
    (i < 2 * k → b ∈ Set.range (PointEncoding.encode : P → Bytes)) ∧
      (2 * k ≤ i → b ∈ Set.range (ScalarEncoding.encode : F → Bytes)) := by
  have hlength : ((proof.L.zip proof.R).flatMap fun r =>
      [PointEncoding.encode r.1, PointEncoding.encode r.2]).length = 2 * k := by
    rw [List.length_flatMap]
    simp [hL, hR, Nat.mul_comm]
  unfold wireBlocks at hb
  constructor
  · intro hi
    rw [List.getElem?_append_left (hlength.symm ▸ hi)] at hb
    obtain ⟨r, -, hr⟩ := List.mem_flatMap.mp (List.mem_of_getElem? hb)
    rcases List.mem_pair.mp hr with rfl | rfl <;> exact Set.mem_range_self _
  · intro hi
    rw [List.getElem?_append_right (hlength.symm ▸ hi)] at hb
    rcases List.mem_pair.mp (List.mem_of_getElem? hb) with rfl | rfl <;> exact Set.mem_range_self _

variable [CanonicalScalarEncoding F] [CanonicalPointEncoding P]

/-- Blocks that are read are those of the proof that they are read as. -/
theorem eq_wireBlocks_of_ofBlocks {k : ℕ} {bss : List Bytes} {proof : InnerProductProof F P}
    (h : ofBlocks k bss = some proof) :
    bss = proof.wireBlocks ∧ proof.L.length = k ∧ proof.R.length = k := by
  induction k generalizing bss proof with
  | zero =>
    match bss, h with
    | [a, b], h =>
      obtain ⟨x, hx, h⟩ := Option.bind_eq_some_iff.mp h
      obtain ⟨y, hy, h⟩ := Option.bind_eq_some_iff.mp h
      obtain rfl := Option.some.inj h
      refine ⟨?_, rfl, rfl⟩
      rw [← CanonicalScalarEncoding.encode_of_decode hx, ← CanonicalScalarEncoding.encode_of_decode hy]
      rfl
  | succ k ih =>
    match bss, h with
    | l :: r :: rest, h =>
      obtain ⟨L, hL, h⟩ := Option.bind_eq_some_iff.mp h
      obtain ⟨R, hR, h⟩ := Option.bind_eq_some_iff.mp h
      obtain ⟨proof', hrest, h⟩ := Option.bind_eq_some_iff.mp h
      obtain rfl := Option.some.inj h
      obtain ⟨rfl, hL', hR'⟩ := ih hrest
      refine ⟨?_, congrArg Nat.succ hL', congrArg Nat.succ hR'⟩
      rw [← CanonicalPointEncoding.encode_of_decode hL, ← CanonicalPointEncoding.encode_of_decode hR]
      rfl

/-- The byte strings that are read are those that are written. -/
theorem ofBytes_eq_ok_iff {bs : Bytes} {proof : InnerProductProof F P} :
    ofBytes bs = .ok proof ↔
      bs = proof.toBytes ∧ proof.L.length < 32 ∧ proof.R.length = proof.L.length := by
  constructor
  · intro h
    rw [ofBytes_eq] at h
    split at h
    · cases h
    · next hlength =>
      rw [not_or, not_or, not_or, not_not] at hlength
      obtain ⟨hmod, -, -, hrounds⟩ := hlength
      obtain ⟨hblocks, hL, hR⟩ := eq_wireBlocks_of_ofBlocks (elim_eq_ok.mp h)
      have hall : bs.length ≤ 32 * (bs.length / 32) := by omega
      rw [toBytes_eq, ← hblocks, Bytes.flatten_blocks, List.take_of_length_le hall]
      exact ⟨rfl, by omega, hR.trans hL.symm⟩
  · rintro ⟨rfl, hL, hR⟩
    exact ofBytes_toBytes hL hR

end InnerProductProof

/-! ### Range proofs -/

namespace RangeProof

variable [ScalarEncoding F] [PointEncoding P]

theorem ofBytes_eq_error {bs : Bytes} {e : RangeProofError}
    (h : (ofBytes bs : Except RangeProofError (RangeProof F P)) = .error e) : e = .formatError := by
  unfold ofBytes at h
  split at h
  · exact (Except.error.inj h).symm
  · cases hinner : (InnerProductProof.ofBytes (bs.drop (7 * 32)) :
        Except RangeProofError (InnerProductProof F P)) with
    | error e' =>
      rw [hinner] at h
      exact (Except.error.inj h).symm.trans (InnerProductProof.ofBytes_eq_error hinner)
    | ok inner =>
      rw [hinner] at h
      exact (elim_eq_error.mp h).2.symm

/-- All blocks of a proof. -/
def wireBlocks (proof : RangeProof F P) : List Bytes := proof.headerBlocks ++ proof.inner.wireBlocks

theorem toBytes_eq_flatten (proof : RangeProof F P) : proof.toBytes = proof.wireBlocks.flatten := by
  rw [toBytes_eq, InnerProductProof.toBytes_eq, wireBlocks, List.flatten_append]

variable (F P) in
/-- The form of the byte strings that are read: the blocks of `k` rounds behind seven blocks and before
two, with points and scalars in their places. -/
structure HasForm (k : ℕ) (bs : Bytes) : Prop where
  length_eq : bs.length = 32 * (9 + 2 * k)
  points : ∀ i, i < 4 ∨ 7 ≤ i ∧ i < 7 + 2 * k →
    block bs i ∈ Set.range (PointEncoding.encode : P → Bytes)
  scalars : ∀ i, 4 ≤ i ∧ i < 7 ∨ 7 + 2 * k ≤ i ∧ i < 9 + 2 * k →
    block bs i ∈ Set.range (ScalarEncoding.encode : F → Bytes)

theorem length_wireBlocks {proof : RangeProof F P} {k : ℕ} (hL : proof.inner.L.length = k)
    (hR : proof.inner.R.length = k) : proof.wireBlocks.length = 9 + 2 * k := by
  rw [wireBlocks, List.length_append, InnerProductProof.length_wireBlocks hL hR]
  change 7 + (2 * k + 2) = 9 + 2 * k
  ring

section Lawful
variable [LosslessScalarEncoding F] [LawfulPointEncoding P]

theorem length_of_mem_wireBlocks (proof : RangeProof F P) : ∀ b ∈ proof.wireBlocks, b.length = 32 := by
  intro b hb
  rcases List.mem_append.mp hb with hb | hb
  · exact proof.length_of_mem_headerBlocks b hb
  · exact proof.inner.length_of_mem_wireBlocks b hb

theorem length_toBytes {proof : RangeProof F P} {k : ℕ} (hL : proof.inner.L.length = k)
    (hR : proof.inner.R.length = k) : proof.toBytes.length = 32 * (9 + 2 * k) := by
  rw [toBytes_eq_flatten, Bytes.length_flatten proof.length_of_mem_wireBlocks, length_wireBlocks hL hR]

theorem hasForm_toBytes {proof : RangeProof F P} {k : ℕ} (hL : proof.inner.L.length = k)
    (hR : proof.inner.R.length = k) : HasForm F P k proof.toBytes := by
  have hblock : ∀ {i : ℕ} {b : Bytes}, proof.wireBlocks[i]? = some b → block proof.toBytes i = b := by
    intro i b hi
    have h := Bytes.slice_flatten proof.length_of_mem_wireBlocks hi []
    rwa [List.append_nil, ← toBytes_eq_flatten] at h
  -- the block with the number `7 + i` is the block `i` of the inner-product argument
  have hinner : ∀ {i : ℕ}, 7 ≤ i → i < 9 + 2 * k → ∃ b, block proof.toBytes i = b ∧
      proof.inner.wireBlocks[i - 7]? = some b := by
    intro i hi hlt
    have hlt' : i - 7 < proof.inner.wireBlocks.length := by
      rw [InnerProductProof.length_wireBlocks hL hR]
      omega
    refine ⟨_, hblock ?_, List.getElem?_eq_getElem hlt'⟩
    rw [wireBlocks, List.getElem?_append_right hi]
    exact List.getElem?_eq_getElem hlt'
  refine ⟨length_toBytes hL hR, ?_, ?_⟩
  · rintro i (hi | ⟨hi, hlt⟩)
    · match i, hi with
      | 0, _ => exact ⟨proof.A, (hblock rfl).symm⟩
      | 1, _ => exact ⟨proof.S, (hblock rfl).symm⟩
      | 2, _ => exact ⟨proof.T₁, (hblock rfl).symm⟩
      | 3, _ => exact ⟨proof.T₂, (hblock rfl).symm⟩
    · obtain ⟨b, rfl, hb⟩ := hinner hi (by omega)
      exact (proof.inner.wireBlocks_getElem? hL hR hb).1 (by omega)
  · rintro i (⟨hi, hlt⟩ | ⟨hi, hlt⟩)
    · match i, hi, hlt with
      | 4, _, _ => exact ⟨proof.tx, (hblock rfl).symm⟩
      | 5, _, _ => exact ⟨proof.txBlinding, (hblock rfl).symm⟩
      | 6, _, _ => exact ⟨proof.eBlinding, (hblock rfl).symm⟩
    · obtain ⟨b, rfl, hb⟩ := hinner (by omega) hlt
      exact (proof.inner.wireBlocks_getElem? hL hR hb).2 (by omega)

theorem exists_ofBytes_of_hasForm {k : ℕ} (hk : k < 32) {bs : Bytes} (h : HasForm F P k bs) :
    ∃ proof : RangeProof F P, ofBytes bs = .ok proof := by
  have hlength := h.length_eq
  obtain ⟨A, hA⟩ := h.points 0 (by omega)
  obtain ⟨S, hS⟩ := h.points 1 (by omega)
  obtain ⟨T₁, hT₁⟩ := h.points 2 (by omega)
  obtain ⟨T₂, hT₂⟩ := h.points 3 (by omega)
  obtain ⟨tx, htx⟩ := h.scalars 4 (by omega)
  obtain ⟨txBlinding, htxBlinding⟩ := h.scalars 5 (by omega)
  obtain ⟨eBlinding, heBlinding⟩ := h.scalars 6 (by omega)
  have hrest : (bs.drop (7 * 32)).length = 32 * (2 * k + 2) := by
    rw [List.length_drop]
    omega
  have hblocks : Bytes.blocks 32 (2 * k + 2) (bs.drop (7 * 32)) =
      (List.range (2 * k + 2)).map fun i => block bs (7 + i) := by
    rw [Bytes.blocks_eq_map]
    refine List.map_congr_left fun i _ => ?_
    rw [block, Bytes.slice, Bytes.slice, List.drop_drop, Nat.mul_add, Nat.mul_comm 7 32]
  obtain ⟨inner, hinner⟩ : ∃ inner : InnerProductProof F P,
      InnerProductProof.ofBlocks k (Bytes.blocks 32 (2 * k + 2) (bs.drop (7 * 32))) = some inner := by
    refine InnerProductProof.exists_ofBlocks (Bytes.length_blocks _ _ _) ?_ ?_
    · intro b hb
      rw [hblocks, ← List.map_take, List.take_range, Nat.min_eq_left (by omega)] at hb
      obtain ⟨i, hi, rfl⟩ := List.mem_map.mp hb
      have hlt := List.mem_range.mp hi
      exact h.points (7 + i) (by omega)
    · intro b hb
      obtain ⟨i, hi, rfl⟩ := List.mem_drop_iff_getElem.mp hb
      rw [Bytes.length_blocks] at hi
      simp only [hblocks, List.getElem_map, List.getElem_range]
      exact h.scalars (7 + (2 * k + i)) (by omega)
  have hread : InnerProductProof.ofBytes (bs.drop (7 * 32)) = .ok inner := by
    have hdiv : (bs.drop (7 * 32)).length / 32 = 2 * k + 2 := by omega
    have hrounds : (2 * k + 2 - 2) / 2 = k := by omega
    rw [InnerProductProof.ofBytes_eq, hdiv, if_neg (by omega), hrounds, hinner]
    rfl
  refine ⟨⟨A, S, T₁, T₂, tx, txBlinding, eBlinding, inner⟩, ?_⟩
  unfold ofBytes
  rw [if_neg (by omega), hread]
  refine bind_eq_ok.mpr ⟨inner, rfl, ?_⟩
  unfold ofHeader
  rw [← hA, ← hS, ← hT₁, ← hT₂, ← htx, ← htxBlinding, ← heBlinding]
  simp [LawfulPointEncoding.decode_encode, LosslessScalarEncoding.decode_encode]

end Lawful

variable [CanonicalScalarEncoding F] [CanonicalPointEncoding P]

theorem take_eq_headerBlocks {bs : Bytes} {inner : InnerProductProof F P} {proof : RangeProof F P}
    (h : ofHeader bs inner = some proof) :
    bs.take (7 * 32) = proof.headerBlocks.flatten ∧ proof.inner = inner := by
  obtain ⟨A, hA, h⟩ := Option.bind_eq_some_iff.mp h
  obtain ⟨S, hS, h⟩ := Option.bind_eq_some_iff.mp h
  obtain ⟨T₁, hT₁, h⟩ := Option.bind_eq_some_iff.mp h
  obtain ⟨T₂, hT₂, h⟩ := Option.bind_eq_some_iff.mp h
  obtain ⟨tx, htx, h⟩ := Option.bind_eq_some_iff.mp h
  obtain ⟨txBlinding, htxBlinding, h⟩ := Option.bind_eq_some_iff.mp h
  obtain ⟨eBlinding, heBlinding, h⟩ := Option.bind_eq_some_iff.mp h
  obtain rfl := Option.some.inj h
  refine ⟨?_, rfl⟩
  have hblocks : Bytes.blocks 32 7 bs =
      [block bs 0, block bs 1, block bs 2, block bs 3, block bs 4, block bs 5, block bs 6] :=
    Bytes.blocks_eq_map 32 7 bs
  rw [Nat.mul_comm, ← Bytes.flatten_blocks, hblocks, headerBlocks,
    ← CanonicalPointEncoding.encode_of_decode hA, ← CanonicalPointEncoding.encode_of_decode hS,
    ← CanonicalPointEncoding.encode_of_decode hT₁, ← CanonicalPointEncoding.encode_of_decode hT₂,
    ← CanonicalScalarEncoding.encode_of_decode htx,
    ← CanonicalScalarEncoding.encode_of_decode htxBlinding,
    ← CanonicalScalarEncoding.encode_of_decode heBlinding]

/-- The byte strings that are read are those that are written. -/
theorem ofBytes_eq_ok_iff {bs : Bytes} {proof : RangeProof F P} :
    ofBytes bs = .ok proof ↔
      bs = proof.toBytes ∧ proof.inner.L.length < 32 ∧
        proof.inner.R.length = proof.inner.L.length := by
  constructor
  · intro h
    unfold ofBytes at h
    obtain ⟨-, h⟩ := if_throw_eq_ok.mp h
    obtain ⟨inner, hinner, h⟩ := bind_eq_ok.mp h
    obtain ⟨hfront, rfl⟩ := take_eq_headerBlocks (elim_eq_ok.mp h)
    obtain ⟨hrest, hL, hR⟩ := InnerProductProof.ofBytes_eq_ok_iff.mp hinner
    refine ⟨?_, hL, hR⟩
    rw [toBytes_eq, ← hfront, ← hrest, List.take_append_drop]
  · rintro ⟨rfl, hL, hR⟩
    exact ofBytes_toBytes hL hR

theorem exists_ofBytes_iff {bs : Bytes} :
    (∃ proof : RangeProof F P, ofBytes bs = .ok proof) ↔ ∃ k < 32, HasForm F P k bs := by
  constructor
  · rintro ⟨proof, h⟩
    obtain ⟨rfl, hL, hR⟩ := ofBytes_eq_ok_iff.mp h
    exact ⟨proof.inner.L.length, hL, hasForm_toBytes rfl hR⟩
  · rintro ⟨k, hk, h⟩
    exact exists_ofBytes_of_hasForm hk h

end RangeProof
end ConfidentialTx
