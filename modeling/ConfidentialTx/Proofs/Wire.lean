import ConfidentialTx.Proofs.Laws
import ConfidentialTx.Proofs.Runs
import ConfidentialTx.Range.Proof

/-! # The wire form of range proofs

A proof is written as blocks of thirty-two bytes, and reading cuts a byte string into these blocks
again.

* `LosslessScalarEncoding`: what the wire forms need to know of scalars.
* `Bytes.blocks_flatten`: cutting into blocks undoes the concatenation of blocks.
* `RangeProof.ofBytes_toBytes`: a proof with as many left as right points, fewer than thirty-two, is
  read back. -/

namespace ConfidentialTx

/-- Encoded scalars have thirty-two bytes and are read back. -/
class LosslessScalarEncoding (F : Type) [ScalarEncoding F] : Prop where
  length_encode : ∀ s : F, (ScalarEncoding.encode s).length = 32
  decode_encode : ∀ s : F, ScalarEncoding.decode (ScalarEncoding.encode s) = some s

instance {F : Type} [ScalarEncoding F] [LawfulScalarEncoding F] : LosslessScalarEncoding F :=
  ⟨LawfulScalarEncoding.length_encode, LawfulScalarEncoding.decode_encode⟩

/-! ### Blocks -/

namespace Bytes
variable {width : ℕ} {bss : List Bytes}

theorem blocks_flatten (h : ∀ b ∈ bss, b.length = width) (rest : Bytes) :
    blocks width bss.length (bss.flatten ++ rest) = bss := by
  induction bss with
  | nil => rfl
  | cons b bss ih =>
    obtain ⟨hb, hbss⟩ := List.forall_mem_cons.mp h
    rw [List.length_cons, blocks, List.flatten_cons, List.append_assoc, List.take_left' hb,
      List.drop_left' hb, ih hbss]

theorem blocks_nil (width count : ℕ) : blocks width count [] = List.replicate count [] := by
  induction count with
  | zero => rfl
  | succ count ih => rw [blocks, List.take_nil, List.drop_nil, ih, List.replicate_succ]

theorem length_flatten (h : ∀ b ∈ bss, b.length = width) :
    bss.flatten.length = width * bss.length := by
  rw [List.length_flatten, List.map_congr_left h, List.map_const', List.sum_replicate, smul_eq_mul,
    Nat.mul_comm]

theorem slice_flatten (h : ∀ b ∈ bss, b.length = width) {i : ℕ} {block : Bytes}
    (hi : bss[i]? = some block) (rest : Bytes) :
    slice (bss.flatten ++ rest) (width * i) width = block := by
  induction bss generalizing i with
  | nil => cases hi
  | cons b bss ih =>
    obtain ⟨hb, hbss⟩ := List.forall_mem_cons.mp h
    rw [List.flatten_cons, List.append_assoc]
    cases i with
    | zero =>
      obtain rfl := Option.some.inj hi
      exact List.take_left' hb
    | succ i =>
      have hdrop : width * (i + 1) = b.length + width * i := by
        rw [hb]
        ring
      unfold slice at ih ⊢
      rw [hdrop, ← List.drop_drop, List.drop_left' rfl]
      exact ih hbss hi

end Bytes

/-! ### Inner-product proofs -/

variable {F P : Type} [ScalarEncoding F] [PointEncoding P]

namespace InnerProductProof

/-- The blocks of a proof. -/
def wireBlocks (proof : InnerProductProof F P) : List Bytes :=
  (proof.L.zip proof.R).flatMap (fun r => [PointEncoding.encode r.1, PointEncoding.encode r.2]) ++
    [ScalarEncoding.encode proof.a, ScalarEncoding.encode proof.b]

theorem toBytes_eq (proof : InnerProductProof F P) : proof.toBytes = proof.wireBlocks.flatten := by
  have hrounds : ∀ rounds : List (P × P),
      (rounds.flatMap fun r => [PointEncoding.encode r.1, PointEncoding.encode r.2]).flatten =
        rounds.flatMap fun r => PointEncoding.encode r.1 ++ PointEncoding.encode r.2 := by
    intro rounds
    induction rounds with
    | nil => rfl
    | cons r rounds ih =>
      rw [List.flatMap_cons, List.flatten_append, ih, List.flatMap_cons]
      simp
  unfold toBytes wireBlocks
  rw [List.flatten_append, hrounds]
  simp

theorem length_wireBlocks {proof : InnerProductProof F P} {k : ℕ} (hL : proof.L.length = k)
    (hR : proof.R.length = k) : proof.wireBlocks.length = 2 * k + 2 := by
  unfold wireBlocks
  rw [List.length_append, List.length_flatMap]
  simp [hL, hR, Nat.mul_comm]

variable [LosslessScalarEncoding F] [LawfulPointEncoding P]

theorem length_of_mem_wireBlocks (proof : InnerProductProof F P) :
    ∀ b ∈ proof.wireBlocks, b.length = 32 := by
  intro b hb
  rcases List.mem_append.mp hb with hb | hb
  · obtain ⟨r, -, hb⟩ := List.mem_flatMap.mp hb
    rcases List.mem_pair.mp hb with rfl | rfl <;> exact LawfulPointEncoding.length_encode _
  · rcases List.mem_pair.mp hb with rfl | rfl <;> exact LosslessScalarEncoding.length_encode _

theorem ofBlocks_wireBlocks {L R : List P} (h : R.length = L.length) (a b : F) :
    ofBlocks L.length (⟨L, R, a, b⟩ : InnerProductProof F P).wireBlocks = some ⟨L, R, a, b⟩ := by
  induction L generalizing R with
  | nil =>
    obtain rfl := List.length_eq_zero_iff.mp h
    change ofBlocks 0 [ScalarEncoding.encode a, ScalarEncoding.encode b] = _
    simp [ofBlocks, LosslessScalarEncoding.decode_encode]
  | cons l L ih =>
    obtain ⟨r, R, rfl⟩ := List.exists_cons_of_length_eq_add_one h
    have hrest := ih (R := R) (by simpa using h)
    change ofBlocks (L.length + 1) (PointEncoding.encode l :: PointEncoding.encode r ::
      (⟨L, R, a, b⟩ : InnerProductProof F P).wireBlocks) = _
    simp [ofBlocks, LawfulPointEncoding.decode_encode, hrest]

theorem length_toBytes {proof : InnerProductProof F P} (hR : proof.R.length = proof.L.length) :
    proof.toBytes.length = 32 * (2 * proof.L.length + 2) := by
  rw [toBytes_eq, Bytes.length_flatten proof.length_of_mem_wireBlocks, length_wireBlocks rfl hR]

theorem ofBytes_toBytes {proof : InnerProductProof F P} (hL : proof.L.length < 32)
    (hR : proof.R.length = proof.L.length) : ofBytes proof.toBytes = .ok proof := by
  have hlength := length_toBytes hR
  have hdiv : proof.toBytes.length / 32 = 2 * proof.L.length + 2 := by omega
  have hrounds : (2 * proof.L.length + 2 - 2) / 2 = proof.L.length := by omega
  have hblocks : Bytes.blocks 32 (2 * proof.L.length + 2) proof.toBytes = proof.wireBlocks := by
    have h := Bytes.blocks_flatten proof.length_of_mem_wireBlocks []
    rwa [length_wireBlocks rfl hR, List.append_nil, ← toBytes_eq] at h
  unfold ofBytes
  simp only
  rw [hdiv, if_neg (by omega), hrounds, hblocks, ofBlocks_wireBlocks hR]
  rfl

end InnerProductProof

/-! ### Range proofs -/

namespace RangeProof

/-- The blocks before the inner-product argument. -/
def headerBlocks (proof : RangeProof F P) : List Bytes :=
  [PointEncoding.encode proof.A, PointEncoding.encode proof.S, PointEncoding.encode proof.T₁,
    PointEncoding.encode proof.T₂, ScalarEncoding.encode proof.tx,
    ScalarEncoding.encode proof.txBlinding, ScalarEncoding.encode proof.eBlinding]

theorem toBytes_eq (proof : RangeProof F P) :
    proof.toBytes = proof.headerBlocks.flatten ++ proof.inner.toBytes := by
  simp [toBytes, headerBlocks]

variable [LosslessScalarEncoding F] [LawfulPointEncoding P]

theorem length_of_mem_headerBlocks (proof : RangeProof F P) :
    ∀ b ∈ proof.headerBlocks, b.length = 32 := by
  simp [headerBlocks, LawfulPointEncoding.length_encode, LosslessScalarEncoding.length_encode]

theorem ofHeader_toBytes (proof : RangeProof F P) :
    ofHeader proof.toBytes proof.inner = some proof := by
  have hblock : ∀ {i : ℕ} {b : Bytes}, proof.headerBlocks[i]? = some b → block proof.toBytes i = b := by
    intro i b hi
    rw [toBytes_eq]
    exact Bytes.slice_flatten proof.length_of_mem_headerBlocks hi _
  unfold ofHeader
  rw [hblock (i := 0) rfl, hblock (i := 1) rfl, hblock (i := 2) rfl, hblock (i := 3) rfl,
    hblock (i := 4) rfl, hblock (i := 5) rfl, hblock (i := 6) rfl]
  simp [LawfulPointEncoding.decode_encode, LosslessScalarEncoding.decode_encode]

theorem ofBytes_toBytes {proof : RangeProof F P} (hL : proof.inner.L.length < 32)
    (hR : proof.inner.R.length = proof.inner.L.length) : ofBytes proof.toBytes = .ok proof := by
  have hheader : proof.headerBlocks.flatten.length = 7 * 32 := by
    rw [Bytes.length_flatten proof.length_of_mem_headerBlocks]
    rfl
  have hlength : proof.toBytes.length = 7 * 32 + 32 * (2 * proof.inner.L.length + 2) := by
    rw [toBytes_eq, List.length_append, hheader, InnerProductProof.length_toBytes hR]
  have hinner : InnerProductProof.ofBytes (proof.toBytes.drop (7 * 32)) = .ok proof.inner := by
    rw [toBytes_eq, List.drop_left' hheader]
    exact InnerProductProof.ofBytes_toBytes hL hR
  unfold ofBytes
  rw [if_neg (by omega), hinner]
  refine bind_eq_ok.mpr ⟨proof.inner, rfl, ?_⟩
  rw [ofHeader_toBytes]
  rfl

end RangeProof
end ConfidentialTx
