import ConfidentialTx.Proofs.Laws
import ConfidentialTx.Pedersen
import ConfidentialTx.Range.Generators
import ConfidentialTx.Transcript.Basic

/-! # Residues as scalars and points

The laws of `Laws.lean` have a model in which everything can be computed: the residues modulo a small
prime, as scalars and, with the same addition, as points.  Nothing is hidden in it, since a residue is
its own discrete logarithm, but every protocol runs on it. -/

namespace ConfidentialTx

/-- The residues modulo a prime. -/
abbrev Residue : Type := ZMod 65537

namespace Residue

instance : Fact (Nat.Prime 65537) := ⟨by norm_num⟩

/-- Numerals as casts, so that a list of residues is written without a proof for every entry. -/
instance (n : ℕ) : OfNat Residue (n + 2) := ⟨((n + 2 : ℕ) : Residue)⟩

/-- The thirty-two bytes of a residue. -/
def toBytes (r : Residue) : Bytes := Bytes.ofNat 32 r.val

/-- Reads thirty-two bytes of a reduced number. -/
def read (bs : Bytes) : Option Residue :=
  if bs.length = 32 ∧ bs.toNat < 65537 then some (bs.toNat : Residue) else none

theorem read_toBytes (r : Residue) : read (toBytes r) = some r := by
  have hlt : r.val < 65537 := ZMod.val_lt r
  have hval : (toBytes r).toNat = r.val := by
    rw [toBytes, Bytes.toNat_ofNat]
    exact Nat.mod_eq_of_lt (hlt.trans (by decide))
  have hlen : (toBytes r).length = 32 := Bytes.length_ofNat _ _
  rw [read, if_pos ⟨hlen, hval.symm ▸ hlt⟩, hval, ZMod.natCast_zmod_val]

instance : ScalarEncoding Residue := ⟨toBytes, read, fun bs => (bs.toNat : Residue)⟩
instance : PointEncoding Residue := ⟨toBytes, read, fun bs => (bs.toNat : Residue)⟩
instance : ScalarHash Residue := ⟨fun tag data => ((tag.length + data.toNat : ℕ) : Residue)⟩
instance : PointHash Residue := ⟨fun tag data => ((tag.length + data.toNat : ℕ) : Residue)⟩
instance : BasePoint Residue := ⟨1⟩
instance : MultiScalar Residue Residue := ⟨dot⟩

instance : LawfulMultiScalar Residue Residue := ⟨fun _ _ _ => rfl⟩

instance : LawfulPointEncoding Residue := ⟨fun _ => Bytes.length_ofNat _ _, read_toBytes⟩

instance : LawfulScalarEncoding Residue where
  length_encode _ := Bytes.length_ofNat _ _
  decode_encode := read_toBytes
  exists_ofBytes r := by
    have hlt : r.val < 65537 := ZMod.val_lt r
    refine ⟨Bytes.ofNat 64 r.val, Bytes.length_ofNat _ _, ?_⟩
    have hval : (Bytes.ofNat 64 r.val).toNat = r.val := by
      rw [Bytes.toNat_ofNat]
      exact Nat.mod_eq_of_lt (hlt.trans (by decide))
    change ((Bytes.ofNat 64 r.val).toNat : Residue) = r
    rw [hval, ZMod.natCast_zmod_val]

/-- A transcript whose draws count the operations before them. -/
abbrev Transcript : Type := History fun operations => [UInt8.ofNat operations.length]

/-- The transcript before a proof. -/
def start : Residue.Transcript := Transcript.start "residues"

/-- A byte stream for every key: the bytes that count on from the sum of the key. -/
def stream (key : Bytes) (count : ℕ) : Bytes :=
  (List.range count).map fun i => key.sum + UInt8.ofNat i

/-- A table of generators from these streams. -/
def table (capacity parties : ℕ) : Generators Residue := .build stream capacity parties

/-- A commitment key. -/
def key : CommitmentKey Residue := ⟨3, 5⟩

/-- Random bytes with a short period. -/
def source : RandomSource := .cycle [1, 2, 3, 4, 5, 6, 7, 11, 13]

end Residue
end ConfidentialTx
