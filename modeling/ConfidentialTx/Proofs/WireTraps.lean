import ConfidentialTx.Proofs.Canonical
import ConfidentialTx.Proofs.Traps

/-! # Reading proofs does not trap

Readers take parts of a byte string at positions that they compute.  They check its length before, so that
every part is there.  With the canonical forms of `Canonical.lean` this says what reading does to every byte
string.

* `readPair_eq`, `readBlock_eq`: the parts that the readers take.
* `InnerProductProof.ofBytesTrapping_eq`, `RangeProof.ofBytesTrapping_eq`: no byte string makes a reader
  trap.
* `RangeProof.wire_bijective`: what is read, what is refused, and that both ways round give the same. -/

namespace ConfidentialTx

open Trapping

namespace Trapping
variable {α β : Type}

/-- An answer or none, without a trap. -/
def total (x : Option α) : OptionT (Except Trap) α := OptionT.mk (.ok x)

theorem total_bind (x : Option α) (f : α → Option β) : total (x >>= f) = total x >>= fun a => total (f a) := by
  cases x <;> rfl

theorem lift_ok (a : α) : (OptionT.lift (.ok a) : OptionT (Except Trap) α) = total (some a) := rfl

theorem total_some_bind (a : α) (f : α → OptionT (Except Trap) β) : (total (some a) >>= f) = f a := rfl

theorem total_bind_eq_none {x : Option α} {f : α → OptionT (Except Trap) β} (h : ∀ a, f a = total none) :
    (total x >>= f) = total none := by
  cases x with
  | none => rfl
  | some a => exact h a

theorem mapM_eq_total {f : α → OptionT (Except Trap) β} {g : α → Option β} {xs : List α}
    (h : ∀ x ∈ xs, f x = total (g x)) : xs.mapM f = total (xs.mapM g) := by
  induction xs with
  | nil => rfl
  | cons x xs ih =>
    obtain ⟨hx, hxs⟩ := List.forall_mem_cons.mp h
    rw [List.mapM_cons, List.mapM_cons, hx, ih hxs, total_bind]
    refine bind_congr fun y => ?_
    rw [total_bind]
    rfl

/-- A reader that answers or finds a wrong format. -/
def formatted (x : OptionT (Except Trap) α) : Except Trap (Except RangeProofError α) :=
  x.run.map fun a => a.elim (.error .formatError) .ok

end Trapping

/-! ### Parts of a byte string -/

section Parts
variable {α : Type} (decode : Bytes → Option α) {bs : Bytes}

/-- A part of a byte string, decoded. -/
def readPart (bs : Bytes) (start stop : ℕ) : OptionT (Except Trap) α :=
  OptionT.lift (part bs start stop) >>= fun block => total (decode block)

/-- Block `i` of thirty-two bytes, decoded. -/
def readBlock (bs : Bytes) (i : ℕ) : OptionT (Except Trap) α := do
  let start ← OptionT.lift (mul i 32)
  let next ← OptionT.lift (add i 1)
  let stop ← OptionT.lift (mul next 32)
  readPart decode bs start stop

/-- Pair `i` of blocks, decoded. -/
def readPair (bs : Bytes) (i : ℕ) : OptionT (Except Trap) (α × α) := do
  let twice ← OptionT.lift (mul 2 i)
  let start ← OptionT.lift (mul twice 32)
  let middle ← OptionT.lift (add start 32)
  let a ← readPart decode bs start middle
  let stop ← OptionT.lift (add start 64)
  let b ← readPart decode bs middle stop
  pure (a, b)

/-- The two blocks of thirty-two bytes from `64 i` on. -/
def pairAt (bs : Bytes) (i : ℕ) : Option (α × α) := do
  let a ← decode (Bytes.slice bs (64 * i) 32)
  let b ← decode (Bytes.slice bs (64 * i + 32) 32)
  pure (a, b)

theorem readPart_eq {start stop : ℕ} (hwidth : stop = start + 32) (hstop : stop ≤ bs.length) :
    readPart decode bs start stop = total (decode (Bytes.slice bs start 32)) := by
  subst hwidth
  have hslice : (bs.take (start + 32)).drop start = Bytes.slice bs start 32 := by
    rw [List.drop_take, Nat.add_sub_cancel_left, Bytes.slice]
  rw [readPart, part_eq (Nat.le_add_right _ _) hstop, hslice]
  rfl

theorem readBlock_eq {i : ℕ} (hi : i < 2 ^ 57) (hstop : 32 * i + 32 ≤ bs.length) :
    readBlock decode bs i = total (decode (Bytes.slice bs (32 * i) 32)) := by
  have hstart : mul i 32 = .ok (32 * i) := by rw [mul_eq (by omega), Nat.mul_comm]
  have hnext : add i 1 = .ok (i + 1) := add_eq (by omega)
  have hend : mul (i + 1) 32 = .ok (32 * i + 32) := by rw [mul_eq (by omega), Nat.add_mul, Nat.mul_comm]
  simp only [readBlock, hstart, hnext, hend, lift_ok, total_some_bind]
  exact readPart_eq decode rfl hstop

theorem readPair_eq {i : ℕ} (hi : i < 2 ^ 57) (hstop : 64 * i + 64 ≤ bs.length) :
    readPair decode bs i = total (pairAt decode bs i) := by
  have htwice : mul 2 i = .ok (2 * i) := mul_eq (by omega)
  have hstart : mul (2 * i) 32 = .ok (64 * i) := by
    rw [mul_eq (by omega)]
    exact congrArg Except.ok (by omega)
  have hmiddle : add (64 * i) 32 = .ok (64 * i + 32) := add_eq (by omega)
  have hend : add (64 * i) 64 = .ok (64 * i + 64) := add_eq (by omega)
  simp only [readPair, htwice, hstart, hmiddle, hend, lift_ok, total_some_bind, pairAt, total_bind,
    readPart_eq decode (rfl : 64 * i + 32 = 64 * i + 32) (by omega : 64 * i + 32 ≤ bs.length),
    readPart_eq decode (rfl : 64 * i + 64 = 64 * i + 32 + 32) hstop]
  rfl

theorem pairAt_drop (bs : Bytes) (i : ℕ) : pairAt decode (bs.drop 64) i = pairAt decode bs (i + 1) := by
  have hslice : ∀ offset, Bytes.slice (bs.drop 64) offset 32 = Bytes.slice bs (offset + 64) 32 := by
    intro offset
    rw [Bytes.slice, Bytes.slice, List.drop_drop, Nat.add_comm]
  rw [pairAt, pairAt, hslice, hslice, Nat.mul_succ, Nat.add_right_comm]

end Parts

/-! ### Proofs -/

variable {F P : Type} [ScalarEncoding F] [PointEncoding P]

namespace InnerProductProof

/-- Reads a proof with fewer than thirty-two rounds. -/
def ofBytesTrapping (bs : Bytes) : OptionT (Except Trap) (InnerProductProof F P) := do
  if bs.length % 32 ≠ 0 then failure
  let count := bs.length / 32
  if count < 2 then failure
  let rest ← OptionT.lift (sub count 2)
  if rest % 2 ≠ 0 then failure
  let rounds := rest / 2
  if 32 ≤ rounds then failure
  let points ← (List.range rounds).mapM (readPair PointEncoding.decode bs)
  let (a, b) ← readPair ScalarEncoding.decode bs rounds
  pure ⟨points.map (·.1), points.map (·.2), a, b⟩

theorem ofBlocks_eq (k : ℕ) (bs : Bytes) :
    (ofBlocks k (Bytes.blocks 32 (2 * k + 2) bs) : Option (InnerProductProof F P)) = (do
      let points ← (List.range k).mapM (pairAt PointEncoding.decode bs)
      let (a, b) ← pairAt ScalarEncoding.decode bs k
      pure ⟨points.map (·.1), points.map (·.2), a, b⟩) := by
  induction k generalizing bs with
  | zero =>
    simp [ofBlocks, Bytes.blocks, pairAt, Bytes.slice, Option.bind_assoc]
  | succ k ih =>
    have hblocks : Bytes.blocks 32 (2 * (k + 1) + 2) bs =
        Bytes.slice bs (64 * 0) 32 :: Bytes.slice bs (64 * 0 + 32) 32 ::
          Bytes.blocks 32 (2 * k + 2) (bs.drop 64) := by
      have hcount : 2 * (k + 1) + 2 = 2 * k + 2 + 1 + 1 := by omega
      rw [hcount, Bytes.blocks, Bytes.blocks, List.drop_drop]
      rfl
    have htail : ((List.range k).map Nat.succ).mapM (pairAt (PointEncoding.decode (P := P)) bs) =
        (List.range k).mapM (pairAt PointEncoding.decode (bs.drop 64)) := by
      rw [List.mapM_map]
      exact congrArg (fun f => (List.range k).mapM f) (funext fun i => (pairAt_drop _ bs i).symm)
    rw [hblocks, ofBlocks, ih, List.range_succ_eq_map, List.mapM_cons, htail, pairAt_drop]
    simp only [pairAt, bind_assoc, pure_bind]
    rfl

theorem ofBytesTrapping_eq (bs : Bytes) :
    (ofBytesTrapping bs : OptionT (Except Trap) (InnerProductProof F P)) = total (ofBytes bs).toOption := by
  simp only [ofBytesTrapping, ofBytes_eq]
  by_cases hwhole : bs.length % 32 ≠ 0
  · rw [if_pos hwhole, if_pos (Or.inl hwhole)]
    rfl
  rw [if_neg hwhole]
  by_cases hcount : bs.length / 32 < 2
  · rw [if_pos hcount, if_pos (Or.inr (Or.inl hcount))]
    rfl
  rw [if_neg hcount, sub_eq (Nat.le_of_not_lt hcount), lift_ok, total_some_bind]
  by_cases heven : (bs.length / 32 - 2) % 2 ≠ 0
  · rw [if_pos heven, if_pos (Or.inr (Or.inr (Or.inl heven)))]
    rfl
  rw [if_neg heven]
  by_cases hmany : 32 ≤ (bs.length / 32 - 2) / 2
  · rw [if_pos hmany, if_pos (Or.inr (Or.inr (Or.inr hmany)))]
    rfl
  have hgood : ¬(bs.length % 32 ≠ 0 ∨ bs.length / 32 < 2 ∨ (bs.length / 32 - 2) % 2 ≠ 0 ∨
      32 ≤ (bs.length / 32 - 2) / 2) := by
    rintro (h | h | h | h)
    exacts [hwhole h, hcount h, heven h, hmany h]
  rw [if_neg hmany, if_neg hgood]
  -- what is left is read pair by pair, all pairs within the bytes
  obtain ⟨rounds, hrounds⟩ : ∃ rounds, bs.length / 32 = 2 * rounds + 2 :=
    ⟨(bs.length / 32 - 2) / 2, by omega⟩
  have hhalf : (bs.length / 32 - 2) / 2 = rounds := by omega
  have hpair : ∀ {α : Type} (decode : Bytes → Option α), ∀ i ≤ rounds,
      readPair decode bs i = total (pairAt decode bs i) := fun decode i hi =>
    readPair_eq decode (by omega) (by omega)
  rw [hhalf, hrounds, ofBlocks_eq, mapM_eq_total fun i hi => hpair _ i (List.mem_range.mp hi).le,
    hpair _ rounds le_rfl]
  rcases (List.range rounds).mapM (pairAt PointEncoding.decode bs) with _ | points
  · rfl
  · rcases pairAt ScalarEncoding.decode bs rounds with _ | ⟨a, b⟩ <;> rfl

end InnerProductProof

namespace RangeProof

/-- Reads a range proof. -/
def ofBytesTrapping (bs : Bytes) : OptionT (Except Trap) (RangeProof F P) := do
  if bs.length % 32 ≠ 0 ∨ bs.length < 7 * 32 then failure
  let A ← readBlock PointEncoding.decode bs 0
  let S ← readBlock PointEncoding.decode bs 1
  let T₁ ← readBlock PointEncoding.decode bs 2
  let T₂ ← readBlock PointEncoding.decode bs 3
  let tx ← readBlock ScalarEncoding.decode bs 4
  let txBlinding ← readBlock ScalarEncoding.decode bs 5
  let eBlinding ← readBlock ScalarEncoding.decode bs 6
  let rest ← OptionT.lift (part bs (7 * 32) bs.length)
  let inner ← InnerProductProof.ofBytesTrapping rest
  pure ⟨A, S, T₁, T₂, tx, txBlinding, eBlinding, inner⟩

/-- No byte string makes the reader of range proofs trap. -/
theorem ofBytesTrapping_eq (bs : Bytes) :
    formatted (ofBytesTrapping bs) = .ok (ofBytes bs : Except RangeProofError (RangeProof F P)) := by
  simp only [ofBytesTrapping, ofBytes]
  by_cases hshort : bs.length % 32 ≠ 0 ∨ bs.length < 7 * 32
  · rw [if_pos hshort, if_pos hshort]
    rfl
  rw [if_neg hshort, if_neg hshort]
  have hlong : 7 * 32 ≤ bs.length := Nat.le_of_not_lt fun h => hshort (.inr h)
  have hblock : ∀ {α : Type} (decode : Bytes → Option α), ∀ i < 7,
      readBlock decode bs i = total (decode (block bs i)) := fun decode i hi =>
    readBlock_eq decode (by omega) (by omega)
  have hrest : part bs (7 * 32) bs.length = .ok (bs.drop (7 * 32)) := by
    rw [part_eq hlong le_rfl, List.take_length]
  simp only [hblock _ 0 (by decide), hblock _ 1 (by decide), hblock _ 2 (by decide), hblock _ 3 (by decide),
    hblock _ 4 (by decide), hblock _ 5 (by decide), hblock _ 6 (by decide), hrest, lift_ok, total_some_bind,
    InnerProductProof.ofBytesTrapping_eq]
  rcases hinner : (InnerProductProof.ofBytes (bs.drop (7 * 32)) :
    Except RangeProofError (InnerProductProof F P)) with e | inner
  · obtain rfl := InnerProductProof.ofBytes_eq_error hinner
    refine congrArg formatted (?_ : _ = total none)
    exact total_bind_eq_none fun _ => total_bind_eq_none fun _ => total_bind_eq_none fun _ =>
      total_bind_eq_none fun _ => total_bind_eq_none fun _ => total_bind_eq_none fun _ =>
        total_bind_eq_none fun _ => rfl
  · refine congrArg formatted (?_ : _ = total (ofHeader bs inner))
    simp only [ofHeader, total_bind]
    rfl

variable [CanonicalScalarEncoding F] [CanonicalPointEncoding P]

/-- **The wire form.**  The reader, which takes its blocks at computed positions, does not trap on any byte
string.  A byte string is read exactly when it has the form of `k` rounds for some `k` below thirty-two, and
is refused as malformed otherwise.  Written again, what was read is the same byte string, of the size that
the proof tells.  A proof with as many left as right points, fewer than thirty-two, is read back.  So no
proof is read from two byte strings. -/
theorem wire_bijective :
    (∀ bs : Bytes,
      formatted (ofBytesTrapping bs) = .ok (ofBytes bs : Except RangeProofError (RangeProof F P)) ∧
      ((∃ proof : RangeProof F P, ofBytes bs = .ok proof) ↔ ∃ k < 32, HasForm F P k bs) ∧
      ((¬∃ k < 32, HasForm F P k bs) →
        (ofBytes bs : Except RangeProofError (RangeProof F P)) = .error .formatError) ∧
      ∀ proof : RangeProof F P, ofBytes bs = .ok proof →
        proof.toBytes = bs ∧ proof.serializedSize = bs.length) ∧
    (∀ proof : RangeProof F P, proof.inner.L.length = proof.inner.R.length →
      proof.inner.R.length < 32 → ofBytes proof.toBytes = .ok proof) ∧
    ∀ (bs bs' : Bytes) (proof : RangeProof F P),
      ofBytes bs = .ok proof → ofBytes bs' = .ok proof → bs = bs' := by
  refine ⟨fun bs => ⟨ofBytesTrapping_eq bs, exists_ofBytes_iff, ?_, ?_⟩, ?_, ?_⟩
  · intro hform
    cases hread : (ofBytes bs : Except RangeProofError (RangeProof F P)) with
    | error e => rw [ofBytes_eq_error hread]
    | ok proof => exact absurd (exists_ofBytes_iff.mp ⟨proof, hread⟩) hform
  · intro proof h
    obtain ⟨rfl, -, hR⟩ := ofBytes_eq_ok_iff.mp h
    refine ⟨rfl, ?_⟩
    rw [length_toBytes rfl hR, serializedSize, InnerProductProof.serializedSize]
    ring
  · intro proof hlengths hlt
    exact ofBytes_toBytes (hlengths.trans_lt hlt) hlengths.symm
  · intro bs bs' proof h h'
    exact (ofBytes_eq_ok_iff.mp h).1.trans (ofBytes_eq_ok_iff.mp h').1.symm

end RangeProof

/-! ### Residues -/

theorem Residue.toBytes_of_read {bs : Bytes} {r : Residue} (h : Residue.read bs = some r) :
    r.toBytes = bs := by
  unfold read at h
  split at h
  · next hread =>
    obtain rfl := Option.some.inj h
    rw [toBytes, ZMod.val_natCast, Nat.mod_eq_of_lt hread.2]
    exact hread.1 ▸ Bytes.ofNat_toNat bs
  · cases h

instance : CanonicalScalarEncoding Residue := ⟨Residue.toBytes_of_read⟩
instance : CanonicalPointEncoding Residue := ⟨Residue.toBytes_of_read⟩

/-- A proof with one round. -/
def RangeProof.oneRound : RangeProof Residue Residue :=
  ⟨1, 2, 3, 4, 5, 6, 7, ⟨[8], [9], 10, 11⟩⟩

/-- The proof is read back from its eleven blocks.  Six of them alone are refused without a trap; so are one
byte more and one number that is not reduced. -/
theorem RangeProof.wire_bijective_one_round :
    ofBytes oneRound.toBytes = .ok oneRound ∧ oneRound.serializedSize = oneRound.toBytes.length ∧
    formatted (ofBytesTrapping (oneRound.toBytes.take 192)) =
      .ok (.error .formatError : Except RangeProofError (RangeProof Residue Residue)) ∧
    (ofBytes (oneRound.toBytes ++ [0]) : Except RangeProofError (RangeProof Residue Residue)) =
      .error .formatError ∧
    (ofBytes (List.replicate 352 255) : Except RangeProofError (RangeProof Residue Residue)) =
      .error .formatError := by
  obtain ⟨hread, hback, -⟩ := wire_bijective (F := Residue) (P := Residue)
  have hok := hback oneRound rfl (by decide)
  have hsize : oneRound.toBytes.length = 352 := length_toBytes (k := 1) rfl rfl
  refine ⟨hok, ((hread _).2.2.2 oneRound hok).2, ?_, (hread _).2.2.1 ?_, (hread _).2.2.1 ?_⟩
  · rw [(hread _).1, (hread _).2.2.1]
    rintro ⟨k, -, h⟩
    have hlength := h.length_eq
    rw [List.length_take] at hlength
    omega
  · rintro ⟨k, -, h⟩
    have hlength := h.length_eq
    rw [List.length_append, hsize, List.length_singleton] at hlength
    omega
  · rintro ⟨k, -, h⟩
    obtain ⟨A, hA⟩ := h.points 0 (by omega)
    have hdecode : (Residue.read (block (List.replicate 352 255) 0)).isSome = true :=
      hA ▸ Option.isSome_iff_exists.mpr ⟨A, Residue.read_toBytes A⟩
    exact absurd hdecode (by decide +kernel)

end ConfidentialTx
