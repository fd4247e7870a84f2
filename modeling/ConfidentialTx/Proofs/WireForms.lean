import ConfidentialTx.Proofs.Digest
import ConfidentialTx.Proofs.Wire

/-! # Self-delimiting wire forms

The codecs of `Codec.lean` put a value into bytes from which it is read back whatever follows, and no
strict front of which is read.  Counts are words, so this holds of the values whose lists are shorter than
a word can count, which all lists in a memory are.

Two properties are kept by every way to build a codec:

* `Codec.ReadsBackAt`: a value is read back, whatever follows it.
* `Codec.IsLocal`: a reader looks at nothing behind what it reads.  A front that is read would then leave
  the missing bytes over (`Codec.decode_front`).

From them follows what is wanted of a wire form:

* `Codec.IsSelfDelimiting`: values are read whatever follows, and no strict front of one is read.
* `Codec.wireForms_selfDelimiting`: the codecs of ring members, ring signatures, amounts, outputs, bodies,
  transaction signatures and transactions. -/

namespace ConfidentialTx

/-! ### Words -/

namespace Bytes

/-- A byte behind a word is its lowest digit. -/
theorem shiftLeft_or_eq (n : ℕ) (b : UInt8) :
    UInt64.ofNat n <<< 8 ||| b.toUInt64 = UInt64.ofNat (b.toNat + 256 * n) := by
  have hb : b.toNat < 2 ^ 8 := b.toNat_lt
  have hshift : n % 2 ^ 64 * 2 ^ 8 % 2 ^ 64 = (n % 2 ^ 56) <<< 8 := by
    rw [Nat.shiftLeft_eq]
    omega
  have hsum : (n % 2 ^ 56) <<< 8 + b.toNat = (b.toNat + 256 * n) % 2 ^ 64 := by
    rw [Nat.shiftLeft_eq]
    omega
  apply UInt64.toNat_inj.mp
  rw [UInt64.toNat_or, UInt64.toNat_shiftLeft, UInt8.toNat_toUInt64, UInt64.toNat_ofNat',
    UInt64.toNat_ofNat']
  change (n % 2 ^ 64) <<< 8 % 2 ^ 64 ||| b.toNat = _
  rw [Nat.shiftLeft_eq, hshift, ← Nat.shiftLeft_add_eq_or_of_lt hb, hsum]

theorem toWord_eq (bs : Bytes) : toWord bs = UInt64.ofNat (toNat (bs.take 8)) := by
  unfold toWord
  generalize bs.take 8 = front
  induction front with
  | nil => rfl
  | cons b bs ih => rw [List.foldr_cons, ih, shiftLeft_or_eq, toNat]

theorem toWord_ofWord (w : UInt64) : toWord (ofWord w) = w := by
  have hsize : 1 <<< (8 * 8) = 2 ^ 64 := by decide
  have htake : (ofWord w).take 8 = ofWord w := List.take_of_length_le (length_ofWord w).le
  rw [toWord_eq, htake, ofWord_eq, toNat_ofNat, hsize, Nat.mod_eq_of_lt w.toNat_lt, UInt64.ofNat_toNat]

end Bytes

/-! ### Codecs -/

namespace Codec
variable {α β : Type} {c : Codec α} {d : Codec β}

/-- Whether a value is read back, whatever follows it. -/
def ReadsBackAt (c : Codec α) (a : α) : Prop :=
  ∀ rest : Bytes, c.decode (c.encode a ++ rest) = some (a, rest)

/-- Whether a reader looks at nothing behind what it reads. -/
def IsLocal (c : Codec α) : Prop :=
  ∀ ⦃bs : Bytes⦄ ⦃a : α⦄ ⦃rest : Bytes⦄, c.decode bs = some (a, rest) →
    ∀ more, c.decode (bs ++ more) = some (a, rest ++ more)

theorem decode_front (hlocal : c.IsLocal) {a : α} (hback : c.ReadsBackAt a) {front : Bytes}
    (hfront : front <+: c.encode a) (hne : front ≠ c.encode a) : c.decode front = none := by
  obtain ⟨missing, hmissing⟩ := hfront
  cases hread : c.decode front with
  | none => rfl
  | some answer =>
    obtain ⟨b, rest⟩ := answer
    have hmore := hlocal hread missing
    have hall := hback []
    rw [List.append_nil, ← hmissing, hmore] at hall
    obtain ⟨-, hrest⟩ := Prod.mk.inj (Option.some.inj hall)
    have hnil := (List.append_eq_nil_iff.mp hrest).2
    rw [hnil, List.append_nil] at hmissing
    exact absurd hmissing hne

/-! #### Parts of a fixed width -/

section Fixed
variable {width : ℕ} {encode : α → Bytes} {decode : Bytes → Option α}

theorem readsBackAt_fixed {a : α} (hlength : (encode a).length = width)
    (hback : decode (encode a) = some a) : (fixed width encode decode).ReadsBackAt a := by
  intro rest
  simp [fixed, List.take_left' hlength, List.drop_left' hlength, hlength, hback]

theorem isLocal_fixed (width : ℕ) (encode : α → Bytes) (decode : Bytes → Option α) :
    (fixed width encode decode).IsLocal := by
  intro bs a rest h more
  change (if (bs.take width).length < width then none
    else (decode (bs.take width)).map fun a => (a, bs.drop width)) = _ at h
  split at h
  · cases h
  · next hlength =>
    have hle : width ≤ bs.length := by
      rw [List.length_take] at hlength
      omega
    obtain ⟨a', ha, h⟩ := Option.map_eq_some_iff.mp h
    cases h
    change (if ((bs ++ more).take width).length < width then none
      else (decode ((bs ++ more).take width)).map fun a => (a, (bs ++ more).drop width)) = _
    rw [List.take_append_of_le_length hle, List.drop_append_of_le_length hle, if_neg hlength, ha]
    rfl

end Fixed

theorem readsBackAt_word (w : UInt64) : word.ReadsBackAt w :=
  readsBackAt_fixed (Bytes.length_ofWord w) (congrArg some (Bytes.toWord_ofWord w))

/-! #### Codecs of codecs -/

theorem ReadsBackAt.both {a : α} {b : β} (ha : c.ReadsBackAt a) (hb : d.ReadsBackAt b) :
    (c.both d).ReadsBackAt (a, b) := by
  intro rest
  change (c.both d).decode (c.encode a ++ d.encode b ++ rest) = _
  rw [List.append_assoc]
  simp [Codec.both, ha (d.encode b ++ rest), hb rest]

theorem IsLocal.both (hc : c.IsLocal) (hd : d.IsLocal) : (c.both d).IsLocal := by
  rintro bs ⟨a, b⟩ rest h more
  obtain ⟨⟨a', bs₁⟩, ha, h⟩ := Option.bind_eq_some_iff.mp h
  obtain ⟨⟨b', bs₂⟩, hb, h⟩ := Option.bind_eq_some_iff.mp h
  cases h
  simp [Codec.both, hc ha more, hd hb more]

theorem ReadsBackAt.iso {make : α → β} {parts : β → α} {b : β} (hb : c.ReadsBackAt (parts b))
    (hmake : make (parts b) = b) : (c.iso make parts).ReadsBackAt b := by
  intro rest
  simp only [Codec.iso, hb rest, Option.map_some, hmake]

theorem IsLocal.iso (hc : c.IsLocal) (make : α → β) (parts : β → α) : (c.iso make parts).IsLocal := by
  intro bs b rest h more
  obtain ⟨⟨a, bs'⟩, ha, h⟩ := Option.map_eq_some_iff.mp h
  cases h
  simp only [Codec.iso, hc ha more, Option.map_some]

theorem readsBackAt_count {n : ℕ} (h : n < 2 ^ 64) : count.ReadsBackAt n :=
  (readsBackAt_word n.toUInt64).iso (UInt64.toNat_ofNat_of_lt' h)

theorem isLocal_count : count.IsLocal := (isLocal_fixed _ _ _).iso _ _

/-! #### Lists -/

theorem decodeMany_flatMap {as : List α} (has : ∀ a ∈ as, c.ReadsBackAt a) (rest : Bytes) :
    c.decodeMany as.length (as.flatMap c.encode ++ rest) = some (as, rest) := by
  induction as with
  | nil => rfl
  | cons a as ih =>
    obtain ⟨ha, has⟩ := List.forall_mem_cons.mp has
    rw [List.length_cons, List.flatMap_cons, List.append_assoc]
    simp [decodeMany, ha _, ih has]

theorem decodeMany_append (hc : c.IsLocal) {n : ℕ} {bs rest : Bytes} {as : List α}
    (h : c.decodeMany n bs = some (as, rest)) (more : Bytes) :
    c.decodeMany n (bs ++ more) = some (as, rest ++ more) := by
  induction n generalizing bs as with
  | zero =>
    cases h
    rfl
  | succ n ih =>
    obtain ⟨⟨a, bs₁⟩, ha, h⟩ := Option.bind_eq_some_iff.mp h
    obtain ⟨⟨as', bs₂⟩, has, h⟩ := Option.bind_eq_some_iff.mp h
    cases h
    simp [decodeMany, hc ha more, ih has]

/-- Whether a list is shorter than a word can count, and its members meet a condition. -/
def IsCounted (p : α → Prop) (as : List α) : Prop := as.length < 2 ^ 64 ∧ ∀ a ∈ as, p a

theorem isCounted_of_length {as : List α} (h : as.length < 2 ^ 64) : IsCounted (fun _ => True) as :=
  ⟨h, fun _ _ => trivial⟩

theorem ReadsBackAt.list {p : α → Prop} (hc : ∀ a, p a → c.ReadsBackAt a) {as : List α}
    (has : IsCounted p as) : c.list.ReadsBackAt as := by
  intro rest
  change c.list.decode (count.encode as.length ++ as.flatMap c.encode ++ rest) = _
  rw [List.append_assoc]
  simp [Codec.list, readsBackAt_count has.1 _, decodeMany_flatMap fun a ha => hc a (has.2 a ha)]

theorem IsLocal.list (hc : c.IsLocal) : c.list.IsLocal := by
  intro bs as rest h more
  obtain ⟨⟨n, bs'⟩, hn, h⟩ := Option.bind_eq_some_iff.mp h
  simp [Codec.list, isLocal_count hn more, decodeMany_append hc h more]

/-! #### Texts -/

theorem readsBackAt_hexText {bs : Bytes} (h : 2 * bs.length < 2 ^ 64) : hexText.ReadsBackAt bs := by
  intro rest
  have hlength : (Hex.encode bs).length = 2 * bs.length := Hex.length_encode bs
  change hexText.decode (count.encode (2 * bs.length) ++ Hex.encode bs ++ rest) = _
  rw [List.append_assoc]
  simp [hexText, readsBackAt_count h _, List.take_left' hlength, List.drop_left' hlength,
    Hex.decode_encode]

theorem isLocal_hexText : hexText.IsLocal := by
  intro bs data rest h more
  obtain ⟨⟨n, bs'⟩, hn, h⟩ := Option.bind_eq_some_iff.mp h
  dsimp only at h
  split at h
  · cases h
  · next hlength =>
    have hle : n ≤ bs'.length := Nat.le_of_not_lt hlength
    have hle' : ¬(bs' ++ more).length < n := by
      rw [List.length_append]
      omega
    split at h
    · next data' hdata =>
      cases h
      simp only [hexText, isLocal_count hn more, Option.bind_eq_bind, Option.bind_some]
      rw [if_neg hle', List.take_append_of_le_length hle, List.drop_append_of_le_length hle, hdata]
    · cases h

/-! #### Values that delimit themselves -/

/-- Whether the values that meet a condition are read whatever follows them, while no strict front of
theirs is read; and no two of them begin with one another. -/
structure IsSelfDelimiting (c : Codec α) (p : α → Prop) : Prop where
  read_append : ∀ a, p a → ∀ suffix, c.read (c.encode a ++ suffix) = some a
  read_front : ∀ a, p a → ∀ front, front <+: c.encode a → front ≠ c.encode a → c.read front = none
  eq_of_prefix : ∀ a b, p a → p b → c.encode a <+: c.encode b → a = b

theorem IsSelfDelimiting.of_local {p : α → Prop} (hlocal : c.IsLocal)
    (hback : ∀ a, p a → c.ReadsBackAt a) : c.IsSelfDelimiting p := by
  have happend : ∀ a, p a → ∀ suffix, c.read (c.encode a ++ suffix) = some a := by
    intro a ha suffix
    rw [read, hback a ha suffix, Option.map_some]
  have hfront : ∀ a, p a → ∀ front, front <+: c.encode a → front ≠ c.encode a →
      c.read front = none := by
    intro a ha front hfront hne
    rw [read, decode_front hlocal (hback a ha) hfront hne, Option.map_none]
  refine ⟨happend, hfront, fun a b ha hb hprefix => ?_⟩
  have hread : ∀ a, p a → c.read (c.encode a) = some a := by
    intro a ha
    rw [← List.append_nil (c.encode a)]
    exact happend a ha []
  have heq : c.encode a = c.encode b := by
    by_contra hne
    cases (hread a ha).symm.trans (hfront b hb _ hprefix hne)
  exact Option.some.inj ((hread a ha).symm.trans (heq ▸ hread b hb))

/-! ### Points and scalars -/

section Encodings
variable {F P : Type}

theorem readsBackAt_scalar [ScalarEncoding F] [LosslessScalarEncoding F] (s : F) :
    scalar.ReadsBackAt s :=
  readsBackAt_fixed (LosslessScalarEncoding.length_encode s) (LosslessScalarEncoding.decode_encode s)

theorem readsBackAt_point [PointEncoding P] [LawfulPointEncoding P] (p : P) : point.ReadsBackAt p :=
  readsBackAt_fixed (LawfulPointEncoding.length_encode p) (LawfulPointEncoding.decode_encode p)

theorem isLocal_scalar [ScalarEncoding F] : (scalar : Codec F).IsLocal := isLocal_fixed _ _ _

theorem isLocal_point [PointEncoding P] : (point : Codec P).IsLocal := isLocal_fixed _ _ _

end Encodings
end Codec

/-! ### The parts of a transaction -/

section Parts
variable {F P : Type}

/-- Whether the number of responses is a word. -/
def RingSignature.HasWordCounts (signature : RingSignature F P) : Prop :=
  signature.responses.length < 2 ^ 64

/-- Whether the number of digits of the hint is a word. -/
def Output.HasWordCounts (output : Output P) : Prop := 2 * output.hint.length < 2 ^ 64

/-- Whether the numbers of rings, members and outputs, and those of the digits of all hints, are words. -/
def TxBody.HasWordCounts (body : TxBody P) : Prop :=
  Codec.IsCounted (Codec.IsCounted Output.HasWordCounts) body.inputs ∧
    Codec.IsCounted Output.HasWordCounts body.outputs

/-- Whether the numbers of the digits of the range proof, of pseudo-outputs, ring signatures and
responses are words. -/
def TxSignature.HasWordCounts (signature : TxSignature F P) : Prop :=
  2 * signature.rangeProof.length < 2 ^ 64 ∧ signature.pseudoOutputs.length < 2 ^ 64 ∧
    Codec.IsCounted RingSignature.HasWordCounts signature.ringSignatures

/-- Whether all counts of a transaction are words. -/
def Tx.HasWordCounts (tx : Tx F P) : Prop := tx.body.HasWordCounts ∧ tx.signature.HasWordCounts

variable [ScalarEncoding F] [PointEncoding P]

section Local

theorem RingMember.isLocal_codec : (codec : Codec (RingMember P)).IsLocal :=
  (Codec.isLocal_point.both (Codec.isLocal_point.both Codec.isLocal_point)).iso _ _

theorem RingSignature.isLocal_codec : (codec : Codec (RingSignature F P)).IsLocal :=
  (Codec.isLocal_scalar.both (Codec.isLocal_scalar.list.both Codec.isLocal_point)).iso _ _

theorem MaskedAmount.isLocal_codec : (codec : Codec (MaskedAmount P)).IsLocal :=
  (Codec.isLocal_point.both (Codec.isLocal_fixed _ _ _)).iso _ _

theorem Output.isLocal_codec : (codec : Codec (Output P)).IsLocal :=
  (MaskedAmount.isLocal_codec.both
    (Codec.isLocal_point.both (Codec.isLocal_point.both Codec.isLocal_hexText))).iso _ _

theorem TxBody.isLocal_codec : (codec : Codec (TxBody P)).IsLocal :=
  (Output.isLocal_codec.list.list.both (Output.isLocal_codec.list.both
    ((Codec.isLocal_fixed _ _ _).both (Codec.isLocal_fixed _ _ _)))).iso _ _

theorem TxSignature.isLocal_codec : (codec : Codec (TxSignature F P)).IsLocal :=
  (Codec.isLocal_hexText.both
    (Codec.isLocal_point.list.both RingSignature.isLocal_codec.list)).iso _ _

theorem Tx.isLocal_codec : (codec : Codec (Tx F P)).IsLocal :=
  (TxBody.isLocal_codec.both TxSignature.isLocal_codec).iso _ _

end Local

variable [LosslessScalarEncoding F] [LawfulPointEncoding P]

theorem RingMember.readsBackAt_codec (member : RingMember P) : codec.ReadsBackAt member := by
  refine .iso ?_ rfl
  exact (Codec.readsBackAt_point _).both ((Codec.readsBackAt_point _).both (Codec.readsBackAt_point _))

theorem RingSignature.readsBackAt_codec {signature : RingSignature F P} (h : signature.HasWordCounts) :
    codec.ReadsBackAt signature := by
  have hresponses : Codec.scalar.list.ReadsBackAt signature.responses :=
    .list (fun r _ => Codec.readsBackAt_scalar r) (Codec.isCounted_of_length h)
  refine .iso ?_ rfl
  exact (Codec.readsBackAt_scalar _).both (hresponses.both (Codec.readsBackAt_point _))

theorem MaskedAmount.readsBackAt_codec (amount : MaskedAmount P) : codec.ReadsBackAt amount := by
  refine .iso ?_ rfl
  exact (Codec.readsBackAt_point _).both (Codec.readsBackAt_word _)

theorem Output.readsBackAt_codec {output : Output P} (h : output.HasWordCounts) :
    codec.ReadsBackAt output := by
  refine .iso ?_ rfl
  exact (MaskedAmount.readsBackAt_codec _).both ((Codec.readsBackAt_point _).both
    ((Codec.readsBackAt_point _).both (Codec.readsBackAt_hexText h)))

theorem TxBody.readsBackAt_codec {body : TxBody P} (h : body.HasWordCounts) :
    codec.ReadsBackAt body := by
  have houtputs : ∀ outputs : List (Output P), Codec.IsCounted Output.HasWordCounts outputs →
      Output.codec.list.ReadsBackAt outputs := fun _ => .list fun _ => Output.readsBackAt_codec
  refine .iso ?_ rfl
  exact (Codec.ReadsBackAt.list houtputs h.1).both ((houtputs _ h.2).both
    ((Codec.readsBackAt_word _).both (Codec.readsBackAt_word _)))

theorem TxSignature.readsBackAt_codec {signature : TxSignature F P} (h : signature.HasWordCounts) :
    codec.ReadsBackAt signature := by
  obtain ⟨hproof, hpoints, hsignatures⟩ := h
  have hpseudo : Codec.point.list.ReadsBackAt signature.pseudoOutputs :=
    .list (fun p _ => Codec.readsBackAt_point p) (Codec.isCounted_of_length hpoints)
  refine .iso ?_ rfl
  exact (Codec.readsBackAt_hexText hproof).both (hpseudo.both
    (.list (fun _ => RingSignature.readsBackAt_codec) hsignatures))

theorem Tx.readsBackAt_codec {tx : Tx F P} (h : tx.HasWordCounts) : codec.ReadsBackAt tx := by
  refine .iso ?_ rfl
  exact (TxBody.readsBackAt_codec h.1).both (TxSignature.readsBackAt_codec h.2)

/-- **Wire forms.**  Every ring member, ring signature, amount, output, body, transaction signature and
transaction whose counts are words is read back whatever bytes follow it, and no strict front of its bytes
is read.  No two of them have bytes of which the ones begin with the others, so two different ones have
different bytes. -/
theorem Codec.wireForms_selfDelimiting :
    (RingMember.codec : Codec (RingMember P)).IsSelfDelimiting (fun _ => True) ∧
    (RingSignature.codec : Codec (RingSignature F P)).IsSelfDelimiting RingSignature.HasWordCounts ∧
    (MaskedAmount.codec : Codec (MaskedAmount P)).IsSelfDelimiting (fun _ => True) ∧
    (Output.codec : Codec (Output P)).IsSelfDelimiting Output.HasWordCounts ∧
    (TxBody.codec : Codec (TxBody P)).IsSelfDelimiting TxBody.HasWordCounts ∧
    (TxSignature.codec : Codec (TxSignature F P)).IsSelfDelimiting TxSignature.HasWordCounts ∧
    (Tx.codec : Codec (Tx F P)).IsSelfDelimiting Tx.HasWordCounts :=
  ⟨.of_local RingMember.isLocal_codec fun member _ => member.readsBackAt_codec,
    .of_local RingSignature.isLocal_codec fun _ => RingSignature.readsBackAt_codec,
    .of_local MaskedAmount.isLocal_codec fun amount _ => amount.readsBackAt_codec,
    .of_local Output.isLocal_codec fun _ => Output.readsBackAt_codec,
    .of_local TxBody.isLocal_codec fun _ => TxBody.readsBackAt_codec,
    .of_local TxSignature.isLocal_codec fun _ => TxSignature.readsBackAt_codec,
    .of_local Tx.isLocal_codec fun _ => Tx.readsBackAt_codec⟩

end Parts

/-- A transaction with two inputs, one of them with an empty ring, and hints of different lengths. -/
def Tx.unevenInputs : Tx Residue Residue :=
  let first : Output Residue := ⟨⟨1, 2⟩, 3, 4, [5, 6]⟩
  let second : Output Residue := ⟨⟨7, 8⟩, 9, 10, []⟩
  ⟨⟨[[first, second], []], [second], 11, 12⟩, ⟨[13], [14, 15], [⟨16, [17, 18], 19⟩]⟩⟩

/-- The transaction is read with the bytes of another one behind it, and is not read without its last
byte. -/
theorem Codec.wireForms_selfDelimiting_uneven :
    Tx.unevenInputs.HasWordCounts ∧
    Tx.codec.read (Tx.codec.encode Tx.unevenInputs ++ Tx.codec.encode Tx.unevenInputs) =
      some Tx.unevenInputs ∧
    (Tx.codec.read (Tx.codec.encode Tx.unevenInputs).dropLast : Option (Tx Residue Residue)) = none := by
  have hcounts : Tx.unevenInputs.HasWordCounts := by
    simp [Tx.HasWordCounts, TxBody.HasWordCounts, TxSignature.HasWordCounts, Codec.IsCounted,
      Output.HasWordCounts, RingSignature.HasWordCounts, Tx.unevenInputs]
  obtain ⟨-, -, -, -, -, -, htx⟩ := wireForms_selfDelimiting (F := Residue) (P := Residue)
  refine ⟨hcounts, htx.read_append _ hcounts _, htx.read_front _ hcounts _ (List.dropLast_prefix _) ?_⟩
  intro heq
  have hlength := congrArg List.length heq
  rw [List.length_dropLast] at hlength
  exact absurd hlength (by decide +kernel)

end ConfidentialTx
