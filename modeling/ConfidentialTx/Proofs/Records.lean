import ConfidentialTx.Proofs.Runs
import ConfidentialTx.Transcript.Basic

/-! # Records of transcripts

A run on a transcript that only records leaves behind the operations that it made.

* `Records answer m ops`: the run `m` makes the operations `ops`, whatever is recorded before it and whatever
  it draws; kept by the ways in which runs are put together.
* `DrawsAt`: the record on which a draw is made, counted by its label.
* `append_cons_inj_of_not_mem`, `map_append_cons_inj`, `flatMap_inj`: records are read back from the
  front, by the labels of their operations. -/

namespace ConfidentialTx

/-! ### Reading lists back -/

section Lists
variable {α β : Type}

/-- Two lists that are cut at the same occurrence of an entry are cut at the same place. -/
theorem append_cons_inj_of_count [DecidableEq α] {d : α} {a a' b b' : List α}
    (h : a ++ d :: b = a' ++ d :: b') (hcount : a.count d = a'.count d) : a = a' ∧ b = b' := by
  induction a generalizing a' with
  | nil =>
    cases a' with
    | nil => exact ⟨rfl, (List.cons.inj h).2⟩
    | cons x a' =>
      obtain ⟨rfl, -⟩ := List.cons.inj h
      simp at hcount
  | cons x a ih =>
    cases a' with
    | nil =>
      obtain ⟨rfl, -⟩ := List.cons.inj h
      simp at hcount
    | cons x' a' =>
      obtain ⟨rfl, htail⟩ := List.cons.inj h
      rw [List.count_cons, List.count_cons, Nat.add_right_cancel_iff] at hcount
      obtain ⟨rfl, rfl⟩ := ih htail hcount
      exact ⟨rfl, rfl⟩

theorem append_cons_inj_of_not_mem [DecidableEq α] {d : α} {a a' b b' : List α}
    (h : a ++ d :: b = a' ++ d :: b') (ha : d ∉ a) (ha' : d ∉ a') : a = a' ∧ b = b' :=
  append_cons_inj_of_count h ((List.count_eq_zero.mpr ha).trans (List.count_eq_zero.mpr ha').symm)

/-- Entries of one kind, up to the first entry of another kind. -/
theorem map_append_cons_inj {f : α → β} (hf : Function.Injective f) {xs ys : List α} {a b : β}
    {rest rest' : List β} (ha : ∀ x, f x ≠ a) (hb : ∀ x, f x ≠ b)
    (h : xs.map f ++ a :: rest = ys.map f ++ b :: rest') : xs = ys ∧ a = b ∧ rest = rest' := by
  induction xs generalizing ys with
  | nil =>
    cases ys with
    | nil => exact ⟨rfl, List.cons.inj h⟩
    | cons y ys => exact absurd (List.cons.inj h).1.symm (ha y)
  | cons x xs ih =>
    cases ys with
    | nil => exact absurd (List.cons.inj h).1 (hb x)
    | cons y ys =>
      obtain ⟨hxy, h⟩ := List.cons.inj h
      obtain ⟨rfl, hrest⟩ := ih h
      exact ⟨congrArg (· :: xs) (hf hxy), hrest⟩

theorem flatMap_inj {f : α → List β} (hf : Function.Injective f) {width : ℕ} (hwidth : 0 < width)
    (hlength : ∀ x, (f x).length = width) {xs ys : List α} (h : xs.flatMap f = ys.flatMap f) :
    xs = ys := by
  have hne : ∀ x, f x ≠ [] := fun x hnil => by
    have hx := hlength x
    rw [hnil, List.length_nil] at hx
    omega
  induction xs generalizing ys with
  | nil =>
    cases ys with
    | nil => rfl
    | cons y ys => exact absurd (List.append_eq_nil_iff.mp h.symm).1 (hne y)
  | cons x xs ih =>
    cases ys with
    | nil => exact absurd (List.append_eq_nil_iff.mp h).1 (hne x)
    | cons y ys =>
      rw [List.flatMap_cons, List.flatMap_cons] at h
      obtain ⟨hxy, h⟩ := List.append_inj h ((hlength x).trans (hlength y).symm)
      rw [hf hxy, ih h]

end Lists

/-! ### Operations -/

namespace Operation
variable {F P : Type} [ScalarEncoding F] [PointEncoding P]

/-- A number is taken in. -/
def number (label : String) (n : ℕ) : Operation := .append label (Bytes.ofNat 8 n)

/-- A scalar is taken in. -/
def scalar (label : String) (s : F) : Operation := .append label (ScalarEncoding.encode s)

/-- A point is taken in. -/
def point (label : String) (p : P) : Operation := .append label (PointEncoding.encode p)

/-- A challenge is drawn. -/
def challenge (label : String) : Operation := .draw label 64

theorem number_inj {label : String} {n n' : ℕ} (hn : n < 2 ^ 64) (hn' : n' < 2 ^ 64)
    (h : number label n = number label n') : n = n' := by
  have hsize : 1 <<< (8 * 8) = 2 ^ 64 := by decide
  have hbytes := congrArg Bytes.toNat (Operation.append.inj h).2
  rwa [Bytes.toNat_ofNat, Bytes.toNat_ofNat, hsize, Nat.mod_eq_of_lt hn, Nat.mod_eq_of_lt hn'] at hbytes

theorem scalar_injective (hF : Function.Injective (ScalarEncoding.encode : F → Bytes)) (label : String) :
    Function.Injective (scalar label : F → Operation) := fun _ _ h =>
  hF (Operation.append.inj h).2

theorem point_injective (hP : Function.Injective (PointEncoding.encode : P → Bytes)) (label : String) :
    Function.Injective (point label : P → Operation) := fun _ _ h =>
  hP (Operation.append.inj h).2

theorem point_ne {label label' : String} (h : label ≠ label') (p q : P) :
    point label p ≠ point label' q := fun heq =>
  h (Operation.append.inj heq).1

end Operation

/-! ### Recorded runs -/

variable {answer : List Operation → Bytes}

/-- The operations of a history, the oldest first. -/
def History.log (h : History answer) : List Operation := h.operations.reverse

/-- Whether a run makes the given operations, from every history on. -/
def Records (answer : List Operation → Bytes) {α : Type} (m : StateM (History answer) α)
    (ops : List Operation) : Prop :=
  ∀ h, (m.run h).2.log = h.log ++ ops

namespace Records
variable {α β : Type} {m : StateM (History answer) α} {ops ops' : List Operation}

theorem congr (h : Records answer m ops) (heq : ops = ops') : Records answer m ops' := heq ▸ h

theorem pure (a : α) : Records answer (Pure.pure a) [] := fun h =>
  (List.append_nil h.log).symm

theorem bind (hm : Records answer m ops) {f : α → StateM (History answer) β}
    (hf : ∀ a, Records answer (f a) ops') : Records answer (m >>= f) (ops ++ ops') := by
  intro h
  rw [StateT.run_bind]
  have hrest := hf (m.run h).1 (m.run h).2
  rw [hm h, List.append_assoc] at hrest
  exact hrest

theorem forM {f : β → StateM (History answer) PUnit} {g : β → List Operation}
    (hf : ∀ b, Records answer (f b) (g b)) (bs : List β) : Records answer (bs.forM f) (bs.flatMap g) := by
  induction bs with
  | nil => exact pure PUnit.unit
  | cons b bs ih => exact (hf b).bind fun _ => ih

theorem mapM {f : β → StateM (History answer) α} {g : β → List Operation}
    (hf : ∀ b, Records answer (f b) (g b)) (bs : List β) : Records answer (bs.mapM f) (bs.flatMap g) := by
  induction bs with
  | nil => exact pure []
  | cons b bs ih =>
    rw [List.mapM_cons]
    refine ((hf b).bind fun _ => ih.bind fun _ => pure _).congr ?_
    rw [List.append_nil, List.flatMap_cons]

theorem absorb (label : String) (data : Bytes) :
    Records answer (Transcript.absorb label data) [.append label data] := fun _ =>
  List.reverse_cons

theorem drawBytes (label : String) (count : ℕ) :
    Records answer (Transcript.drawBytes label count) [.draw label count] := fun _ =>
  List.reverse_cons

theorem challenge {F : Type} [ScalarEncoding F] (label : String) :
    Records answer (Transcript.challenge (F := F) label) [.challenge label] :=
  (drawBytes label 64).bind fun wide => pure (ScalarEncoding.ofBytes wide)

end Records

/-! ### Draws in a record -/

/-- Whether a run from `start` to `final` draws a challenge on the operations `before`, behind `k`
challenges of the same label. -/
def DrawsAt (label : String) (k : ℕ) (start final : History answer) (before : List Operation) : Prop :=
  ∃ since later, before = start.log ++ since ∧ since.count (.challenge label) = k ∧
    final.log = before ++ .challenge label :: later

section DrawsAt
variable {label : String} {k : ℕ} {start final : History answer} {before since ops : List Operation}

theorem drawsAt_iff (hlog : final.log = start.log ++ ops)
    (hops : since ++ [.challenge label] <+: ops) (hcount : since.count (.challenge label) = k) :
    DrawsAt label k start final before ↔ before = start.log ++ since := by
  obtain ⟨later, rfl⟩ := hops
  rw [List.append_assoc, List.singleton_append] at hlog
  constructor
  · rintro ⟨since', later', rfl, hsince', hfinal⟩
    rw [hlog, List.append_assoc, List.append_cancel_left_eq] at hfinal
    rw [(append_cons_inj_of_count hfinal (hcount.trans hsince'.symm)).1]
  · rintro rfl
    exact ⟨since, later, rfl, hcount, by rw [hlog, List.append_assoc]⟩

theorem drawsAt_zero_iff (hlog : final.log = start.log ++ ops)
    (hops : since ++ [.challenge label] <+: ops) (hmem : Operation.challenge label ∉ since) :
    DrawsAt label 0 start final before ↔ before = start.log ++ since :=
  drawsAt_iff hlog hops (List.count_eq_zero.mpr hmem)

theorem DrawsAt.lt_count (h : DrawsAt label k start final before)
    (hlog : final.log = start.log ++ ops) : k < ops.count (.challenge label) := by
  obtain ⟨since, later, rfl, hsince, hfinal⟩ := h
  rw [hlog, List.append_assoc, List.append_cancel_left_eq] at hfinal
  rw [hfinal, List.count_append, List.count_cons_self, hsince]
  omega

end DrawsAt
end ConfidentialTx
