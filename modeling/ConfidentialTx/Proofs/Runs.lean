import Mathlib

/-! # Runs of computations that may refuse

A protocol is a computation on a state that may end in an error, an `ExceptT ε (StateM σ)`, or one
without a state, an `Except ε`.  A run from a state gives the answer and the state behind it.  The
lemmas say what the steps of a run are: `run_bind_eq_ok`, `fst_run_bind_eq_ok` and `bind_eq_ok` take a run with
an answer apart, `run_bind_of_ok` and `run_bind_of_error` put one together.  `OnlyRaises` says what all
errors of a computation are, and is kept by the ways to put computations together. -/

namespace ConfidentialTx

section Except
variable {ε α β : Type}

theorem bind_eq_ok {x : Except ε α} {f : α → Except ε β} {b : β} :
    (x >>= f) = .ok b ↔ ∃ a, x = .ok a ∧ f a = .ok b := by
  cases x <;> simp [bind, Except.bind]

theorem bind_of_ok {x : Except ε α} {a : α} (h : x = .ok a) (f : α → Except ε β) :
    (x >>= f) = f a := by
  rw [h]
  rfl

@[simp] theorem throw_bind (e : ε) (f : α → Except ε β) :
    ((throw e : Except ε α) >>= f) = .error e := rfl

theorem if_throw_eq_ok {c : Prop} [Decidable c] {e : ε} {x : Except ε α} {a : α} :
    (if c then (throw e >>= fun _ : PUnit => x) else x) = .ok a ↔ ¬c ∧ x = .ok a := by
  split <;> simp [*]

theorem unless_throw_eq_ok {c : Prop} [Decidable c] {e : ε} {x : Except ε α} {a : α} :
    (if c then x else (throw e >>= fun _ : PUnit => x)) = .ok a ↔ c ∧ x = .ok a := by
  split <;> simp [*]

theorem if_throw_eq_error {c : Prop} [Decidable c] {e e' : ε} {x : Except ε α} :
    (if c then (throw e >>= fun _ : PUnit => x) else x) = .error e' ↔
      c ∧ e = e' ∨ ¬c ∧ x = .error e' := by
  split <;> simp [*]

theorem unless_throw_eq_error {c : Prop} [Decidable c] {e e' : ε} {x : Except ε α} :
    (if c then x else (throw e >>= fun _ : PUnit => x)) = .error e' ↔
      ¬c ∧ e = e' ∨ c ∧ x = .error e' := by
  split <;> simp [*]

@[simp] theorem pure_eq_ok {a b : α} : (pure a : Except ε α) = .ok b ↔ a = b := by
  simp [pure, Except.pure]

theorem map_eq_ok {x : Except ε α} {f : α → β} {b : β} :
    x.map f = .ok b ↔ ∃ a, x = .ok a ∧ f a = b := by
  cases x <;> simp [Except.map]

theorem map_eq_error {x : Except ε α} {f : α → β} {e : ε} : x.map f = .error e ↔ x = .error e := by
  cases x <;> simp [Except.map]

theorem map_unit_eq_ok {x : Except ε α} : x.map (fun _ => ()) = .ok () ↔ ∃ a, x = .ok a := by
  cases x <;> simp [Except.map]

theorem mapError_eq_ok {ε' : Type} {x : Except ε α} {f : ε → ε'} {a : α} :
    x.mapError f = .ok a ↔ x = .ok a := by
  cases x <;> simp [Except.mapError]

theorem elim_eq_ok {x : Option α} {e : ε} {a : α} :
    (x.elim (.error e) .ok : Except ε α) = .ok a ↔ x = some a := by
  cases x <;> simp

theorem elim_eq_error {x : Option α} {e e' : ε} :
    (x.elim (.error e) .ok : Except ε α) = .error e' ↔ x = none ∧ e = e' := by
  cases x <;> simp

theorem any_toOption_iff {x : Except ε α} {test : α → Bool} :
    x.toOption.any test = true ↔ ∃ a, x = .ok a ∧ test a = true := by
  cases x <;> simp [Except.toOption]

theorem all_toOption_iff {x : Except ε α} {test : α → Bool} :
    x.toOption.all test = true ↔ ∀ a, x = .ok a → test a = true := by
  cases x <;> simp [Except.toOption]

theorem mapM_eq_ok {f : α → Except ε β} {xs : List α} {ys : List β} :
    xs.mapM f = .ok ys ↔ List.Forall₂ (fun x y => f x = .ok y) xs ys := by
  induction xs generalizing ys with
  | nil =>
    rw [List.mapM_nil, List.forall₂_nil_left_iff]
    exact ⟨fun h => (Except.ok.inj h).symm, fun h => h ▸ rfl⟩
  | cons x xs ih =>
    rw [List.mapM_cons, List.forall₂_cons_left_iff, bind_eq_ok]
    constructor
    · rintro ⟨y, hy, h⟩
      obtain ⟨ys', hys, h⟩ := bind_eq_ok.mp h
      exact ⟨y, ys', hy, ih.mp hys, (Except.ok.inj h).symm⟩
    · rintro ⟨y, ys', hy, hys, rfl⟩
      exact ⟨y, hy, bind_eq_ok.mpr ⟨ys', ih.mpr hys, rfl⟩⟩

/-- A traversal that refuses the entries with a property refuses the first of them. -/
theorem mapM_eq_find? {f : α → Except ε β} {bad : α → Bool} {e : α → ε} {g : α → β} {xs : List α}
    (h : ∀ x ∈ xs, f x = if bad x then .error (e x) else .ok (g x)) :
    xs.mapM f = (xs.find? bad).elim (.ok (xs.map g)) fun x => .error (e x) := by
  induction xs with
  | nil => rfl
  | cons x xs ih =>
    obtain ⟨hx, hxs⟩ := List.forall_mem_cons.mp h
    rw [List.mapM_cons, hx, ih hxs, List.find?_cons]
    cases bad x with
    | true => rfl
    | false => cases xs.find? bad <;> rfl

theorem exists_mapM_eq_ok {f : α → Except ε β} {xs : List α} (h : ∀ x ∈ xs, ∃ y, f x = .ok y) :
    ∃ ys, xs.mapM f = .ok ys := by
  induction xs with
  | nil => exact ⟨[], rfl⟩
  | cons x xs ih =>
    obtain ⟨⟨y, hy⟩, hxs⟩ := List.forall_mem_cons.mp h
    obtain ⟨ys, hys⟩ := ih hxs
    exact ⟨y :: ys, by rw [List.mapM_cons, hy, hys]; rfl⟩

theorem forM_eq_ok {f : α → Except ε Unit} {xs : List α} (h : ∀ x ∈ xs, f x = .ok ()) :
    xs.forM f = .ok () := by
  induction xs with
  | nil => rfl
  | cons x xs ih =>
    obtain ⟨hx, hxs⟩ := List.forall_mem_cons.mp h
    exact bind_eq_ok.mpr ⟨(), hx, ih hxs⟩

theorem forM_eq_find? {f : α → Except ε Unit} {bad : α → Bool} {e : α → ε} {xs : List α}
    (h : ∀ x ∈ xs, f x = if bad x then .error (e x) else .ok ()) :
    xs.forM f = (xs.find? bad).elim (.ok ()) fun x => .error (e x) := by
  induction xs with
  | nil => rfl
  | cons x xs ih =>
    obtain ⟨hx, hxs⟩ := List.forall_mem_cons.mp h
    change (f x >>= fun _ => xs.forM f) = _
    rw [hx, ih hxs, List.find?_cons]
    cases bad x <;> rfl

theorem exists_of_forall₂ {R : α → β → Prop} {xs : List α} {ys : List β} (h : List.Forall₂ R xs ys)
    {j : ℕ} {y : β} (hy : ys[j]? = some y) : ∃ x, xs[j]? = some x ∧ R x y := by
  obtain ⟨hj, rfl⟩ := List.getElem?_eq_some_iff.mp hy
  have hj' : j < xs.length := h.length_eq ▸ hj
  exact ⟨xs[j], List.getElem?_eq_getElem hj', h.get hj' hj⟩

end Except

theorem run_bind_of_eq {σ α β : Type} {m : StateM σ α} {f : α → StateM σ β} {s s' : σ} {a : α}
    (h : m.run s = (a, s')) : (m >>= f).run s = (f a).run s' := by
  rw [StateT.run_bind, h]
  rfl

section ExceptT
variable {ε σ α β : Type} {x : ExceptT ε (StateM σ) α} {f : α → ExceptT ε (StateM σ) β} {s s' : σ}

theorem run_bind_of_ok {a : α} (h : x.run s = (.ok a, s')) : (x >>= f).run s = (f a).run s' := by
  rw [ExceptT.run_bind]
  simp only [bind, StateT.bind, h]

theorem run_bind_of_error {e : ε} (h : x.run s = (.error e, s')) :
    (x >>= f).run s = (.error e, s') := by
  rw [ExceptT.run_bind]
  simp only [bind, StateT.bind, h]
  rfl

theorem run_bind_eq_ok {b : β} :
    (x >>= f).run s = (.ok b, s') ↔ ∃ a s₁, x.run s = (.ok a, s₁) ∧ (f a).run s₁ = (.ok b, s') := by
  constructor
  · intro h
    rcases hx : x.run s with ⟨_ | a, s₁⟩
    · rw [run_bind_of_error hx] at h
      cases h
    · rw [run_bind_of_ok hx] at h
      exact ⟨a, s₁, rfl, h⟩
  · rintro ⟨a, s₁, hx, hf⟩
    rw [run_bind_of_ok hx, hf]

theorem fst_run_bind_eq_ok {b : β} :
    ((x >>= f).run s).1 = .ok b ↔ ∃ a s₁, x.run s = (.ok a, s₁) ∧ ((f a).run s₁).1 = .ok b := by
  constructor
  · intro h
    obtain ⟨a, s₁, hx, hf⟩ := run_bind_eq_ok.mp (Prod.ext h rfl : (x >>= f).run s = (.ok b, _))
    exact ⟨a, s₁, hx, congrArg Prod.fst hf⟩
  · rintro ⟨a, s₁, hx, hf⟩
    rw [run_bind_of_ok hx, hf]

@[simp] theorem run_pure (a : α) (s : σ) : (pure a : ExceptT ε (StateM σ) α).run s = (.ok a, s) := rfl

theorem run_get (s : σ) : (get : ExceptT ε (StateM σ) σ).run s = (.ok s, s) := rfl

@[simp] theorem run_throw_bind (e : ε) (s : σ) :
    ((throw e : ExceptT ε (StateM σ) α) >>= f).run s = (.error e, s) := rfl

theorem fst_run_if_throw_eq_ok {c : Prop} [Decidable c] {e : ε} {a : α} :
    ((if c then (throw e >>= fun _ : PUnit => x) else x).run s).1 = .ok a ↔
      ¬c ∧ (x.run s).1 = .ok a := by
  by_cases hc : c
  · rw [if_pos hc, run_throw_bind]
    exact ⟨nofun, fun h => absurd hc h.1⟩
  · rw [if_neg hc]
    exact (and_iff_right hc).symm

theorem fst_run_unless_throw_eq_ok {c : Prop} [Decidable c] {e : ε} {a : α} :
    ((if c then x else (throw e >>= fun _ : PUnit => x)).run s).1 = .ok a ↔
      c ∧ (x.run s).1 = .ok a := by
  by_cases hc : c
  · rw [if_pos hc]
    exact (and_iff_right hc).symm
  · rw [if_neg hc, run_throw_bind]
    exact ⟨nofun, fun h => absurd h.1 hc⟩

theorem fst_run_check_bind_eq_ok {r : Except ε β} {b : α} {f : β → ExceptT ε (StateM σ) α} :
    (((liftM r : ExceptT ε (StateM σ) β) >>= f).run s).1 = .ok b ↔
      ∃ a, r = .ok a ∧ ((f a).run s).1 = .ok b := by
  rw [fst_run_bind_eq_ok]
  constructor
  · rintro ⟨a, s₁, hrun, hf⟩
    obtain ⟨hr, rfl⟩ := Prod.mk.inj hrun
    exact ⟨a, hr, hf⟩
  · rintro ⟨a, hr, hf⟩
    exact ⟨a, s, Prod.ext hr rfl, hf⟩

@[simp] theorem run_lift (m : StateM σ α) (s : σ) :
    (liftM m : ExceptT ε (StateM σ) α).run s = (.ok (m.run s).1, (m.run s).2) := rfl

theorem run_lift_of_eq {m : StateM σ α} {a : α} (h : m.run s = (a, s')) :
    (liftM m : ExceptT ε (StateM σ) α).run s = (.ok a, s') := by
  rw [run_lift, h]

@[simp] theorem run_lift_except (r : Except ε α) (s : σ) :
    (liftM r : ExceptT ε (StateM σ) α).run s = (r, s) := rfl

theorem run_lift_of_ok {r : Except ε α} {a : α} (h : r = .ok a) :
    (liftM r : ExceptT ε (StateM σ) α).run s = (.ok a, s) := by
  rw [run_lift_except, h]

theorem run_check_bind_of_error {r : Except ε β} {f : β → ExceptT ε (StateM σ) α} {e : ε}
    (h : r = .error e) :
    ((liftM r : ExceptT ε (StateM σ) β) >>= f).run s = (.error e, s) :=
  run_bind_of_error (by rw [run_lift_except, h])

theorem run_adapt {ε' : Type} (g : ε → ε') :
    (x.adapt g).run s = ((x.run s).1.mapError g, (x.run s).2) := rfl

theorem run_adapt_eq_ok {ε' : Type} {g : ε → ε'} {a : α} :
    (x.adapt g).run s = (.ok a, s') ↔ x.run s = (.ok a, s') := by
  rw [run_adapt, Prod.ext_iff, Prod.ext_iff]
  exact and_congr_left fun _ => mapError_eq_ok

/-- A check with renamed errors before a rest that passes from every state or from none. -/
theorem fst_run_adapt_bind_eq_ok {ε' : Type} {x : ExceptT ε (StateM σ) PUnit} {g : ε → ε'}
    {f : PUnit → ExceptT ε' (StateM σ) α} {a : α} {p : Prop}
    (hf : ∀ s, ((f ()).run s).1 = .ok a ↔ p) :
    ((x.adapt g >>= f).run s).1 = .ok a ↔ (x.run s).1 = .ok () ∧ p := by
  rw [fst_run_bind_eq_ok]
  constructor
  · rintro ⟨⟨⟩, s₁, hx, h⟩
    exact ⟨congrArg Prod.fst (run_adapt_eq_ok.mp hx), (hf s₁).mp h⟩
  · rintro ⟨hx, h⟩
    exact ⟨(), _, run_adapt_eq_ok.mpr (Prod.ext hx rfl), (hf _).mpr h⟩

theorem forall₂_of_mapM {xs : List α} {ys : List β} (h : (xs.mapM f).run s = (.ok ys, s')) :
    List.Forall₂ (fun x y => ∃ s, ((f x).run s).1 = .ok y) xs ys := by
  induction xs generalizing ys s s' with
  | nil =>
    rw [List.mapM_nil, run_pure] at h
    obtain rfl := Except.ok.inj (Prod.mk.inj h).1
    exact .nil
  | cons x xs ih =>
    rw [List.mapM_cons, run_bind_eq_ok] at h
    obtain ⟨y, s₁, hy, h⟩ := h
    obtain ⟨ys', s₂, hys, h⟩ := run_bind_eq_ok.mp h
    obtain rfl := Except.ok.inj (Prod.mk.inj h).1
    exact .cons ⟨s, congrArg Prod.fst hy⟩ (ih hys)

/-- A traversal answers if every single run does, for runs that answer from every state or from none. -/
theorem exists_fst_run_mapM_iff {p : α → Prop} (hp : ∀ x s, (∃ y, ((f x).run s).1 = .ok y) ↔ p x)
    {xs : List α} : (∃ ys, ((xs.mapM f).run s).1 = .ok ys) ↔ ∀ x ∈ xs, p x := by
  induction xs generalizing s with
  | nil => exact iff_of_true ⟨[], rfl⟩ nofun
  | cons x xs ih =>
    rw [List.forall_mem_cons, List.mapM_cons, ← hp x s]
    constructor
    · rintro ⟨ys, h⟩
      obtain ⟨y, s₁, hy, h⟩ := fst_run_bind_eq_ok.mp h
      obtain ⟨ys', s₂, hys, -⟩ := fst_run_bind_eq_ok.mp h
      exact ⟨⟨y, congrArg Prod.fst hy⟩, ih.mp ⟨ys', congrArg Prod.fst hys⟩⟩
    · rintro ⟨⟨y, hy⟩, hxs⟩
      obtain ⟨ys, hys⟩ := ih.mpr hxs
      exact ⟨y :: ys, fst_run_bind_eq_ok.mpr ⟨y, _, Prod.ext hy rfl,
        fst_run_bind_eq_ok.mpr ⟨ys, _, Prod.ext hys rfl, rfl⟩⟩⟩

theorem fst_run_forM_eq_ok {g : α → ExceptT ε (StateM σ) PUnit} {r : α → Except ε PUnit}
    (hg : ∀ x s, (g x).run s = (r x, s)) {xs : List α} :
    ((xs.forM g).run s).1 = .ok () ↔ ∀ x ∈ xs, r x = .ok () := by
  induction xs with
  | nil => exact ⟨fun _ => nofun, fun _ => rfl⟩
  | cons x xs ih =>
    rw [List.forall_mem_cons, ← ih]
    change ((g x >>= fun _ => xs.forM g).run s).1 = .ok () ↔ _
    rw [fst_run_bind_eq_ok]
    constructor
    · rintro ⟨⟨⟩, s₁, hrun, hxs⟩
      obtain ⟨hx, rfl⟩ := Prod.mk.inj ((hg x s).symm.trans hrun)
      exact ⟨hx, hxs⟩
    · rintro ⟨hx, hxs⟩
      exact ⟨(), s, (hg x s).trans (by rw [hx]), hxs⟩

end ExceptT

/-! ### Errors of a computation -/

/-- Whether every error of a computation has a property. -/
def OnlyRaises {ε σ α : Type} (p : ε → Prop) (x : ExceptT ε (StateM σ) α) : Prop :=
  ∀ s e, (x.run s).1 = .error e → p e

namespace OnlyRaises
variable {ε σ α β : Type} {p : ε → Prop} {x : ExceptT ε (StateM σ) α}

theorem lift (m : StateM σ α) : OnlyRaises p (liftM m : ExceptT ε (StateM σ) α) := by
  intro s e h
  rw [run_lift] at h
  cases h

theorem check {r : Except ε α} (h : ∀ e, r = .error e → p e) :
    OnlyRaises p (liftM r : ExceptT ε (StateM σ) α) := by
  intro s e he
  rw [run_lift_except] at he
  exact h e he

theorem pure (a : α) : OnlyRaises p (Pure.pure a : ExceptT ε (StateM σ) α) := by
  intro s e h
  rw [run_pure] at h
  cases h

theorem bind (h : OnlyRaises p x) {f : α → ExceptT ε (StateM σ) β} (hf : ∀ a, OnlyRaises p (f a)) :
    OnlyRaises p (x >>= f) := by
  intro s e he
  rcases hx : x.run s with ⟨e' | a, s'⟩
  · rw [run_bind_of_error hx] at he
    obtain rfl := Except.error.inj he
    exact h s e' (congrArg Prod.fst hx)
  · rw [run_bind_of_ok hx] at he
    exact hf a s' e he

theorem adapt {ε' : Type} {g : ε → ε'} {p : ε' → Prop} (h : ∀ e, p (g e)) :
    OnlyRaises p (x.adapt g) := by
  intro s e he
  rw [run_adapt] at he
  cases hx : (x.run s).1 with
  | error e' =>
    rw [hx] at he
    obtain rfl := Except.error.inj he
    exact h e'
  | ok a =>
    rw [hx] at he
    cases he

theorem mapM {f : α → ExceptT ε (StateM σ) β} (h : ∀ a, OnlyRaises p (f a)) (as : List α) :
    OnlyRaises p (as.mapM f) := by
  induction as with
  | nil => exact pure []
  | cons a as ih =>
    rw [List.mapM_cons]
    exact (h a).bind fun b => ih.bind fun bs => pure (b :: bs)

end OnlyRaises

end ConfidentialTx
