import ConfidentialTx.Proofs.Handout
import ConfidentialTx.Proofs.Powers

/-! # Steps that can trap

The definitions of the protocols read their lists as wholes.  A program on a machine computes sizes in words of
sixty-four bits, reads and writes single entries at positions that it has computed, and walks through
iterators that say beforehand how many items they have.  Every such step ends the program if it goes wrong,
whatever its answer would have been: it traps.

* `Trap`: what can go wrong, and `Trapping`: computations that may refuse, and may trap.
* `Trapping.add`, `Trapping.entry`, …: the steps on sizes and lists, each with a lemma that says when it does
  not trap.
* `Iter`: iterators with the bounds that they give for the number of their items, and `Iter.multiscalar`: the
  sum of products, which traps unless all bounds are one number.  `Iter.ofList` is the iterator whose bounds
  are exact, and what is put together of such iterators is one again (`Iter.chained_ofList`).
* `Trapping.safe`: a computation that cannot trap, as one that may. -/

namespace ConfidentialTx

/-- Why a program ends without an answer. -/
inductive Trap
  /-- A sum, a difference or a product of sizes, or a power of two, that no word holds. -/
  | overflow
  /-- A shift by as many bits as a word has, or more. -/
  | shift
  /-- An entry or a part that a list does not have. -/
  | bounds
  /-- A sum of products of scalars and points that are not equally many, or are not said to be. -/
  | lengths
deriving DecidableEq, Repr

/-- A computation on a state that may refuse, and that may trap. -/
abbrev Trapping (σ ε α : Type) : Type := ExceptT ε (StateT σ (Except Trap)) α

namespace Trapping

/-! ### Sizes -/

/-- A sum of two sizes. -/
def add (a b : ℕ) : Except Trap ℕ := if a + b < 2 ^ 64 then .ok (a + b) else .error .overflow

/-- A difference of two sizes. -/
def sub (a b : ℕ) : Except Trap ℕ := if b ≤ a then .ok (a - b) else .error .overflow

/-- A product of two sizes. -/
def mul (a b : ℕ) : Except Trap ℕ := if a * b < 2 ^ 64 then .ok (a * b) else .error .overflow

/-- One, shifted to the left. -/
def bit (k : ℕ) : Except Trap ℕ := if k < 64 then .ok (1 <<< k) else .error .shift

/-- The least power of two that is not smaller. -/
def roundUp (n : ℕ) : Except Trap ℕ :=
  if nextPowerOfTwo n < 2 ^ 64 then .ok (nextPowerOfTwo n) else .error .overflow

/-- The number of zeros in front of the highest bit of a word of thirty-two bits. -/
def leadingZeros (word : ℕ) : ℕ := if word = 0 then 32 else 31 - word.log2

/-- The position of the highest bit, of the lower thirty-two bits. -/
def highestBit (i : ℕ) : Except Trap ℕ := sub 31 (leadingZeros (i % 2 ^ 32))

theorem add_eq {a b : ℕ} (h : a + b < 2 ^ 64) : add a b = .ok (a + b) := if_pos h

theorem sub_eq {a b : ℕ} (h : b ≤ a) : sub a b = .ok (a - b) := if_pos h

theorem mul_eq {a b : ℕ} (h : a * b < 2 ^ 64) : mul a b = .ok (a * b) := if_pos h

theorem bit_eq {k : ℕ} (h : k < 64) : bit k = .ok (2 ^ k) := by
  rw [bit, if_pos h, Nat.one_shiftLeft]

theorem roundUp_eq {n : ℕ} (h : nextPowerOfTwo n < 2 ^ 64) : roundUp n = .ok (nextPowerOfTwo n) := if_pos h

theorem highestBit_eq {i : ℕ} (hpos : i ≠ 0) (h : i < 2 ^ 32) : highestBit i = .ok i.log2 := by
  have hlog : i.log2 < 32 := (Nat.log2_lt hpos).mpr h
  rw [highestBit, Nat.mod_eq_of_lt h, leadingZeros, if_neg hpos, sub_eq (Nat.sub_le 31 _)]
  exact congrArg Except.ok (by omega)

-- the first generator has no highest bit, so its factor must not be computed from one before it
example : highestBit 0 = .error .overflow := rfl

/-! ### Lists -/

section Lists
variable {α β : Type}

/-- The entry at a position. -/
def entry (xs : List α) (i : ℕ) : Except Trap α := xs[i]?.elim (.error .bounds) .ok

/-- The list with another entry at a position. -/
def replace (xs : List α) (i : ℕ) (x : α) : Except Trap (List α) :=
  if i < xs.length then .ok (xs.set i x) else .error .bounds

/-- The entries from one position up to another. -/
def part (xs : List α) (start stop : ℕ) : Except Trap (List α) :=
  if start ≤ stop ∧ stop ≤ xs.length then .ok ((xs.take stop).drop start) else .error .bounds

/-- The entries before a position and the others. -/
def split (xs : List α) (i : ℕ) : Except Trap (List α × List α) :=
  if i ≤ xs.length then .ok (xs.take i, xs.drop i) else .error .bounds

theorem entry_eq_ok_iff {xs : List α} {i : ℕ} {x : α} : entry xs i = .ok x ↔ xs[i]? = some x := elim_eq_ok

theorem entry_eq {xs : List α} {i : ℕ} (h : i < xs.length) : entry xs i = .ok xs[i] :=
  entry_eq_ok_iff.mpr (List.getElem?_eq_getElem h)

theorem replace_eq {xs : List α} {i : ℕ} (h : i < xs.length) (x : α) :
    replace xs i x = .ok (xs.set i x) := if_pos h

/-- A loop that fills the places of a list reads an entry that is not filled yet. -/
theorem entry_take_append_drop {xs ys : List α} (hlength : ys.length = xs.length) {i : ℕ}
    (hi : i < xs.length) : entry (ys.take i ++ xs.drop i) i = .ok xs[i] := by
  have htake : (ys.take i).length = i := List.length_take_of_le (hlength ▸ hi.le)
  rw [entry_eq_ok_iff, List.getElem?_append_right htake.le, htake, Nat.sub_self, List.getElem?_drop,
    Nat.add_zero, List.getElem?_eq_getElem hi]

/-- It puts the next entry behind those before it. -/
theorem replace_take_append_drop {xs ys : List α} {i : ℕ} (hi : i < xs.length) {y : α} (hy : ys[i]? = some y) :
    replace (ys.take i ++ xs.drop i) i y = .ok (ys.take (i + 1) ++ xs.drop (i + 1)) := by
  obtain ⟨hi', rfl⟩ := List.getElem?_eq_some_iff.mp hy
  have htake : (ys.take i).length = i := List.length_take_of_le hi'.le
  have hin : i < (ys.take i ++ xs.drop i).length := by
    rw [List.length_append, htake, List.length_drop]
    omega
  rw [replace_eq hin, List.set_append_right _ _ htake.le, htake, Nat.sub_self,
    List.drop_eq_getElem_cons hi, List.set_cons_zero, List.take_succ_eq_append_getElem hi', List.append_assoc]
  rfl

theorem part_eq {xs : List α} {start stop : ℕ} (h : start ≤ stop) (h' : stop ≤ xs.length) :
    part xs start stop = .ok ((xs.take stop).drop start) := if_pos ⟨h, h'⟩

theorem split_eq {xs : List α} {i : ℕ} (h : i ≤ xs.length) : split xs i = .ok (xs.take i, xs.drop i) :=
  if_pos h

theorem foldlM_range_eq_ok {step : β → ℕ → Except Trap β} (state : ℕ → β) {n : ℕ} {first last : β}
    (hfirst : state 0 = first) (hlast : state n = last)
    (h : ∀ i < n, step (state i) i = .ok (state (i + 1))) :
    (List.range n).foldlM step first = .ok last := by
  subst hfirst hlast
  induction n with
  | zero => rfl
  | succ n ih =>
    rw [List.range_succ, List.foldlM_append, ih fun i hi => h i (Nat.lt_succ_of_lt hi)]
    change (step (state n) n >>= pure) = _
    rw [h n (Nat.lt_succ_self n)]
    rfl

theorem mapM_range_eq_ok {f : ℕ → Except Trap β} {ys : List β} {n : ℕ} (hn : ys.length = n)
    (h : ∀ i (hi : i < ys.length), f i = .ok ys[i]) : (List.range n).mapM f = .ok ys := by
  refine mapM_eq_ok.mpr (List.forall₂_iff_get.mpr ⟨List.length_range.trans hn.symm, fun i hi hi' => ?_⟩)
  rw [List.get_eq_getElem, List.get_eq_getElem, List.getElem_range]
  exact h i hi'

theorem foldlM_filter_eq_ok {test : α → Except Trap Bool} (passes : α → Bool) {f : α → β} {xs : List α}
    (h : ∀ x ∈ xs, test x = .ok (passes x)) (found : List β) :
    xs.foldlM (fun found x => do
      let pass ← test x
      pure (if pass then found else found ++ [f x])) found =
      .ok (found ++ (xs.filter fun x => !passes x).map f) := by
  induction xs generalizing found with
  | nil => simp [pure, Except.pure]
  | cons x xs ih =>
    obtain ⟨hx, hxs⟩ := List.forall_mem_cons.mp h
    rw [List.foldlM_cons]
    simp only [hx, bind, Except.bind, pure, Except.pure] at ih ⊢
    rw [ih hxs]
    cases hpass : passes x <;> simp [hpass]

end Lists

end Trapping

/-! ### Iterators -/

/-- An iterator: its items, and the bounds that it gives for their number, an upper one if it has one. -/
structure Iter (α : Type) where
  items : List α
  lower : ℕ
  upper : Option ℕ

namespace Iter
variable {α β : Type}

/-- An iterator over a list. -/
def ofList (xs : List α) : Iter α := ⟨xs, xs.length, some xs.length⟩

/-- An iterator over one item. -/
def once (x : α) : Iter α := ofList [x]

/-- An iterator over the generators that a cursor has still to hand out. -/
def ofCursor {P : Type} (c : Cursor P) : Iter P := ⟨c.toList, c.sizeHint.1, c.sizeHint.2⟩

/-- Every item changed. -/
def map (f : α → β) (it : Iter α) : Iter β := ⟨it.items.map f, it.lower, it.upper⟩

/-- The items from the last one on. -/
def rev (it : Iter α) : Iter α := ⟨it.items.reverse, it.lower, it.upper⟩

/-- At most the first `n` items. -/
def take (n : ℕ) (it : Iter α) : Iter α :=
  ⟨it.items.take n, min it.lower n, some (it.upper.elim n fun u => min u n)⟩

/-- The items of two iterators, pair by pair. -/
def zip (it : Iter α) (it' : Iter β) : Iter (α × β) :=
  ⟨it.items.zip it'.items, min it.lower it'.lower, Option.merge min it.upper it'.upper⟩

/-- The items of two iterators, one behind the other.  The sum of the lower bounds stays at the largest word,
and there is no upper bound if there is none for a part or no word holds the sum. -/
def chain (it it' : Iter α) : Iter α where
  items := it.items ++ it'.items
  lower := min (it.lower + it'.lower) (2 ^ 64 - 1)
  upper := do
    let u ← it.upper
    let u' ← it'.upper
    if u + u' < 2 ^ 64 then some (u + u') else none

/-- The items of several iterators, one behind the other. -/
def chained (first : Iter α) (others : List (Iter α)) : Iter α := others.foldl chain first

section Powers
variable {F : Type} [Mul F] [One F]

/-- The first `n` of all powers, of which there are as many as a word can count and no last one. -/
def powers (x : F) (n : ℕ) : Iter F := ⟨ConfidentialTx.powers x n, min (2 ^ 64 - 1) n, some n⟩

/-- Every item with a power. -/
def zipPowers (it : Iter α) (x : F) : Iter (α × F) :=
  ⟨it.items.zip (ConfidentialTx.powers x it.items.length), min it.lower (2 ^ 64 - 1), it.upper⟩

end Powers

/-- The sum of the products of scalars and points. -/
def multiscalar {F P : Type} [MultiScalar F P] (scalars : Iter F) (points : Iter P) : Except Trap P :=
  if scalars.lower = points.lower ∧ scalars.upper = some scalars.lower ∧
      points.upper = some points.lower ∧ scalars.items.length = points.items.length then
    .ok (combine scalars.items points.items)
  else .error .lengths

@[simp] theorem map_ofList (f : α → β) (xs : List α) : (ofList xs).map f = ofList (xs.map f) := by
  simp [map, ofList]

@[simp] theorem rev_ofList (xs : List α) : (ofList xs).rev = ofList xs.reverse := by
  simp [rev, ofList]

@[simp] theorem take_ofList (n : ℕ) (xs : List α) : (ofList xs).take n = ofList (xs.take n) := by
  simp [take, ofList, Nat.min_comm]

@[simp] theorem zip_ofList (xs : List α) (ys : List β) :
    (ofList xs).zip (ofList ys) = ofList (xs.zip ys) := by
  simp [zip, ofList]

theorem map_zip_ofList {γ : Type} (f : α × β → γ) (xs : List α) (ys : List β) :
    ((ofList xs).zip (ofList ys)).map f = ofList (List.zipWith (fun a b => f (a, b)) xs ys) := by
  rw [zip_ofList, map_ofList, List.map_zip_eq_zipWith]
  rfl

theorem chain_ofList {xs ys : List α} (h : (xs ++ ys).length < 2 ^ 64) :
    (ofList xs).chain (ofList ys) = ofList (xs ++ ys) := by
  rw [List.length_append] at h
  have hlower : min (xs.length + ys.length) (2 ^ 64 - 1) = xs.length + ys.length :=
    Nat.min_eq_left (Nat.le_sub_one_of_lt h)
  simp only [chain, ofList, hlower, Option.bind_eq_bind, Option.bind_some, if_pos h, List.length_append]

/-- Several iterators with exact bounds have exact bounds together, as far as a word holds them. -/
theorem chained_ofList {xs : List α} (yss : List (List α)) (h : (yss.foldl (· ++ ·) xs).length < 2 ^ 64) :
    chained (ofList xs) (yss.map ofList) = ofList (yss.foldl (· ++ ·) xs) := by
  induction yss generalizing xs with
  | nil => rfl
  | cons ys yss ih =>
    have hfirst : (xs ++ ys).length < 2 ^ 64 := by
      refine Nat.lt_of_le_of_lt ?_ h
      rw [List.foldl_cons, List.foldl_append_eq_append]
      simp
    rw [List.foldl_cons] at h ⊢
    rw [← ih h]
    change chained ((ofList xs).chain (ofList ys)) (yss.map ofList) = _
    rw [chain_ofList hfirst]

section Powers
variable {F : Type} [Field F]

theorem powers_eq (x : F) {n : ℕ} (h : n < 2 ^ 64) : powers x n = ofList (ConfidentialTx.powers x n) := by
  have hlower : min (2 ^ 64 - 1) n = n := Nat.min_eq_right (Nat.le_sub_one_of_lt h)
  rw [powers, hlower, ofList, length_powers]

theorem zipPowers_ofList (x : F) {xs : List α} (h : xs.length < 2 ^ 64) :
    (ofList xs).zipPowers x = ofList (xs.zip (ConfidentialTx.powers x xs.length)) := by
  have hlower : min xs.length (2 ^ 64 - 1) = xs.length := Nat.min_eq_left (Nat.le_sub_one_of_lt h)
  simp only [zipPowers, ofList, hlower, List.length_zip, length_powers, Nat.min_self]

end Powers

theorem ofCursor_start {P : Type} {t : Generators P} {n m : ℕ} (hn : n ≤ t.capacity)
    (hm : m ≤ t.parties) (hsize : n * m < 2 ^ 64) (family : Family) :
    ofCursor (.start t family n m) = ofList (t.vector family n m) := by
  have hplaced := Cursor.isPlaced_start hn hm hsize family
  have hleft := Cursor.left_start t family n m
  rw [ofCursor, Cursor.sizeHint, Cursor.toList_eq hplaced, hplaced.remaining_eq, hleft]
  rfl

theorem multiscalar_ofList {F P : Type} [MultiScalar F P] {ss : List F} {ps : List P}
    (h : ss.length = ps.length) : multiscalar (ofList ss) (ofList ps) = .ok (combine ss ps) :=
  if_pos ⟨h, rfl, rfl, h⟩

theorem multiscalar_ofList_of_ne {F P : Type} [MultiScalar F P] {ss : List F} {ps : List P}
    (h : ss.length ≠ ps.length) : multiscalar (ofList ss) (ofList ps) = .error .lengths :=
  if_neg fun hall => h hall.1

end Iter

/-! ### Computations -/

namespace Trapping
variable {σ ε α β : Type}

/-- A computation that cannot trap. -/
def safe (x : ExceptT ε (StateM σ) α) : Trapping σ ε α := ExceptT.mk fun s => .ok (x.run s)

/-- A step that may trap and leaves the state as it is. -/
def step (x : Except Trap α) : Trapping σ ε α := ExceptT.mk fun s => x.map fun a => (.ok a, s)

/-- A step that may also refuse. -/
def check (x : Except Trap (Except ε α)) : Trapping σ ε α := ExceptT.mk fun s => x.map fun r => (r, s)

@[simp] theorem run_safe (x : ExceptT ε (StateM σ) α) (s : σ) : (safe x).run s = .ok (x.run s) := rfl

@[simp] theorem step_ok (a : α) : (step (.ok a) : Trapping σ ε α) = pure a := rfl

@[simp] theorem check_ok (r : Except ε α) : (check (.ok r) : Trapping σ ε α) = safe (liftM r) := rfl

theorem safe_pure (a : α) : (safe (pure a) : Trapping σ ε α) = pure a := rfl

variable {x : ExceptT ε (StateM σ) α} {s s' : σ}

theorem run_safe_bind_of_ok {a : α} (h : x.run s = (.ok a, s')) (f : α → Trapping σ ε β) :
    (safe x >>= f).run s = (f a).run s' := by
  have hrun : (safe x).run s = .ok (.ok a, s') := congrArg Except.ok h
  rw [ExceptT.run_bind]
  simp only [bind, StateT.bind, Except.bind, hrun]

theorem run_safe_bind_of_error {e : ε} (h : x.run s = (.error e, s')) (f : α → Trapping σ ε β) :
    (safe x >>= f).run s = .ok (.error e, s') := by
  have hrun : (safe x).run s = .ok (.error e, s') := congrArg Except.ok h
  rw [ExceptT.run_bind]
  simp only [bind, StateT.bind, Except.bind, hrun]
  rfl

theorem safe_bind (x : ExceptT ε (StateM σ) α) (f : α → ExceptT ε (StateM σ) β) :
    safe (x >>= f) = safe x >>= fun a => safe (f a) := by
  funext s
  change (safe (x >>= f)).run s = (safe x >>= fun a => safe (f a)).run s
  rw [run_safe]
  rcases hx : x.run s with ⟨e | a, s'⟩
  · rw [run_bind_of_error hx, run_safe_bind_of_error hx]
  · rw [run_bind_of_ok hx, run_safe_bind_of_ok hx, run_safe]

/-- What comes behind a computation matters for its answers only. -/
theorem safe_bind_congr {f g : α → Trapping σ ε β}
    (h : ∀ a s s', x.run s = (.ok a, s') → f a = g a) : safe x >>= f = safe x >>= g := by
  funext s
  change (safe x >>= f).run s = (safe x >>= g).run s
  rcases hx : x.run s with ⟨e | a, s'⟩
  · rw [run_safe_bind_of_error hx, run_safe_bind_of_error hx]
  · rw [run_safe_bind_of_ok hx, run_safe_bind_of_ok hx, h a s s' hx]

theorem adapt_safe {ε' : Type} (g : ε → ε') (x : ExceptT ε (StateM σ) α) :
    ExceptT.adapt g (safe x) = safe (x.adapt g) := rfl

theorem adapt_check_ok {ε' : Type} (g : ε → ε') (r : Except ε α) :
    (ExceptT.adapt g (check (.ok r)) : Trapping σ ε' α) = safe (liftM (r.mapError g)) := by
  cases r <;> rfl

theorem forM_zipIdx_eq {xs : List α} {ys : List β} {f : α × ℕ → Trapping σ ε PUnit}
    {g : β → ExceptT ε (StateM σ) PUnit} {k : ℕ} (hlength : xs.length = ys.length)
    (h : ∀ i x y, xs[i]? = some x → ys[i]? = some y → f (x, k + i) = safe (g y)) :
    (xs.zipIdx k).forM f = safe (ys.forM g) := by
  induction xs generalizing ys k with
  | nil =>
    obtain rfl := List.length_eq_zero_iff.mp hlength.symm
    rfl
  | cons x xs ih =>
    obtain ⟨y, ys, rfl⟩ := List.exists_cons_of_length_eq_add_one hlength.symm
    have hfirst : f (x, k) = safe (g y) := h 0 x y rfl rfl
    have hrest := ih (k := k + 1) (Nat.succ.inj hlength) fun i x' y' hx hy => by
      rw [Nat.add_right_comm]
      exact h (i + 1) x' y' hx hy
    change (f (x, k) >>= fun _ => (xs.zipIdx (k + 1)).forM f) = safe (g y >>= fun _ => ys.forM g)
    rw [hfirst, hrest, safe_bind]

/-- A computation that only changes the state. -/
def act (m : StateM σ α) : Trapping σ ε α := safe (liftM m)

theorem act_pure (a : α) : (act (pure a) : Trapping σ ε α) = pure a := rfl

theorem act_bind (m : StateM σ α) (f : α → StateM σ β) :
    (act (m >>= f) : Trapping σ ε β) = act m >>= fun a => act (f a) := by
  rw [act, liftM_bind, safe_bind]
  rfl

end Trapping
end ConfidentialTx
