import ConfidentialTx.Proofs.Residues
import ConfidentialTx.Proofs.Rows
import ConfidentialTx.Range.Cursor

/-! # What a cursor hands out

A cursor keeps a party and an index, and moves on to the next party late: on the step after a party's last
generator.  What counts is how many generators lie before the two, so a position at the end of one party and
the one before the next party are the same.

* `getElem?_flatMap_of_length`: an entry of concatenated rows of one length, by its row and column.
* `Cursor.left`: the generators that a cursor has still to hand out, and `Cursor.IsPlaced`: where it may
  stand.
* `Cursor.next_eq`: a step takes the first of them, at a party boundary and past the end as anywhere else.
* `Cursor.after`: the cursor behind any number of steps, and `Cursor.after_eq`: what is left to it.
* `Cursor.hands_out_shares`: so a cursor hands out the shares of the parties one after the other. -/

namespace ConfidentialTx

theorem getElem?_flatMap_of_length {α β : Type} {f : α → List β} {n : ℕ} {xs : List α}
    (h : ∀ x ∈ xs, (f x).length = n) {j i : ℕ} (hi : i < n) :
    (xs.flatMap f)[n * j + i]? = xs[j]?.bind fun x => (f x)[i]? := by
  induction xs generalizing j with
  | nil => rfl
  | cons x xs ih =>
    rw [List.forall_mem_cons] at h
    rw [List.flatMap_cons]
    cases j with
    | zero =>
      rw [Nat.mul_zero, Nat.zero_add, List.getElem?_append_left (hi.trans_eq h.1.symm)]
      rfl
    | succ j =>
      have hposition : n * (j + 1) + i - (f x).length = n * j + i := by
        rw [h.1, Nat.mul_succ]
        omega
      have hbehind : (f x).length ≤ n * (j + 1) + i := by
        rw [h.1, Nat.mul_succ]
        omega
      rw [List.getElem?_append_right hbehind, hposition, ih h.2, List.getElem?_cons_succ]

namespace Cursor
variable {P : Type}

/-- The number of generators before a cursor. -/
def position (c : Cursor P) : ℕ := c.n * c.party + c.index

/-- The generators that a cursor hands out from the first party on. -/
def all (c : Cursor P) : List P := (c.table.take c.m).flatMap (·.take c.n)

/-- The generators that a cursor has still to hand out. -/
def left (c : Cursor P) : List P := c.all.drop c.position

/-- Whether a cursor stands in front of, among or right behind the generators that it hands out, in a table
that has them all, and in a number that 64 bits hold. -/
structure IsPlaced (c : Cursor P) : Prop where
  parties : c.m ≤ c.table.length
  rows : ∀ row ∈ c.table, c.n ≤ row.length
  size : c.n * c.m < UInt64.size
  index : c.index ≤ c.n
  position : c.position ≤ c.n * c.m

variable {c : Cursor P}

namespace IsPlaced

theorem length_row (h : c.IsPlaced) : ∀ row ∈ c.table.take c.m, (row.take c.n).length = c.n := by
  intro row hrow
  rw [List.length_take, Nat.min_eq_left (h.rows row (List.mem_of_mem_take hrow))]

theorem length_all (h : c.IsPlaced) : c.all.length = c.n * c.m := by
  rw [all, List.length_flatMap, List.map_congr_left h.length_row, List.map_const', List.sum_replicate,
    List.length_take, Nat.min_eq_left h.parties, smul_eq_mul, Nat.mul_comm]

theorem length_left (h : c.IsPlaced) : c.left.length = c.n * c.m - c.position := by
  rw [left, List.length_drop, h.length_all]

theorem remaining_eq (h : c.IsPlaced) : c.remaining = c.left.length := by
  have hsize := h.size
  have hle : c.n * (c.m - c.party) ≤ UInt64.size - 1 :=
    (Nat.mul_le_mul_left c.n (Nat.sub_le c.m c.party)).trans (by omega)
  rw [remaining, Nat.min_eq_left hle, h.length_left, Cursor.position, Nat.mul_sub, Nat.sub_sub]

theorem head?_left (h : c.IsPlaced) (hindex : c.index < c.n) (hparty : c.party < c.m) :
    c.left.head? = c.table[c.party]?.bind (·[c.index]?) := by
  rw [left, List.head?_drop, Cursor.position, all, getElem?_flatMap_of_length h.length_row hindex,
    List.getElem?_take_of_lt hparty]
  refine congrArg (c.table[c.party]?.bind ·) (funext fun row => ?_)
  rw [List.getElem?_take_of_lt hindex]

end IsPlaced

/-! ### Steps -/

/-- A cursor behind a party's last generator, before the first one of the next party. -/
def turned (c : Cursor P) : Cursor P :=
  if c.n ≤ c.index then { c with index := 0, party := c.party + 1 } else c

theorem next_eq_turned (c : Cursor P) : c.next =
    if c.n = 0 ∨ c.m ≤ c.party then (none, c)
    else if c.turned.m ≤ c.turned.party then (none, c.turned)
    else (c.turned.table[c.turned.party]?.bind (·[c.turned.index]?),
      { c.turned with index := c.turned.index + 1 }) := rfl

theorem IsPlaced.turned (h : c.IsPlaced) (hn : c.n ≠ 0) :
    c.turned.IsPlaced ∧ c.turned.left = c.left ∧ c.turned.index < c.turned.n := by
  unfold Cursor.turned
  split
  case isTrue hlast =>
    have hindex : c.index = c.n := Nat.le_antisymm h.index hlast
    have hposition : c.n * (c.party + 1) + 0 = c.position := by
      rw [Cursor.position, hindex, Nat.mul_succ, Nat.add_zero]
    refine ⟨⟨h.parties, h.rows, h.size, Nat.zero_le _, hposition.trans_le h.position⟩, ?_,
      Nat.pos_of_ne_zero hn⟩
    exact congrArg (List.drop · c.all) hposition
  case isFalse hwithin => exact ⟨h, rfl, Nat.lt_of_not_le hwithin⟩

theorem IsPlaced.left_eq_nil (h : c.IsPlaced) (hend : c.n = 0 ∨ c.m ≤ c.party) : c.left = [] := by
  refine List.eq_nil_of_length_eq_zero ?_
  rw [h.length_left, Cursor.position]
  rcases hend with hn | hparty
  · rw [hn, Nat.zero_mul, Nat.zero_sub]
  · have hle := Nat.mul_le_mul_left c.n hparty
    omega

/-- A step hands out the first generator of those that are left, and leaves the others. -/
theorem next_eq (h : c.IsPlaced) :
    c.next.1 = c.left.head? ∧ c.next.2.IsPlaced ∧ c.next.2.left = c.left.tail := by
  rw [next_eq_turned]
  split
  case isTrue hend =>
    rw [h.left_eq_nil hend]
    exact ⟨rfl, h, rfl⟩
  case isFalse hbefore =>
    obtain ⟨hturned, hleft, hindex⟩ := h.turned fun hn => hbefore (.inl hn)
    rw [← hleft]
    generalize c.turned = c at hturned hindex
    split
    case isTrue hend =>
      rw [hturned.left_eq_nil (.inr hend)]
      exact ⟨rfl, hturned, rfl⟩
    case isFalse hparty =>
      have hparty := Nat.lt_of_not_le hparty
      have hrow : c.n * (c.party + 1) ≤ c.n * c.m := Nat.mul_le_mul_left c.n hparty
      rw [Nat.mul_succ] at hrow
      refine ⟨(hturned.head?_left hindex hparty).symm, ?_, ?_⟩
      · refine ⟨hturned.parties, hturned.rows, hturned.size, hindex, ?_⟩
        change c.n * c.party + (c.index + 1) ≤ c.n * c.m
        omega
      · rw [left, left, List.tail_drop]
        rfl

/-- The cursor behind `count` steps. -/
def after : (count : ℕ) → Cursor P → Cursor P
  | 0, c => c
  | count + 1, c => after count c.next.2

theorem after_eq (h : c.IsPlaced) (count : ℕ) :
    (c.after count).IsPlaced ∧ (c.after count).left = c.left.drop count := by
  induction count generalizing c with
  | zero => exact ⟨h, rfl⟩
  | succ count ih =>
    obtain ⟨-, hplaced, hleft⟩ := next_eq h
    rw [after]
    rw [← List.drop_tail, ← hleft]
    exact ih hplaced

/-- The hint before a call and its answer, from what was left at first. -/
theorem IsPlaced.call_eq (h : c.IsPlaced) (count : ℕ) :
    (c.after count).remaining = (c.left.drop count).length ∧
      (c.after count).next.1 = c.left[count]? := by
  obtain ⟨hplaced, hleft⟩ := after_eq h count
  rw [hplaced.remaining_eq, (next_eq hplaced).1, hleft, List.head?_drop]
  exact ⟨rfl, rfl⟩

theorem steps_eq (count : ℕ) (c : Cursor P) : steps count c =
    (List.range count).map fun k => ((c.after k).remaining, (c.after k).next.1) := by
  induction count generalizing c with
  | zero => rfl
  | succ count ih =>
    rw [steps, ih, List.range_succ_eq_map, List.map_cons, List.map_map]
    rfl

theorem IsPlaced.next_of_nil (h : c.IsPlaced) (hleft : c.left = []) : ∃ rest, c.next = (none, rest) := by
  obtain ⟨hanswer, -, -⟩ := next_eq h
  rw [hleft] at hanswer
  exact ⟨c.next.2, Prod.ext hanswer rfl⟩

theorem IsPlaced.next_of_cons (h : c.IsPlaced) {p : P} {ps : List P} (hleft : c.left = p :: ps) :
    ∃ rest : Cursor P, c.next = (some p, rest) ∧ rest.IsPlaced ∧ rest.left = ps := by
  obtain ⟨hanswer, hplaced, hrest⟩ := next_eq h
  rw [hleft] at hanswer hrest
  exact ⟨c.next.2, Prod.ext hanswer rfl, hplaced, hrest⟩

theorem collect_eq (h : c.IsPlaced) {fuel : ℕ} (hfuel : c.left.length ≤ fuel) :
    collect fuel c = c.left := by
  induction fuel generalizing c with
  | zero => exact (List.eq_nil_of_length_eq_zero (Nat.le_zero.mp hfuel)).symm
  | succ fuel ih =>
    cases hc : c.left with
    | nil =>
      obtain ⟨rest, hnext⟩ := h.next_of_nil hc
      rw [collect, hnext]
    | cons p ps =>
      obtain ⟨rest, hnext, hplaced, hrest⟩ := h.next_of_cons hc
      have henough : rest.left.length ≤ fuel := by
        rw [hc, List.length_cons] at hfuel
        rw [hrest]
        exact Nat.le_of_succ_le_succ hfuel
      rw [collect, hnext]
      exact congrArg (p :: ·) ((ih hplaced henough).trans hrest)

theorem length_rows_le (table : List (List P)) (n m : ℕ) :
    ((table.take m).flatMap (·.take n)).length ≤ table.flatten.length := by
  induction table generalizing m with
  | nil => simp
  | cons row table ih =>
    cases m with
    | zero => exact Nat.zero_le _
    | succ m =>
      have hrow : (row.take n).length ≤ row.length := List.length_take_le' n row
      rw [List.take_succ_cons, List.flatMap_cons, List.flatten_cons, List.length_append,
        List.length_append]
      exact Nat.add_le_add hrow (ih m)

/-- No table is too small for what a cursor hands out of it. -/
theorem toList_eq (h : c.IsPlaced) : c.toList = c.left := by
  refine collect_eq h (Nat.le_trans ?_ (length_rows_le c.table c.n c.m))
  rw [left, List.length_drop]
  exact Nat.sub_le _ _

/-- What is left is held all at once, if some memory has room for it. -/
theorem gather_eq (h : c.IsPlaced) (hfits : fitsMemory c.left.length = true) :
    c.gather = some c.left := by
  unfold gather
  cases hc : c.left with
  | nil =>
    obtain ⟨rest, hnext⟩ := h.next_of_nil hc
    rw [hnext]
  | cons p ps =>
    obtain ⟨rest, hnext, hplaced, hrest⟩ := h.next_of_cons hc
    have hcount : rest.remaining + 1 = c.left.length := by
      rw [hplaced.remaining_eq, hrest, hc, List.length_cons]
    rw [hnext]
    change (if fitsMemory (rest.remaining + 1) then some c.toList else none) = some (p :: ps)
    rw [hcount, if_pos hfits, toList_eq h, hc]

/-! ### From the first generator on -/

section Start
variable {t : Generators P} {n m : ℕ}

theorem isPlaced_start (hn : n ≤ t.capacity) (hm : m ≤ t.parties) (hsize : n * m < UInt64.size)
    (family : Family) : (start t family n m).IsPlaced := by
  refine ⟨?_, ?_, hsize, Nat.zero_le _, Nat.zero_le _⟩
  · exact hm.trans_eq (List.length_map _).symm
  · intro row hrow
    obtain ⟨share, hshare, rfl⟩ := List.mem_map.mp hrow
    exact hn.trans_eq (t.full share hshare family).symm

theorem left_start (t : Generators P) (family : Family) (n m : ℕ) :
    (start t family n m).left = t.vector family n m := by
  change (((t.shares.map (·.family family)).take m).flatMap (·.take n)).drop (n * 0 + 0) = _
  rw [Nat.mul_zero, List.drop_zero, ← List.map_take, List.flatMap_map]
  rfl

end Start

/-- **Handout.**  For every table, both families, and a first part of it whose size 64 bits hold, nothing
among others: the shares of the first parties exist, and the cursor hands out their first generators, party
after party, as the vector of the range proofs has them.  Before every call both bounds of the hint are the
number of generators still to come.  Once a call has given nothing, it and all later calls find a hint of
zero and give nothing. -/
theorem hands_out_shares (t : Generators P) (family : Family) {n m : ℕ} (hn : n ≤ t.capacity)
    (hm : m ≤ t.parties) (hsize : n * m < 2 ^ 64) :
    ∃ rows : List (List P), rows.length = m ∧ (∀ j < m, rows[j]? = t.row family j n) ∧
      let c := start t family n m
      let items := rows.flatten
      items.length = n * m ∧ items = t.vector family n m ∧ c.toList = items ∧
      (fitsMemory (n * m) = true → c.gather = some items) ∧
      (∀ count, c.steps count =
        (List.range count).map fun k => ((items.drop k).length, items[k]?)) ∧
      (∀ k, (c.after k).sizeHint = ((items.drop k).length, some (items.drop k).length) ∧
        (c.after k).next.1 = items[k]?) ∧
      ∀ k, (c.after k).next.1 = none → ∀ later ≥ k,
        (c.after later).sizeHint = (0, some 0) ∧ (c.after later).next.1 = none := by
  have hplaced := isPlaced_start hn hm hsize family
  have hleft := left_start t family n m
  have hlength : (t.vector family n m).length = n * m := Generators.length_vector hn hm family
  have hcall := hplaced.call_eq
  rw [hleft] at hcall
  have hrows : ((t.shares.take m).map fun s => (s.family family).take n).flatten =
      t.vector family n m := (List.flatMap_def ..).symm
  refine ⟨(t.shares.take m).map fun s => (s.family family).take n, ?_, ?_, ?_⟩
  · rw [List.length_map, List.length_take]
    exact Nat.min_eq_left hm
  · intro j hj
    rw [List.getElem?_map, List.getElem?_take_of_lt hj]
    rfl
  · rw [hrows]
    refine ⟨hlength, rfl, (toList_eq hplaced).trans hleft, fun hfits => ?_, fun count => ?_, fun k => ?_, ?_⟩
    · rw [gather_eq hplaced (by rwa [hleft, hlength]), hleft]
    · rw [steps_eq]
      exact List.map_congr_left fun k _ => Prod.ext (hcall k).1 (hcall k).2
    · exact ⟨Prod.ext (hcall k).1 (congrArg some (hcall k).1), (hcall k).2⟩
    · intro k hk later hlater
      rw [(hcall k).2, List.getElem?_eq_none_iff] at hk
      have hnone : (t.vector family n m)[later]? = none := List.getElem?_eq_none (hk.trans hlater)
      have hzero : ((start t family n m).after later).remaining = 0 := by
        rw [(hcall later).1, List.length_drop, Nat.sub_eq_zero_of_le (hk.trans hlater)]
      exact ⟨Prod.ext hzero (congrArg some hzero), (hcall later).2.trans hnone⟩

/-- Two generators of each of two parties of a larger table: four steps hand them out, the third one the
first generator of the second party, and the two steps behind them nothing. -/
theorem hands_out_shares_of_two :
    let c := start (Residue.table 3 2) .H 2 2
    (c.steps 6).map (·.1) = [4, 3, 2, 1, 0, 0] ∧
    (c.after 2).next.1 = ((Residue.table 3 2).vector .H 2 2)[2]? ∧
    c.toList = (Residue.table 3 2).vector .H 2 2 ∧
    (c.after 5).sizeHint = (0, some 0) := by
  intro c
  obtain ⟨rows, -, -, hlength, hvector, hlist, -, hsteps, hcalls, hexhausted⟩ :=
    hands_out_shares (Residue.table 3 2) .H (n := 2) (m := 2) (by decide) (by decide) (by decide)
  have hnothing : (c.after 4).next.1 = none :=
    (hcalls 4).2.trans (List.getElem?_eq_none hlength.le)
  refine ⟨?_, ?_, hlist.trans hvector, (hexhausted 4 hnothing 5 (by decide)).1⟩
  · rw [hsteps, List.map_map]
    simp only [Function.comp_def, List.length_drop, hlength]
    rfl
  · rw [← hvector]
    exact (hcalls 2).2

end Cursor
end ConfidentialTx
