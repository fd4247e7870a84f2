import ConfidentialTx.Range.Generators

/-! # Walking through a generator table

A cursor hands out the first `n` generators of each of the first `m` parties, one a step.  It moves
on to the next party on the step after a party's last generator, and it says beforehand how many
steps are left.

* `Cursor.next`: one step.
* `Cursor.remaining`: the number of steps left, capped at the largest 64-bit number; both bounds of
  `Cursor.sizeHint` are this number.
* `Cursor.gather`: the generators left to hand out, if there is room for as many as were promised.
  -/

namespace ConfidentialTx

/-- A position in a table. -/
structure Cursor (P : Type) where
  table : List (List P)
  (n m : Nat)
  party : Nat := 0
  index : Nat := 0

namespace Cursor
variable {P : Type}

/-- A cursor before the first generator of a family. -/
def start (t : Generators P) (family : Family) (n m : Nat) : Cursor P where
  table := t.shares.map (·.family family)
  n := n
  m := m

/-- The generator under the cursor and the cursor behind it. -/
def next (c : Cursor P) : Option P × Cursor P :=
  if c.n = 0 ∨ c.m ≤ c.party then (none, c)
  else
    let c := if c.n ≤ c.index then { c with index := 0, party := c.party + 1 } else c
    if c.m ≤ c.party then (none, c)
    else (c.table[c.party]?.bind (·[c.index]?), { c with index := c.index + 1 })

/-- The number of generators left to hand out, as far as 64 bits hold it. -/
def remaining (c : Cursor P) : Nat := min (c.n * (c.m - c.party)) (UInt64.size - 1) - c.index

/-- The bounds for the number of generators left, a lower one and, if there is one, an upper one. -/
def sizeHint (c : Cursor P) : Nat × Option Nat := (c.remaining, some c.remaining)

/-- The remaining number and the generator of each of the next `count` steps. -/
def steps : (count : Nat) → Cursor P → List (Nat × Option P)
  | 0, _ => []
  | count + 1, c => (c.remaining, c.next.1) :: steps count c.next.2

/-- The generators up to the first step without one, at most `fuel`. -/
def collect : (fuel : Nat) → Cursor P → List P
  | 0, _ => []
  | fuel + 1, c =>
    match c.next with
    | (some p, c) => p :: collect fuel c
    | (none, _) => []

/-- The generators up to the first step without one, at most as many as the table holds. -/
def toList (c : Cursor P) : List P := collect c.table.flatten.length c

/-- The generators up to the first step without one, held all at once.  On the first of them room is
taken for every remaining step, so a cursor that promises more than any memory holds gives nothing,
though its table may be small. -/
def gather (c : Cursor P) : Option (List P) :=
  match c.next with
  | (none, _) => some []
  | (some _, rest) => if fitsMemory (rest.remaining + 1) then some c.toList else none

end Cursor
end ConfidentialTx
