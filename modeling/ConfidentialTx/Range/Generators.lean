import ConfidentialTx.Group

/-! # Generator tables

Every party of a range proof owns two families of generators, `G` and `H`, read from byte streams
keyed by family and party: generator `i` is the point of the bytes `64 i`, …, `64 i + 63`.

* `Generators.build`: the table of a given capacity for a given number of parties.
* `Generators.increase`: the same table with a larger capacity; what is there stays.
* `Generators.vector`: the first generators of the first parties, party after party.

A stream is a function from a key and a length to that many bytes. -/

namespace ConfidentialTx

/-- The two families of generators. -/
inductive Family where
  | G
  | H
deriving DecidableEq, Repr

/-- The letter of a family, as a byte of text. -/
def Family.letter : Family → UInt8
  | G => 71
  | H => 72

/-- The generators of one party. -/
structure Share (P : Type) where
  (G H : List P)

/-- The generators of one family of a party. -/
def Share.family {P : Type} (s : Share P) : Family → List P
  | .G => s.G
  | .H => s.H

/-- A table of generators: one share per party, each with `capacity` generators per family. -/
structure Generators (P : Type) where
  capacity : Nat
  shares : List (Share P)
  full : ∀ s ∈ shares, ∀ f, (s.family f).length = capacity

namespace Generators
variable {P : Type}

/-- The key of the stream of a family and a party. -/
def chainKey (family : Family) (party : Nat) : Bytes :=
  Bytes.ofString "GeneratorsChain" ++ family.letter :: Bytes.ofNat 4 party

/-- The generators `skip`, …, `skip + count - 1` of a family and a party. -/
def chain [PointEncoding P] (stream : Bytes → Nat → Bytes) (family : Family)
    (party skip count : Nat) : List P :=
  let bytes := stream (chainKey family party) (64 * (skip + count))
  (Bytes.blocks 64 count (bytes.drop (64 * skip))).map PointEncoding.ofUniform

@[simp] theorem length_chain [PointEncoding P] (stream : Bytes → Nat → Bytes) (family : Family)
    (party skip count : Nat) :
    (chain stream family party skip count : List P).length = count := by
  simp [chain]

/-- The number of parties. -/
def parties (t : Generators P) : Nat := t.shares.length

/-- The share of party `j`. -/
def share (t : Generators P) (j : Nat) : Option (Share P) := t.shares[j]?

/-- The first `n` generators of one family of party `j`, none if there is no such party. -/
def row (t : Generators P) (family : Family) (j n : Nat) : Option (List P) :=
  (t.share j).map fun s => (s.family family).take n

/-- The first `n` generators of one family of each of the first `m` parties. -/
def vector (t : Generators P) (family : Family) (n m : Nat) : List P :=
  (t.shares.take m).flatMap fun s => (s.family family).take n

/-- The table of no generators. -/
def empty (parties : Nat) : Generators P where
  capacity := 0
  shares := List.replicate parties ⟨[], []⟩
  full s hs f := by
    obtain rfl := (List.mem_replicate.mp hs).2
    cases f <;> rfl

/-- A share continued by the generators `capacity`, …, `larger - 1` of its party. -/
def extendShare [PointEncoding P] (stream : Bytes → Nat → Bytes) (capacity larger j : Nat)
    (s : Share P) : Share P :=
  ⟨s.G ++ chain stream .G j capacity (larger - capacity),
    s.H ++ chain stream .H j capacity (larger - capacity)⟩

/-- The table with at least `larger` generators per family and party. -/
def increase [PointEncoding P] (stream : Bytes → Nat → Bytes) (t : Generators P) (larger : Nat) :
    Generators P :=
  if h : larger ≤ t.capacity then t
  else
    { capacity := larger
      shares := t.shares.mapIdx (extendShare stream t.capacity larger)
      full := by
        intro s hs f
        obtain ⟨i, hi, rfl⟩ := List.mem_mapIdx.mp hs
        have hfull := t.full t.shares[i] (List.getElem_mem hi) f
        cases f <;> simp only [Share.family, extendShare, List.length_append, length_chain] at * <;>
          omega }

/-- The table of `capacity` generators per family for `parties` parties. -/
def build [PointEncoding P] (stream : Bytes → Nat → Bytes) (capacity parties : Nat) :
    Generators P :=
  (empty parties).increase stream capacity

end Generators
end ConfidentialTx
