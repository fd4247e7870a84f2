import ConfidentialTx.Random.ChaCha

/-! # Sources of randomness

A source is a byte stream without end and a reading position.  Every draw takes the next bytes of
the stream, so a computation that draws is a `StateM RandomSource`.

* `RandomSource.ofSeed`: the ChaCha12 keystream of a seed of 32 bytes.
* `RandomSource.cycle`: a byte string repeated for ever. -/

namespace ConfidentialTx

/-- A byte stream with a reading position. -/
structure RandomSource where
  /-- The bytes `offset`, …, `offset + count - 1` of the stream. -/
  read : (offset count : Nat) → Bytes
  /-- How many bytes were drawn. -/
  position : Nat := 0

namespace RandomSource

/-- The keystream of a seed. -/
def ofSeed (seed : Bytes) : RandomSource := { read := ChaCha.read seed }

/-- The bytes of `period` repeated for ever. -/
def cycle (period : Bytes) : RandomSource where
  read offset count :=
    let start := offset % period.length
    let copies := (start + count) / period.length + 1
    Bytes.slice (List.replicate copies period).flatten start count

/-- Draws the next `count` bytes. -/
def bytes (count : Nat) : StateM RandomSource Bytes := fun source =>
  (source.read source.position count, { source with position := source.position + count })

/-- Draws `count` times. -/
def times {α : Type} (draw : StateM RandomSource α) : (count : Nat) → StateM RandomSource (List α)
  | 0 => pure []
  | count + 1 => do
    let first ← draw
    let rest ← times draw count
    pure (first :: rest)

end RandomSource
end ConfidentialTx
