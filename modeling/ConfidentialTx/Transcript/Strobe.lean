import ConfidentialTx.Hash.Keccak
import ConfidentialTx.Transcript.Basic

/-! # The STROBE transcript

The duplex sponge over Keccak with a rate of 166 bytes, restricted to the three operations of a
transcript: labels and lengths as metadata, data, and bytes drawn from the sponge.

* `Strobe.absorb`: bytes combined with the sponge, which is permuted after every 166 of them.
* `Strobe.squeeze`: bytes read from a freshly permuted sponge.  What is read is cleared, which is
  the same as combining the sponge with it. -/

namespace ConfidentialTx

/-- A duplex sponge between two operations. -/
structure Strobe where
  /-- The state after the last permutation. -/
  lanes : Keccak.State
  /-- The bytes combined with the state since then, the newest first. -/
  block : Bytes
  /-- The number of these bytes, below the rate. -/
  size : Nat
  /-- One more than the place where the last operation began, or zero if that was before the last
  permutation. -/
  begun : Nat

namespace Strobe

/-- The number of bytes between two permutations. -/
def rate : Nat := 166

/-- Permutes the state with the waiting bytes and the padding. -/
def flush (s : Strobe) : Strobe :=
  let waiting := Keccak.State.ofBytes (s.block.reverse ++ [UInt8.ofNat s.begun, 0x04])
  let ending := Keccak.State.ofBytes (List.replicate (rate + 1) 0 ++ [0x80])
  ⟨Keccak.permute ((s.lanes.xor waiting).xor ending), [], 0, 0⟩

/-- Combines one byte with the sponge. -/
def absorbByte (s : Strobe) (b : UInt8) : Strobe :=
  let s := { s with block := b :: s.block, size := s.size + 1 }
  if s.size = rate then s.flush else s

/-- Combines bytes with the sponge. -/
def absorb (s : Strobe) (bs : Bytes) : Strobe := bs.foldl absorbByte s

/-- Begins an operation: its place and its flags are combined with the sponge. -/
def begin (s : Strobe) (flags : UInt8) : Strobe :=
  absorb { s with begun := s.size + 1 } [UInt8.ofNat s.begun, flags]

/-- Reads `full` blocks and `count` more bytes from a sponge with no waiting byte. -/
def squeeze : (full count : Nat) → Strobe → Bytes × Strobe
  | 0, count, s =>
    let out := s.lanes.toBytes.take count
    (out, s.absorb out)
  | full + 1, count, s =>
    let out := s.lanes.toBytes.take rate
    let (rest, s) := squeeze full count (s.absorb out)
    (out ++ rest, s)

/-- Metadata: a label and a length of four bytes. -/
def describe (s : Strobe) (label : String) (length : Nat) : Strobe :=
  (s.begin 0x12).absorb (Bytes.ofString label ++ Bytes.ofNat 4 length)

/-- Takes in labelled data. -/
def append (label : String) (data : Bytes) (s : Strobe) : Strobe :=
  ((s.describe label data.length).begin 0x02).absorb data

/-- Gives out labelled bytes. -/
def draw (label : String) (count : Nat) (s : Strobe) : Bytes × Strobe :=
  let s := (s.describe label count).begin 0x07
  squeeze (count / rate) (count % rate) (if s.size = 0 then s else s.flush)

/-- The fresh sponge of the transcript format. -/
def initial : Strobe :=
  let header := [1, 168, 1, 0, 1, 96] ++ Bytes.ofString "STROBEv1.0.2"
  let s : Strobe := ⟨Keccak.permute (.ofBytes header), [], 0, 0⟩
  (s.begin 0x12).absorb (Bytes.ofString "Merlin v1.0")

instance : Transcript Strobe where
  start label := append "dom-sep" (Bytes.ofString label) initial
  append := append
  draw := draw

end Strobe
end ConfidentialTx
