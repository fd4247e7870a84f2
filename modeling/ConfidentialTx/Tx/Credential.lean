import ConfidentialTx.Tx.Output

/-! # Spend credentials

A credential holds an output to spend, hidden in a ring of outputs.  The ring is kept in one order,
increasing in the encoded public key, with one member per public key.

* `sortByKey`, `insertKeyed`: stable sorting and insertion by a byte-string key.
* `canonicalRing`: the ring of a real output among given decoys.
* `Credential.create`: refused unless the private key owns the real output. -/

namespace ConfidentialTx

section Sorting
variable {α : Type}

/-- Inserts an entry into a list increasing in its keys; an entry of the same key is replaced. -/
def insertKeyed (entry : Bytes × α) : List (Bytes × α) → List (Bytes × α)
  | [] => [entry]
  | other :: rest =>
    if entry.1 = other.1 then entry :: rest
    else if entry.1.le other.1 then entry :: other :: rest
    else other :: insertKeyed entry rest

/-- Sorts by a key; entries of the same key keep their order. -/
def sortByKey (key : α → Bytes) (xs : List α) : List α :=
  ((xs.map fun x => (key x, x)).mergeSort fun x y => x.1.le y.1).map (·.2)

end Sorting

/-- All that is needed to spend one output. -/
structure Credential (F P : Type) where
  /-- The ring, increasing in the encoded public key. -/
  ring : List (Output P)
  /-- The position of the real output in the ring. -/
  realIndex : Nat
  onetimeKey : F
  viewKey : F

section Ring
variable {P : Type} [PointEncoding P] [BEq P]

/-- The key by which outputs are ordered. -/
def Output.sortKey (output : Output P) : Bytes := PointEncoding.encode output.publicKey

/-- The ring with the real output in the place of the first member, unless the ring has it. -/
def withRealOutput (real : Output P) (ring : List (Output P)) : List (Output P) :=
  if ring.contains real then ring else real :: ring.tail

/-- The members by public key, a later one in the place of an earlier one with the same key, and the
real output in the place of any. -/
def canonicalRing (real : Output P) (ring : List (Output P)) : List (Output P) :=
  ((withRealOutput real ring ++ [real]).foldl
    (fun sorted output => insertKeyed (output.sortKey, output) sorted) []).map (·.2)

end Ring

namespace Credential
variable {F P : Type}

/-- A credential for a real output among the members of a ring. -/
def create [SMul F P] [PointEncoding P] [BasePoint P] [BEq P] (real : Output P)
    (ring : List (Output P)) (onetimeKey viewKey : F) :
    Except TransactionError (Credential F P) := do
  unless onetimeKey • (base : P) == real.targetKey do throw .onetimeKeyMismatch
  let sorted := canonicalRing real ring
  match sorted.findIdx? (· == real) with
  | none => throw .onetimeKeyMismatch
  | some i => pure ⟨sorted, i, onetimeKey, viewKey⟩

/-- The output being spent. -/
def realOutput (credential : Credential F P) : Option (Output P) :=
  credential.ring[credential.realIndex]?

/-- The ring as a ring signature sees it. -/
def reducedRing (credential : Credential F P) : List (RingMember P) :=
  credential.ring.map Output.reduce

/-- The value and blinding factor of the real output. -/
def unmask [ScalarEncoding F] [ScalarHash F] [NatCast F] [PointEncoding P] [PointHash P]
    [BasePoint P] [SMul F P] [MultiScalar F P] [BEq P] (credential : Credential F P) :
    Except TransactionError (Opening F) :=
  match credential.realOutput with
  | none => .error .onetimeKeyMismatch
  | some output => output.unmask credential.viewKey

end Credential
end ConfidentialTx
