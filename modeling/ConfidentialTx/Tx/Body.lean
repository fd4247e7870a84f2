import ConfidentialTx.Transcript.Basic
import ConfidentialTx.Tx.Output

/-! # The signed part of a transaction and its digest

The digest takes the body into a transcript by its structure: a structure and a list begin with a
header that names or counts them, a structure ends with a closer, and a primitive value carries the
name of its type.  Inputs carry no membership proofs, so the list of proofs is empty.

* `TxBody.absorb`: the body as a sequence of labelled byte strings.
* `TxBody.digest`: the thirty-two bytes that are signed. -/

namespace ConfidentialTx

/-- Everything that a transaction signature signs. -/
structure TxBody (P : Type) where
  /-- The ring of every input. -/
  inputs : List (List (Output P))
  outputs : List (Output P)
  fee : UInt64
  /-- The transaction is invalid from this block on. -/
  tombstone : UInt64

namespace Digest
variable {T : Type} [Transcript T]

/-- A labelled text. -/
def text (label content : String) : StateM T Unit :=
  Transcript.absorb label (Bytes.ofString content)

/-- The parts of a structure between its header and its closer. -/
def aggregate (label name : String) (parts : StateM T Unit) : StateM T Unit := do
  text label "agg"
  text "name" name
  parts
  text label "agg-end"
  text "name" name

/-- The members of a list behind its header. -/
def sequence {α : Type} (label : String) (members : List α) (member : α → StateM T Unit) :
    StateM T Unit := do
  text label "seq"
  Transcript.absorbNumber "len" members.length
  members.forM member

/-- A primitive value of a named type. -/
def primitive (label type : String) (data : Bytes) : StateM T Unit := do
  text label "prim"
  Transcript.absorb type data

/-- A number. -/
def number (label : String) (n : UInt64) : StateM T Unit := primitive label "uint" (Bytes.ofWord n)

/-- A point. -/
def point {P : Type} [PointEncoding P] (label : String) (p : P) : StateM T Unit :=
  primitive label "ristretto" (PointEncoding.encode p)

/-- An output. -/
def output {P : Type} [PointEncoding P] (o : Output P) : StateM T Unit :=
  aggregate "" "TxOut" do
    aggregate "amount" "Amount" do
      point "commitment" o.amount.commitment
      number "masked_value" o.amount.masked
    point "target_key" o.targetKey
    point "public_key" o.publicKey
    primitive "e_fog_hint" "bytes" o.hint

/-- An input. -/
def input {P : Type} [PointEncoding P] (ring : List (Output P)) : StateM T Unit :=
  aggregate "" "TxIn" do
    sequence "ring" ring output
    sequence "proofs" ([] : List Unit) fun _ => pure ()

end Digest

namespace TxBody
variable {P : Type} [PointEncoding P]

/-- Takes a body into a transcript. -/
def absorb {T : Type} [Transcript T] (body : TxBody P) : StateM T Unit :=
  Digest.aggregate "mobilecoin-tx-prefix" "TxPrefix" do
    Digest.sequence "inputs" body.inputs Digest.input
    Digest.sequence "outputs" body.outputs Digest.output
    Digest.number "fee" body.fee
    Digest.number "tombstone_block" body.tombstone

/-- The digest of a body. -/
def digest (T : Type) [Transcript T] (body : TxBody P) : Bytes :=
  let run : StateM T Bytes := do
    body.absorb
    Transcript.drawBytes "digest32" 32
  (run.run (Transcript.start "digestible")).1

/-- The rings as the ring signatures see them. -/
def reducedRings (body : TxBody P) : List (List (RingMember P)) :=
  body.inputs.map (·.map Output.reduce)

/-- The commitments of the outputs. -/
def outputCommitments (body : TxBody P) : List P := body.outputs.map (·.amount.commitment)

/-- The wire form. -/
def codec : Codec (TxBody P) :=
  (Output.codec.list.list.both (Output.codec.list.both (Codec.word.both Codec.word))).iso
    (fun (i, o, f, t) => ⟨i, o, f, t⟩) (fun b => (b.inputs, b.outputs, b.fee, b.tombstone))

end TxBody
end ConfidentialTx
