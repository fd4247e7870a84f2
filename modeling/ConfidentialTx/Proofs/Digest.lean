import ConfidentialTx.Proofs.Records
import ConfidentialTx.Proofs.Residues
import ConfidentialTx.Transcript.Strobe
import ConfidentialTx.Tx.Builder

/-! # What a transaction signature signs

The digest of a body flattens lists of lists into one record, and the signed message joins the digest, any
number of points and the range proof without a length.  Both are read back from the front.

* `ReadsBack`: entries that are read back whatever follows them, and how they are put together.
* `Digest.readsBack_output`, `Digest.readsBack_input`, `TxBody.readsBack_operations`: the operations of
  the digest.  A list ends where an operation follows that begins none of its members.
* `LawfulTranscript`: a transcript gives as many bytes as are drawn; that of STROBE does.
* `Tx.signed_determines`: the history of the digest determines the body, and the signed message, if
  equal digests come from equal histories, everything that is signed. -/

namespace ConfidentialTx

/-! ### Reading back from the front -/

/-- Whether the entries of a value are read back, whatever follows them. -/
def ReadsBack {α γ : Type} (f : α → List γ) : Prop :=
  ∀ ⦃x y r r'⦄, f x ++ r = f y ++ r' → x = y ∧ r = r'

namespace ReadsBack
variable {α β γ : Type} {f : α → List γ} {g : β → List γ}

theorem congr (hf : ReadsBack f) {f' : α → List γ} (h : ∀ x, f' x = f x) : ReadsBack f' :=
  (funext h : f' = f) ▸ hf

theorem both (hf : ReadsBack f) (hg : ReadsBack g) : ReadsBack fun p : α × β => f p.1 ++ g p.2 := by
  rintro ⟨x, y⟩ ⟨x', y'⟩ r r' h
  rw [List.append_assoc, List.append_assoc] at h
  obtain ⟨hx, h⟩ := hf h
  obtain ⟨hy, hr⟩ := hg h
  exact ⟨Prod.ext hx hy, hr⟩

/-- What is read from a part that determines the value. -/
theorem comp (hf : ReadsBack f) {e : β → α} (he : Function.Injective e) : ReadsBack fun y => f (e y) :=
  fun _ _ _ _ h => (hf h).imp_left fun hxy => he hxy

/-- Behind a header of a fixed length. -/
theorem headed (hf : ReadsBack f) {header : α → List γ}
    (hheader : ∀ x y, (header x).length = (header y).length) : ReadsBack fun x => header x ++ f x := by
  intro x y r r' h
  rw [List.append_assoc, List.append_assoc] at h
  exact hf (List.append_inj h (hheader x y)).2

/-- Before a fixed closer. -/
theorem closed (hf : ReadsBack f) (closer : List γ) : ReadsBack fun x => f x ++ closer := by
  intro x y r r' h
  rw [List.append_assoc, List.append_assoc] at h
  exact (hf h).imp_right List.append_cancel_left

/-- A list up to an entry with which no member begins. -/
theorem many (hf : ReadsBack f) {stop : γ} (hstop : ∀ x r r', f x ++ r ≠ stop :: r') :
    ReadsBack fun xs : List α => xs.flatMap f ++ [stop] := by
  intro xs ys r r' h
  rw [List.append_assoc, List.append_assoc, List.singleton_append, List.singleton_append] at h
  induction xs generalizing ys with
  | nil =>
    cases ys with
    | nil => exact ⟨rfl, (List.cons.inj h).2⟩
    | cons y ys =>
      rw [List.flatMap_cons, List.append_assoc] at h
      exact absurd h.symm (hstop y _ _)
  | cons x xs ih =>
    rw [List.flatMap_cons, List.append_assoc] at h
    cases ys with
    | nil => exact absurd h (hstop x _ _)
    | cons y ys =>
      rw [List.flatMap_cons, List.append_assoc] at h
      obtain ⟨rfl, hrest⟩ := hf h
      obtain ⟨rfl, hr⟩ := ih hrest
      exact ⟨rfl, hr⟩

end ReadsBack

/-! ### The operations of the digest -/

theorem Bytes.ofWord_eq (w : UInt64) : Bytes.ofWord w = Bytes.ofNat 8 w.toNat := by
  simp only [Bytes.ofWord, Bytes.ofNat, List.cons.injEq, and_true, ← UInt8.toNat_inj]
  simp [Nat.shiftRight_eq_div_pow, Nat.div_div_eq_div_mul]

theorem Bytes.ofWord_injective : Function.Injective Bytes.ofWord := by
  intro w w' h
  have hsize : 1 <<< (8 * 8) = 2 ^ 64 := by decide
  have hbytes := congrArg Bytes.toNat h
  rw [ofWord_eq, ofWord_eq, toNat_ofNat, toNat_ofNat, hsize, Nat.mod_eq_of_lt w.toNat_lt,
    Nat.mod_eq_of_lt w'.toNat_lt] at hbytes
  exact UInt64.toNat_inj.mp hbytes

namespace Digest

/-- The operation of a text. -/
def textOp (label content : String) : Operation := .append label (Bytes.ofString content)

/-- The operations of a structure. -/
def aggregateOps (label name : String) (parts : List Operation) : List Operation :=
  [textOp label "agg", textOp "name" name] ++ (parts ++ [textOp label "agg-end", textOp "name" name])

/-- The operations of a list with as many members. -/
def sequenceOps (label : String) (count : ℕ) (members : List Operation) : List Operation :=
  [textOp label "seq", .number "len" count] ++ members

/-- The operations of a primitive value. -/
def primitiveOps (label type : String) (data : Bytes) : List Operation :=
  [textOp label "prim", .append type data]

/-- The operations of a number. -/
def numberOps (label : String) (n : UInt64) : List Operation := primitiveOps label "uint" (Bytes.ofWord n)

section
variable {P : Type} [PointEncoding P]

/-- The operations of a point. -/
def pointOps (label : String) (p : P) : List Operation :=
  primitiveOps label "ristretto" (PointEncoding.encode p)

/-- The operations of an output. -/
def outputOps (o : Output P) : List Operation :=
  aggregateOps "" "TxOut" (aggregateOps "amount" "Amount"
    (pointOps "commitment" o.amount.commitment ++ numberOps "masked_value" o.amount.masked) ++
      (pointOps "target_key" o.targetKey ++ (pointOps "public_key" o.publicKey ++
        primitiveOps "e_fog_hint" "bytes" o.hint)))

/-- The operations of an input. -/
def inputOps (ring : List (Output P)) : List Operation :=
  aggregateOps "" "TxIn" (sequenceOps "ring" ring.length (ring.flatMap outputOps) ++
    sequenceOps "proofs" 0 [])

end

/-! ### The operations are read back -/

theorem readsBack_primitive {α : Type} {encode : α → Bytes} (h : Function.Injective encode)
    (label type : String) : ReadsBack fun a => primitiveOps label type (encode a) := by
  intro a b r r' heq
  obtain ⟨-, heq⟩ := List.cons.inj heq
  obtain ⟨hop, hr⟩ := List.cons.inj heq
  exact ⟨h (Operation.append.inj hop).2, hr⟩

theorem readsBack_aggregate {α : Type} {f : α → List Operation} (h : ReadsBack f) (label name : String) :
    ReadsBack fun a => aggregateOps label name (f a) :=
  (h.closed _).headed fun _ _ => rfl

theorem textOp_ne {label label' : String} (h : label ≠ label') (content content' : String) :
    textOp label content ≠ textOp label' content' := fun heq => h (Operation.append.inj heq).1

section
variable {P : Type} [PointEncoding P] (hP : Function.Injective (PointEncoding.encode : P → Bytes))
include hP

theorem readsBack_output : ReadsBack (outputOps : Output P → List Operation) := by
  have hpoint := fun label => readsBack_primitive hP label "ristretto"
  have hnumber := readsBack_primitive Bytes.ofWord_injective "masked_value" "uint"
  have hhint := readsBack_primitive Function.injective_id "e_fog_hint" "bytes"
  have hamount := readsBack_aggregate ((hpoint "commitment").both hnumber) "amount" "Amount"
  have hparts := hamount.both ((hpoint "target_key").both ((hpoint "public_key").both hhint))
  let parts (o : Output P) := ((o.amount.commitment, o.amount.masked), o.targetKey, o.publicKey, o.hint)
  have hparts_inj : Function.Injective parts := by
    rintro ⟨⟨c, m⟩, t, p, hint⟩ ⟨⟨c', m'⟩, t', p', hint'⟩ h
    cases h
    rfl
  exact ((readsBack_aggregate hparts "" "TxOut").comp hparts_inj).congr fun _ => rfl

/-- The members of a list of outputs begin with a structure without a label. -/
theorem readsBack_outputs {label : String} (h : "" ≠ label) (content : String) :
    ReadsBack fun os : List (Output P) => os.flatMap outputOps ++ [textOp label content] :=
  (readsBack_output hP).many fun _ _ _ heq => textOp_ne h _ _ (List.cons.inj heq).1

theorem readsBack_input : ReadsBack (inputOps : List (Output P) → List Operation) := by
  let header (ring : List (Output P)) : List Operation := [textOp "ring" "seq", .number "len" ring.length]
  have hring := ((readsBack_outputs hP (by decide : "" ≠ "proofs") "seq").closed
    [.number "len" 0]).headed (fun _ _ => rfl : ∀ x y, (header x).length = (header y).length)
  refine (readsBack_aggregate hring "" "TxIn").congr fun ring => ?_
  simp [inputOps, sequenceOps, header]

end

/-! ### The digest makes these operations -/

section Records
variable {answer : List Operation → Bytes} {m : StateM (History answer) Unit} {ops : List Operation}

theorem records_text (label content : String) :
    Records answer (text label content) [textOp label content] :=
  .absorb label (Bytes.ofString content)

theorem records_aggregate (label name : String) (h : Records answer m ops) :
    Records answer (aggregate label name m) (aggregateOps label name ops) :=
  (records_text label "agg").bind fun _ => (records_text "name" name).bind fun _ => h.bind fun _ =>
    (records_text label "agg-end").bind fun _ => records_text "name" name

theorem records_sequence {α : Type} (label : String) {member : α → StateM (History answer) Unit}
    {f : α → List Operation} (h : ∀ a, Records answer (member a) (f a)) (as : List α) :
    Records answer (sequence label as member) (sequenceOps label as.length (as.flatMap f)) :=
  (records_text label "seq").bind fun _ => (Records.absorb "len" _).bind fun _ => Records.forM h as

theorem records_primitive (label type : String) (data : Bytes) :
    Records answer (primitive label type data) (primitiveOps label type data) :=
  (records_text label "prim").bind fun _ => .absorb type data

variable {P : Type} [PointEncoding P]

theorem records_output (o : Output P) : Records answer (output o) (outputOps o) :=
  records_aggregate _ _ <| (records_aggregate _ _ <| (records_primitive _ _ _).bind fun _ =>
    records_primitive _ _ _).bind fun _ => (records_primitive _ _ _).bind fun _ =>
      (records_primitive _ _ _).bind fun _ => records_primitive _ _ _

theorem records_input (ring : List (Output P)) : Records answer (input ring) (inputOps ring) :=
  records_aggregate _ _ <| (records_sequence _ records_output ring).bind fun _ =>
    records_sequence (f := fun _ => []) "proofs" (fun _ => .pure ()) []

end Records
end Digest

namespace TxBody
variable {P : Type} [PointEncoding P]

/-! ### The body -/

/-- The run behind the digest. -/
def digestRun {T : Type} [Transcript T] (body : TxBody P) : StateM T Bytes := do
  body.absorb
  Transcript.drawBytes "digest32" 32

theorem digest_eq (T : Type) [Transcript T] (body : TxBody P) :
    body.digest T = (body.digestRun.run (Transcript.start "digestible" : T)).1 := rfl

open Digest

/-- The operations of a body. -/
def operations (body : TxBody P) : List Operation :=
  aggregateOps "mobilecoin-tx-prefix" "TxPrefix"
    (sequenceOps "inputs" body.inputs.length (body.inputs.flatMap inputOps) ++
      (sequenceOps "outputs" body.outputs.length (body.outputs.flatMap outputOps) ++
        (numberOps "fee" body.fee ++ numberOps "tombstone_block" body.tombstone)))

theorem records_absorb {answer : List Operation → Bytes} (body : TxBody P) :
    Records answer body.absorb body.operations :=
  records_aggregate _ _ <| (records_sequence _ records_input body.inputs).bind fun _ =>
    (records_sequence _ records_output body.outputs).bind fun _ => (records_primitive _ _ _).bind fun _ =>
      records_primitive _ _ _

/-- The history of the digest: all operations of its run, with any answers to the draw. -/
def history (answer : List Operation → Bytes) (body : TxBody P) : List Operation :=
  (body.digestRun.run (Transcript.start "digestible" : History answer)).2.log

theorem history_eq (answer : List Operation → Bytes) (body : TxBody P) :
    body.history answer = .start "digestible" :: (body.operations ++ [.draw "digest32" 32]) :=
  ((records_absorb body).bind fun _ => .drawBytes "digest32" 32) (Transcript.start "digestible")

section
variable (hP : Function.Injective (PointEncoding.encode : P → Bytes))
include hP

theorem readsBack_operations : ReadsBack (operations : TxBody P → List Operation) := by
  let inputsHeader (inputs : List (List (Output P))) : List Operation :=
    [textOp "inputs" "seq", .number "len" inputs.length]
  let outputsHeader (outputs : List (Output P)) : List Operation := [.number "len" outputs.length]
  have hinputs := ((readsBack_input hP).many (fun (_ : List (Output P)) _ _ heq =>
    textOp_ne (by decide : "" ≠ "outputs") "agg" "seq" (List.cons.inj heq).1)).headed
      (fun _ _ => rfl : ∀ x y, (inputsHeader x).length = (inputsHeader y).length)
  have houtputs := (readsBack_outputs hP (by decide : "" ≠ "fee") "prim").headed
    (fun _ _ => rfl : ∀ x y, (outputsHeader x).length = (outputsHeader y).length)
  have hfee : ReadsBack fun fee => [Operation.append "uint" (Bytes.ofWord fee)] := by
    intro fee fee' r r' h
    obtain ⟨hop, hr⟩ := List.cons.inj h
    exact ⟨Bytes.ofWord_injective (Operation.append.inj hop).2, hr⟩
  have htombstone := readsBack_primitive Bytes.ofWord_injective "tombstone_block" "uint"
  have hparts := hinputs.both (houtputs.both (hfee.both htombstone))
  let parts (body : TxBody P) := (body.inputs, body.outputs, body.fee, body.tombstone)
  have hparts_inj : Function.Injective parts := by
    rintro ⟨i, o, f, t⟩ ⟨i', o', f', t'⟩ h
    cases h
    rfl
  refine ((readsBack_aggregate hparts "mobilecoin-tx-prefix" "TxPrefix").comp hparts_inj).congr
    fun body => ?_
  simp [operations, sequenceOps, numberOps, primitiveOps, inputsHeader, outputsHeader, parts]

theorem history_inj {answer : List Operation → Bytes} {body body' : TxBody P} :
    body.history answer = body'.history answer ↔ body = body' := by
  refine ⟨fun h => ?_, fun h => h ▸ rfl⟩
  rw [history_eq, history_eq] at h
  exact (readsBack_operations hP (List.cons.inj h).2).1

end

end TxBody

/-! ### The signed message -/

/-- Transcripts that give as many bytes as are drawn. -/
class LawfulTranscript (T : Type) [Transcript T] : Prop where
  length_draw : ∀ (label : String) (count : ℕ) (t : T), (Transcript.draw label count t).1.length = count

namespace Strobe

theorem length_squeeze (full : ℕ) {count : ℕ} (hcount : count ≤ 200) (s : Strobe) :
    (squeeze full count s).1.length = rate * full + count := by
  induction full generalizing s with
  | zero => simp [squeeze, hcount]
  | succ full ih =>
    have hrate : (s.lanes.toBytes.take rate).length = rate := by simp [rate]
    rw [squeeze, List.length_append, hrate, ih, Nat.mul_succ]
    omega

instance : LawfulTranscript Strobe where
  length_draw label count s := by
    have hcount : count % rate ≤ 200 := (Nat.mod_lt count (by decide)).le.trans (by decide)
    change (squeeze (count / rate) (count % rate) _).1.length = count
    rw [length_squeeze _ hcount, Nat.div_add_mod]

end Strobe

section Message
variable {P : Type} [PointEncoding P]

theorem TxBody.length_digest {T : Type} [Transcript T] [LawfulTranscript T] (body : TxBody P) :
    (body.digest T).length = 32 :=
  LawfulTranscript.length_draw _ _ _

variable (hP : Function.Injective (PointEncoding.encode : P → Bytes))
variable (hwidth : ∀ p : P, (PointEncoding.encode p).length = 32)
include hP hwidth

/-- A signed message is read back, if the digest in it tells how many points follow. -/
theorem TxSignature.extendMessage_inj {digest digest' : Bytes} {ps ps' : List P}
    {rangeProof rangeProof' : Bytes} (hdigest : digest.length = digest'.length)
    (hps : digest = digest' → ps.length = ps'.length) :
    extendMessage digest ps rangeProof = extendMessage digest' ps' rangeProof' ↔
      digest = digest' ∧ ps = ps' ∧ rangeProof = rangeProof' := by
  refine ⟨fun h => ?_, fun ⟨hd, hp, hr⟩ => by rw [hd, hp, hr]⟩
  unfold extendMessage at h
  rw [List.append_assoc, List.append_assoc] at h
  obtain ⟨rfl, htail⟩ := List.append_inj h hdigest
  have hlength : (ps.flatMap PointEncoding.encode).length = (ps'.flatMap PointEncoding.encode).length := by
    simp [List.length_flatMap, hwidth, hps rfl]
  obtain ⟨hpoints, hproof⟩ := List.append_inj htail hlength
  exact ⟨rfl, flatMap_inj hP (by decide) hwidth hpoints, hproof⟩

/-- **What is signed.**  Points have different encodings of thirty-two bytes.  Two bodies with one history of
their digest are equal.  And two transactions with as many pseudo-outputs as inputs whose signed messages are
equal have the same body, pseudo-outputs and range proof, if their digests are only equal for equal
histories. -/
theorem Tx.signed_determines {F : Type} (T : Type) [Transcript T] [LawfulTranscript T]
    (answer : List Operation → Bytes) :
    (∀ body body' : TxBody P, body.history answer = body'.history answer ↔ body = body') ∧
    ∀ tx tx' : Tx F P, tx.signature.pseudoOutputs.length = tx.body.inputs.length →
      tx'.signature.pseudoOutputs.length = tx'.body.inputs.length →
      (tx.body.digest T = tx'.body.digest T → tx.body.history answer = tx'.body.history answer) →
      (TxSignature.extendMessage (tx.body.digest T) tx.signature.pseudoOutputs tx.signature.rangeProof =
          TxSignature.extendMessage (tx'.body.digest T) tx'.signature.pseudoOutputs tx'.signature.rangeProof ↔
        tx.body = tx'.body ∧ tx.signature.pseudoOutputs = tx'.signature.pseudoOutputs ∧
          tx.signature.rangeProof = tx'.signature.rangeProof) := by
  refine ⟨fun _ _ => TxBody.history_inj hP, fun tx tx' hlen hlen' hbinding => ?_⟩
  have hbody : tx.body.digest T = tx'.body.digest T → tx.body = tx'.body := fun h =>
    (TxBody.history_inj hP).mp (hbinding h)
  rw [TxSignature.extendMessage_inj hP hwidth
    (tx.body.length_digest.trans tx'.body.length_digest.symm) fun h => by rw [hlen, hlen', hbody h]]
  exact and_congr_left fun _ => ⟨hbody, fun h => h ▸ rfl⟩

end Message

/-! ### Two transactions with one tail -/

/-- Answers of the length that is asked for, which count the operations before them. -/
def countingAnswer : List Operation → Bytes
  | .draw _ count :: before => Bytes.ofNat count before.length
  | _ => []

instance : LawfulTranscript (History countingAnswer) :=
  ⟨fun _ count _ => Bytes.length_ofNat count _⟩

namespace Tx

/-- An output. -/
def someOutput : Output Residue := ⟨⟨1, 2⟩, 3, 4, [5]⟩

/-- A transaction with one input, whose range proof begins with a point. -/
def oneInput : Tx Residue Residue :=
  ⟨⟨[[someOutput]], [someOutput], 6, 7⟩, ⟨PointEncoding.encode (9 : Residue) ++ [10], [8], []⟩⟩

/-- A transaction with two inputs, which has this point as a pseudo-output. -/
def twoInputs : Tx Residue Residue :=
  ⟨⟨[[someOutput], [someOutput]], [someOutput], 6, 7⟩, ⟨[10], [8, 9], []⟩⟩

/-- What the digests of the two transactions are followed by is the same, and yet the signed messages are
not. -/
theorem signed_determines_inputs :
    TxSignature.extendMessage [] oneInput.signature.pseudoOutputs oneInput.signature.rangeProof =
        TxSignature.extendMessage [] twoInputs.signature.pseudoOutputs twoInputs.signature.rangeProof ∧
      TxSignature.extendMessage (oneInput.body.digest (History countingAnswer))
          oneInput.signature.pseudoOutputs oneInput.signature.rangeProof ≠
        TxSignature.extendMessage (twoInputs.body.digest (History countingAnswer))
          twoInputs.signature.pseudoOutputs twoInputs.signature.rangeProof := by
  refine ⟨by decide +kernel, fun h => ?_⟩
  have hdigest : oneInput.body.digest (History countingAnswer) ≠
      twoInputs.body.digest (History countingAnswer) := by decide +kernel
  obtain ⟨-, hsigned⟩ := signed_determines (P := Residue) (F := Residue) encode_point_injective
    LawfulPointEncoding.length_encode (History countingAnswer) countingAnswer
  obtain ⟨hbody, -, -⟩ := (hsigned oneInput twoInputs rfl rfl fun heq => absurd heq hdigest).mp h
  exact hdigest (by rw [hbody])

end Tx
end ConfidentialTx
