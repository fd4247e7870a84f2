import ConfidentialTx.Range.Dealer
import ConfidentialTx.Range.Party

/-! # Sessions of the dealer and its parties

A session runs the protocol step by step, with parties kept by number and at most one dealer.  A
step uses up the state that it starts from, so no step is repeated and none is left out: the state
is gone after a step that fails, and a step from another state is refused.  The messages of the
parties and the last challenges stay.

* `Session`: the states, the messages, and the random source that all steps draw from.
* `Session.Step`: a step, which may be refused. -/

namespace ConfidentialTx

/-- The state of a party. -/
inductive PartyState (F P : Type) where
  | ready (party : Party F P)
  | committed (party : Party.Committed F)
  | answering (party : Party.Answering F)

/-- The state of the dealer. -/
inductive DealerState (F P T : Type) where
  | ready (dealer : Dealer T)
  | withBits (dealer : Dealer.WithBits F P T)
  | withPolys (dealer : Dealer.WithPolys F P T)

/-- Why a step is refused: its state is not there, or the protocol refuses it. -/
inductive StepError where
  | wrongState
  | protocol (cause : RangeProofError)

/-- A run of the protocol so far. -/
structure Session (F P T : Type) where
  gens : Generators P
  key : CommitmentKey P
  /-- The transcript of every new dealer. -/
  start : T
  source : RandomSource
  parties : List (Nat × PartyState F P) := []
  dealer : Option (DealerState F P T) := none
  bits : List (Nat × BitCommitment P) := []
  polys : List (Nat × PolyCommitment P) := []
  shares : List (Nat × ProofShare F) := []
  bitChallenge : BitChallenge F
  polyChallenge : F

namespace Session
variable {F P T : Type}

/-- A step of a session. -/
abbrev Step (F P T : Type) := ExceptT StepError (StateM (Session F P T))

/-- A list of numbered entries with one entry put in. -/
def put {α : Type} (entries : List (Nat × α)) (id : Nat) (a : α) : List (Nat × α) :=
  (id, a) :: entries.filter (·.1 != id)

/-- Passes on the result of a protocol step. -/
def check {α : Type} (result : Except RangeProofError α) : Step F P T α :=
  match result with
  | .ok a => pure a
  | .error e => throw (.protocol e)

/-- Draws from the random source of the session. -/
def draw {α : Type} (action : StateM RandomSource α) : Step F P T α := do
  let session ← get
  let (a, source) := action.run session.source
  set { session with source := source }
  pure a

/-- Takes a party out of the session. -/
def takeParty (id : Nat) : Step F P T (PartyState F P) := do
  let session ← get
  set { session with parties := session.parties.filter (·.1 != id) }
  match session.parties.lookup id with
  | some party => pure party
  | none => throw .wrongState

/-- Puts a party into the session. -/
def putParty (id : Nat) (party : PartyState F P) : Step F P T Unit :=
  modify fun session => { session with parties := put session.parties id party }

/-- Takes the dealer out of the session. -/
def takeDealer : Step F P T (DealerState F P T) := do
  let session ← get
  set { session with dealer := none }
  match session.dealer with
  | some dealer => pure dealer
  | none => throw .wrongState

/-- Puts a dealer into the session. -/
def putDealer (dealer : DealerState F P T) : Step F P T Unit :=
  modify fun session => { session with dealer := some dealer }

variable [Add F] [Sub F] [Neg F] [Mul F] [Inv F] [Zero F] [One F] [NatCast F] [BEq F]
variable [ScalarEncoding F] [PointEncoding P] [Add P] [Zero P] [BEq P]
variable [SMul F P] [MultiScalar F P] [Transcript T]

/-- A new party in the place of any with its number. -/
def addParty (id : Nat) (value : UInt64) (blinding : F) (n : Nat) : Step F P T Unit := do
  modify fun session => { session with parties := session.parties.filter (·.1 != id) }
  let session ← get
  putParty id (.ready (← check (Party.create session.gens session.key value blinding n)))

/-- A party takes a position and commits to its bits. -/
def assign (id j : Nat) : Step F P T (BitCommitment P) := do
  match ← takeParty id with
  | .ready party =>
    let session ← get
    check (Party.checkPosition session.gens j)
    let blindings ← draw (BitBlindings.draw party.n)
    let (party, message) := party.commitBits session.gens session.key j blindings
    putParty id (.committed party)
    modify fun session => { session with bits := put session.bits id message }
    pure message
  | _ => throw .wrongState

/-- A party answers a bit challenge. -/
def applyBits (id : Nat) (ch : BitChallenge F) : Step F P T (PolyCommitment P) := do
  match ← takeParty id with
  | .committed party =>
    let session ← get
    let blindings ← draw PolyBlindings.draw
    let (party, message) := party.commitPolys session.key ch blindings
    putParty id (.answering party)
    modify fun session => { session with polys := put session.polys id message }
    pure message
  | _ => throw .wrongState

/-- A party answers a polynomial challenge. -/
def applyPoly (id : Nat) (x : F) : Step F P T (ProofShare F) := do
  match ← takeParty id with
  | .answering party =>
    let share ← check (party.share x)
    modify fun session => { session with shares := put session.shares id share }
    pure share
  | _ => throw .wrongState

/-- A new dealer in the place of any. -/
def addDealer (n m : Nat) : Step F P T Unit := do
  modify fun session => { session with dealer := none }
  let session ← get
  putDealer (.ready (← check (Dealer.create session.gens session.start n m)))

/-- The dealer takes in bit commitments. -/
def receiveBits (bits : List (BitCommitment P)) : Step F P T (BitChallenge F) := do
  match ← takeDealer with
  | .ready dealer =>
    let dealer ← check (dealer.receiveBits bits)
    putDealer (.withBits dealer)
    modify fun session => { session with bitChallenge := dealer.bitChallenge }
    pure dealer.bitChallenge
  | _ => throw .wrongState

/-- The dealer takes in polynomial commitments. -/
def receivePolys (polys : List (PolyCommitment P)) : Step F P T F := do
  match ← takeDealer with
  | .withBits dealer =>
    let dealer ← check (dealer.receivePolys polys)
    putDealer (.withPolys dealer)
    modify fun session => { session with polyChallenge := dealer.polyChallenge }
    pure dealer.polyChallenge
  | _ => throw .wrongState

/-- The dealer assembles shares that it trusts. -/
def receiveTrusted (shares : List (ProofShare F)) : Step F P T (RangeProof F P) := do
  match ← takeDealer with
  | .withPolys dealer =>
    let session ← get
    check (dealer.receiveTrustedShares session.gens session.key shares)
  | _ => throw .wrongState

/-- The dealer assembles shares and verifies the proof, with the weight from the given source or
else from that of the session. -/
def receiveShares (shares : List (ProofShare F)) (source : Option RandomSource) :
    Step F P T (RangeProof F P) := do
  match ← takeDealer with
  | .withPolys dealer =>
    let session ← get
    let action := (dealer.receiveShares session.gens session.key shares).run
    match source with
    | some source => check (action.run source).1
    | none => check (← draw action)
  | _ => throw .wrongState

end Session
end ConfidentialTx
