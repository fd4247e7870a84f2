import ConfidentialTx.Codec
import ConfidentialTx.Error
import ConfidentialTx.Pedersen

/-! # Linkable ring signatures

The signer owns one member of a ring, by its one-time key, and commits to the member's amount again
in a pseudo-output.  A signature shows both without showing which member it is; its key image is the
same for every signature by one key.

Every ring position turns a challenge into the next one, through three points that combine the
challenge with two responses.  The verifier starts with a given challenge at the first position and
must come back to it; the signer starts behind the real position and solves for the responses there.

* `RingSignature.walk`: the challenge behind a list of positions.
* `RingSignature.verify`, `RingSignature.sign`: the verifier and the signer.
* `SigningRequest.close`: the signer, given all random scalars. -/

namespace ConfidentialTx

/-- What a ring signature sees of an output. -/
structure RingMember (P : Type) where
  (publicKey targetKey commitment : P)

/-- A ring signature: the challenge at the first position, two responses per position, and the key
image. -/
structure RingSignature (F P : Type) where
  cZero : F
  responses : List F
  keyImage : P

/-- The three points of a ring position. -/
structure RingPoints (P : Type) where
  (L₀ R₀ L₁ : P)

/-- All that a signer puts in. -/
structure SigningRequest (F P : Type) where
  message : Bytes
  ring : List (RingMember P)
  /-- The position of the real member. -/
  realIndex : Nat
  /-- The one-time private key of the real member. -/
  onetimeKey : F
  value : UInt64
  /-- The blinding factor of the real member. -/
  blinding : F
  /-- The blinding factor of the pseudo-output. -/
  pseudoBlinding : F
  pseudoOutput : P

section KeyImage
variable {F P : Type} [SMul F P] [PointEncoding P] [PointHash P] [BasePoint P]

/-- The key image of a one-time private key. -/
def keyImage (x : F) : P := x • imageBase (x • (base : P))

end KeyImage

/-- The responses two by two. -/
def pairs {α : Type} : List α → List (α × α)
  | a :: b :: rest => (a, b) :: pairs rest
  | _ => []

namespace RingSignature
variable {F P : Type}
variable [PointEncoding P] [PointHash P] [BasePoint P] [Sub P] [MultiScalar F P]

/-- The challenge behind a position: a hash of the message, the key image and the three points. -/
def challenge [ScalarHash F] (message : Bytes) (image : P) (points : RingPoints P) : F :=
  hashToScalar "mc_ring_mlsag_challenge"
    (message ++ PointEncoding.encode image ++ PointEncoding.encode points.L₀
      ++ PointEncoding.encode points.R₀ ++ PointEncoding.encode points.L₁)

/-- The points of a position under a challenge and two responses. -/
def points (image pseudoOutput : P) (c : F) (member : RingMember P) (r : F × F) : RingPoints P where
  L₀ := combine [r.1, c] [base, member.targetKey]
  R₀ := combine [r.1, c] [imageBase member.targetKey, image]
  L₁ := combine [r.2, c] [base, pseudoOutput - member.commitment]

/-- The challenge behind a list of positions, from the challenge before them. -/
def walk (hash : RingPoints P → F) (image pseudoOutput : P) (c : F)
    (positions : List (RingMember P × F × F)) : F :=
  positions.foldl (fun c (member, r) => hash (points image pseudoOutput c member r)) c

/-- Verifies a signature with any function in place of the challenge hash. -/
def verifyWith [Zero P] [BEq P] [BEq F] (hash : RingPoints P → F) (signature : RingSignature F P)
    (ring : List (RingMember P)) (pseudoOutput : P) : Except SignatureError Unit := do
  if ring.isEmpty then throw .emptyRing
  if signature.responses.length ≠ 2 * ring.length then
    throw (.lengthMismatch (2 * ring.length) signature.responses.length)
  if signature.keyImage == 0 then throw .invalidKeyImage
  let c := walk hash signature.keyImage pseudoOutput signature.cZero
    (ring.zip (pairs signature.responses))
  unless c == signature.cZero do throw .invalid

/-- Verifies a signature over a message, a ring and a pseudo-output. -/
def verify [ScalarHash F] [Zero P] [BEq P] [BEq F] (signature : RingSignature F P) (message : Bytes)
    (ring : List (RingMember P)) (pseudoOutput : P) : Except SignatureError Unit :=
  signature.verifyWith (challenge message signature.keyImage) ring pseudoOutput

end RingSignature

/-! ### The signer -/

namespace SigningRequest
variable {F P : Type}
variable [PointEncoding P] [PointHash P] [BasePoint P] [MultiScalar F P] [NatCast F] [BEq P]

/-- The real member, if the ring has it and the pseudo-output opens to the value. -/
def realMember (request : SigningRequest F P) : Except SignatureError (RingMember P) := do
  if request.ring.isEmpty then throw .emptyRing
  match request.ring[request.realIndex]? with
  | none => throw (.indexOutOfBounds request.realIndex request.ring.length)
  | some member =>
    unless commitAmount request.value request.pseudoBlinding == request.pseudoOutput do
      throw .valueNotConserved
    pure member

variable [SMul F P] [Sub P] [Sub F] [Mul F] [ScalarHash F]

/-- Signs with the given responses of the other members, in ring order, and two scalars for the real
position.  The difference of the two commitments must be a multiple of the base point by the
difference of their blinding factors. -/
def close (request : SigningRequest F P) (member : RingMember P) (decoys : List (F × F))
    (α : F × F) : Except SignatureError (RingSignature F P) := do
  let image := keyImage request.onetimeKey
  let hash : RingPoints P → F := RingSignature.challenge request.message image
  let i := request.realIndex
  let before := (request.ring.take i).zip (decoys.take i)
  let behind := (request.ring.drop (i + 1)).zip (decoys.drop i)
  let cNext := hash
    { L₀ := α.1 • base, R₀ := α.1 • imageBase member.targetKey, L₁ := α.2 • base }
  let cZero := RingSignature.walk hash image request.pseudoOutput cNext behind
  let cReal := RingSignature.walk hash image request.pseudoOutput cZero before
  let commitmentKey := request.pseudoBlinding - request.blinding
  let real := [α.1 - cReal * request.onetimeKey, α.2 - cReal * commitmentKey]
  let flat := fun (rs : List (F × F)) => rs.flatMap fun r => [r.1, r.2]
  unless request.pseudoOutput - member.commitment == commitmentKey • base do
    throw .valueNotConserved
  pure
    { cZero := cZero
      responses := flat (decoys.take i) ++ real ++ flat (decoys.drop i)
      keyImage := image }

end SigningRequest

namespace RingSignature
variable {F P : Type} [ScalarEncoding F] [PointEncoding P]

/-- Draws two scalars. -/
def drawPair : StateM RandomSource (F × F) := do
  let r₀ ← RandomSource.scalar
  let r₁ ← RandomSource.scalar
  pure (r₀, r₁)

/-- Signs a request: draws two scalars for every other member, then two for the real position. -/
def sign [PointHash P] [BasePoint P] [MultiScalar F P] [NatCast F] [BEq P] [SMul F P] [Sub P]
    [Sub F] [Mul F] [ScalarHash F] (request : SigningRequest F P) :
    ExceptT SignatureError (StateM RandomSource) (RingSignature F P) := do
  let member ← request.realMember
  let decoys ← RandomSource.times (drawPair (F := F)) (request.ring.length - 1)
  let α ← drawPair (F := F)
  request.close member decoys α

/-- The wire form: the challenge, the counted responses, the key image. -/
def codec : Codec (RingSignature F P) :=
  (Codec.scalar.both (Codec.scalar.list.both Codec.point)).iso
    (fun (c, rs, image) => ⟨c, rs, image⟩) (fun s => (s.cZero, s.responses, s.keyImage))

end RingSignature

/-- The wire form of a ring member. -/
def RingMember.codec {P : Type} [PointEncoding P] : Codec (RingMember P) :=
  (Codec.point.both (Codec.point.both Codec.point)).iso
    (fun (p, t, c) => ⟨p, t, c⟩) (fun m => (m.publicKey, m.targetKey, m.commitment))

end ConfidentialTx
