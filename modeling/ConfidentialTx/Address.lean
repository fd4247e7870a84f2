import ConfidentialTx.Group

/-! # Accounts and one-time keys

An account has a private view key `a` and a private spend key `d`.  Its public address is
`D = d • G`, `C = a • D`.  A sender picks a private key `r` per output and publishes `R = r • D`;
both sides know the secret `r • C = a • R`.  The output belongs to `P = H(secret) • G + D`, which is
spent with `H(secret) + d`.

* `Address.onetimePublicKey`: the sender's side.
* `AccountKey.onetimePrivateKey`, `AccountKey.owns`: the recipient's side. -/

namespace ConfidentialTx

/-- The private keys of an account. -/
structure AccountKey (F : Type) where
  (view spend : F)

/-- The public keys of an account. -/
structure Address (P : Type) where
  (view spend : P)

section Secret
variable {F P : Type}

/-- The secret of a private key and the other side's public key. -/
def sharedSecret [SMul F P] (privateKey : F) (publicKey : P) : P := privateKey • publicKey

variable (F) in
/-- The offset of a one-time key. -/
def onetimeOffset [ScalarHash F] [PointEncoding P] (secret : P) : F :=
  hashToScalar "mc_onetime_key_hash_to_scalar" (PointEncoding.encode secret)

end Secret

namespace Address
variable {F P : Type} [SMul F P]

/-- The public key that is published with an output. -/
def txPublicKey (recipient : Address P) (r : F) : P := r • recipient.spend

/-- The secret shared with the recipient. -/
def secret (recipient : Address P) (r : F) : P := sharedSecret r recipient.view

/-- The key that an output belongs to. -/
def onetimePublicKey [ScalarHash F] [PointEncoding P] [BasePoint P] [Add P] (recipient : Address P)
    (r : F) : P :=
  onetimeOffset F (recipient.secret r) • (base : P) + recipient.spend

/-- The sixty-four bytes of an address. -/
def toBytes [PointEncoding P] (address : Address P) : Bytes :=
  PointEncoding.encode address.view ++ PointEncoding.encode address.spend

/-- Reads exactly what `toBytes` writes. -/
def ofBytes [PointEncoding P] (bs : Bytes) : Option (Address P) := do
  guard (bs.length = 64)
  let view ← PointEncoding.decode (bs.take 32)
  let spend ← PointEncoding.decode (bs.drop 32)
  pure ⟨view, spend⟩

end Address

namespace AccountKey
variable {F P : Type}

/-- Draws the view key, then the spend key. -/
def draw [ScalarEncoding F] : StateM RandomSource (AccountKey F) := do
  let view ← RandomSource.scalar
  let spend ← RandomSource.scalar
  pure ⟨view, spend⟩

/-- The sixty-four bytes of the keys. -/
def toBytes [ScalarEncoding F] (account : AccountKey F) : Bytes :=
  ScalarEncoding.encode account.view ++ ScalarEncoding.encode account.spend

/-- Reads exactly what `toBytes` writes. -/
def ofBytes [ScalarEncoding F] (bs : Bytes) : Option (AccountKey F) := do
  guard (bs.length = 64)
  let view ← ScalarEncoding.decode (bs.take 32)
  let spend ← ScalarEncoding.decode (bs.drop 32)
  pure ⟨view, spend⟩

variable [SMul F P]

/-- The public address. -/
def address [BasePoint P] (account : AccountKey F) : Address P :=
  let spend := account.spend • (base : P)
  ⟨account.view • spend, spend⟩

/-- The secret of an output, from the public key published with it. -/
def secret (account : AccountKey F) (txPublicKey : P) : P := sharedSecret account.view txPublicKey

variable [ScalarHash F] [PointEncoding P]

/-- The private key of an output sent to the account. -/
def onetimePrivateKey [Add F] (account : AccountKey F) (txPublicKey : P) : F :=
  onetimeOffset F (account.secret txPublicKey) + account.spend

/-- The spend key of the address that an output was sent to. -/
def recoverSpendKey [BasePoint P] [Sub P] (account : AccountKey F) (targetKey txPublicKey : P) :
    P :=
  targetKey - onetimeOffset F (account.secret txPublicKey) • (base : P)

/-- Whether an output was sent to the account. -/
def owns [BasePoint P] [Sub P] [BEq P] (account : AccountKey F) (targetKey txPublicKey : P) :
    Bool :=
  account.recoverSpendKey targetKey txPublicKey == account.spend • (base : P)

end AccountKey
end ConfidentialTx
