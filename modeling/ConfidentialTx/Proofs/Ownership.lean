import ConfidentialTx.Proofs.Building

/-! # Who receives an output

An output is made from the recipient's address and a private key of the sender.  The recipient finds it,
spends it and unmasks its amount with the account alone, and a key that an account recovers spends exactly
the outputs that the account takes for its own.

* `AccountKey.secret_txPublicKey`: both sides have the same secret.
* `AccountKey.owns_iff`: an account owns the outputs whose one-time key it can spend.
* `Output.unmask_create`: the recipient unmasks what the sender has masked.
* `Credential.exists_create_iff`, `Credential.create_eq_error_iff`: a credential is refused for a wrong
  key and for nothing else, since the ring of a credential has the real output.
* `AccountKey.reaches_owner_alone`: all of this for every account. -/

namespace ConfidentialTx

/-! ### Keys -/

namespace AccountKey
variable {F P : Type} [CommRing F] [AddCommGroup P] [Module F P] [BasePoint P]
variable (account : AccountKey F)

/-- The sender's private key times the view key is the view key times the published key. -/
theorem secret_txPublicKey (r : F) :
    account.secret (account.address.txPublicKey r : P) = account.address.secret r := by
  change account.view • r • account.spend • (base : P) = r • account.view • account.spend • (base : P)
  exact smul_comm account.view r _

variable [ScalarHash F] [PointEncoding P]

theorem onetimePrivateKey_smul_base (txPublicKey : P) :
    account.onetimePrivateKey txPublicKey • (base : P) =
      onetimeOffset F (account.secret txPublicKey) • (base : P) + account.spend • (base : P) :=
  add_smul _ _ _

theorem owns_iff [BEq P] [LawfulBEq P] (targetKey txPublicKey : P) :
    account.owns targetKey txPublicKey = true ↔
      account.onetimePrivateKey txPublicKey • (base : P) = targetKey := by
  unfold owns recoverSpendKey
  rw [beq_iff_eq, onetimePrivateKey_smul_base, sub_eq_iff_eq_add']
  exact eq_comm

theorem onetimePublicKey_eq (r : F) :
    account.address.onetimePublicKey r =
      account.onetimePrivateKey (account.address.txPublicKey r : P) • (base : P) := by
  rw [onetimePrivateKey_smul_base, secret_txPublicKey]
  rfl

end AccountKey

/-! ### Amounts -/

section Amounts
variable {F P : Type} [ScalarHash F] [PointEncoding P] [ScalarEncoding F] [PointHash P] [BasePoint P]

/-- A masked amount is unmasked with the same secret, to the value and the blinding factor under which
it is committed. -/
theorem MaskedAmount.unmask_create [NatCast F] [MultiScalar F P] [BEq P] [ReflBEq P] (value : UInt64)
    (secret : P) :
    (create F value secret).unmask F secret = .ok ⟨value, blindingOf secret⟩ := by
  have hvalue : (create F value secret).masked ^^^ maskOf F secret = value := by
    change value ^^^ maskOf F secret ^^^ maskOf F secret = value
    rw [UInt64.xor_assoc, UInt64.xor_self, UInt64.xor_zero]
  unfold unmask
  rw [hvalue]
  refine unless_throw_eq_ok.mpr ⟨?_, rfl⟩
  exact BEq.rfl

variable [CommRing F] [AddCommGroup P] [Module F P] [MultiScalar F P] [BEq P] [ReflBEq P]

theorem Output.unmask_create (account : AccountKey F) (value : UInt64) (r : F) (hint : Bytes) :
    (create value account.address r hint : Output P).unmask account.view =
      .ok ⟨value, MaskedAmount.blindingOf (account.address.secret r : P)⟩ := by
  have hsecret := account.secret_txPublicKey (P := P) r
  change (MaskedAmount.create F value (account.address.secret r)).unmask F
    (account.secret (account.address.txPublicKey r)) = _
  rw [hsecret, MaskedAmount.unmask_create]

end Amounts

/-! ### Credentials -/

theorem mem_insertKeyed {α : Type} (entry : Bytes × α) (entries : List (Bytes × α)) :
    entry ∈ insertKeyed entry entries := by
  induction entries with
  | nil => exact List.mem_singleton_self entry
  | cons other rest ih =>
    unfold insertKeyed
    split
    · exact List.mem_cons_self
    · split
      · exact List.mem_cons_self
      · exact List.mem_cons_of_mem other ih

theorem mem_canonicalRing {P : Type} [PointEncoding P] [BEq P] (real : Output P)
    (ring : List (Output P)) : real ∈ canonicalRing real ring := by
  unfold canonicalRing
  rw [List.foldl_append, List.foldl_cons, List.foldl_nil]
  exact List.mem_map.mpr ⟨_, mem_insertKeyed _ _, rfl⟩

namespace Credential
variable {F P : Type} [SMul F P] [PointEncoding P] [BasePoint P] [BEq P] [LawfulBEq P]
variable {real : Output P} {ring : List (Output P)} {onetimeKey viewKey : F}

theorem exists_create_iff :
    (∃ credential, create real ring onetimeKey viewKey = .ok credential) ↔
      onetimeKey • (base : P) = real.targetKey := by
  have hfound : ((canonicalRing real ring).findIdx? (· == real)).isSome = true := by
    rw [List.findIdx?_isSome, List.any_eq_true]
    exact ⟨real, mem_canonicalRing real ring, BEq.rfl⟩
  obtain ⟨i, hi⟩ := Option.isSome_iff_exists.mp hfound
  constructor
  · rintro ⟨credential, h⟩
    exact (create_eq_ok_iff.mp h).1
  · intro hkey
    exact ⟨_, create_eq_ok_iff.mpr ⟨hkey, i, hi, rfl⟩⟩

theorem create_eq_error_iff :
    create real ring onetimeKey viewKey = .error .onetimeKeyMismatch ↔
      onetimeKey • (base : P) ≠ real.targetKey := by
  constructor
  · intro h hkey
    obtain ⟨credential, hok⟩ : ∃ credential, create real ring onetimeKey viewKey = .ok credential :=
      exists_create_iff.mpr hkey
    rw [h] at hok
    cases hok
  · intro hkey
    unfold create
    rw [if_neg (mt beq_iff_eq.mp hkey)]
    rfl

end Credential

/-! ### The owner -/

section Owner
variable {F P : Type} [CommRing F] [AddCommGroup P] [Module F P] [MultiScalar F P]
variable [ScalarEncoding F] [ScalarHash F] [PointEncoding P] [PointHash P] [BasePoint P]
variable [BEq P] [LawfulBEq P]

/-- **Owners.**  For any scalars, zero among them, and with any hashes: the output of a value to the
address of an account is owned by the account, the private key that the account recovers is that of the
output, and the account unmasks the value and a blinding factor under which the output commits to it, the
same that the sender has.  And for any two points an account owns an output with these keys exactly when
its private key for them is that of the output, and exactly when every credential with that private key
is given, whatever the output and its ring are otherwise; if not, every one is refused. -/
theorem AccountKey.reaches_owner_alone :
    (∀ (account : AccountKey F) (r : F) (value : UInt64) (hint : Bytes),
      let out : Output P := .create value account.address r hint
      account.owns out.targetKey out.publicKey = true ∧
      account.onetimePrivateKey out.publicKey • (base : P) = out.targetKey ∧
      ∃ blinding : F, out.unmask account.view = .ok ⟨value, blinding⟩ ∧
        out.amount.commitment = commitAmount value blinding ∧
        (SentOutput.create value account.address r hint : SentOutput P).unmask F =
          .ok ⟨value, blinding⟩) ∧
    ∀ (account : AccountKey F) (targetKey txPublicKey : P),
      let key := account.onetimePrivateKey txPublicKey
      (account.owns targetKey txPublicKey = true ↔ key • (base : P) = targetKey) ∧
      (account.owns targetKey txPublicKey = true ↔
        ∀ (real : Output P) (ring : List (Output P)) (viewKey : F), real.targetKey = targetKey →
          ∃ credential, Credential.create real ring key viewKey = .ok credential) ∧
      ∀ (real : Output P) (ring : List (Output P)) (viewKey : F), real.targetKey = targetKey →
        account.owns targetKey txPublicKey = false →
          Credential.create real ring key viewKey = .error .onetimeKeyMismatch := by
  constructor
  · intro account r value hint out
    have hkey : account.onetimePrivateKey out.publicKey • (base : P) = out.targetKey :=
      (account.onetimePublicKey_eq r).symm
    refine ⟨(account.owns_iff _ _).mpr hkey, hkey, _, Output.unmask_create account value r hint, rfl, ?_⟩
    exact MaskedAmount.unmask_create value _
  · intro account targetKey txPublicKey key
    have howns := account.owns_iff targetKey txPublicKey
    refine ⟨howns, ?_, ?_⟩
    · rw [howns]
      constructor
      · rintro hkey real ring viewKey rfl
        exact Credential.exists_create_iff.mpr hkey
      · intro h
        -- some output has the target key, so the condition is not void
        let real : Output P := ⟨⟨0, 0⟩, targetKey, 0, []⟩
        exact Credential.exists_create_iff.mp (h real [] 0 rfl)
    · rintro real ring viewKey rfl hnot
      refine Credential.create_eq_error_iff.mpr fun hkey => ?_
      rw [howns.mpr hkey] at hnot
      cases hnot

end Owner

/-- An output of 200 to the first of two accounts with one spend key: the first one unmasks it and has a
credential for it, and the second one has none. -/
theorem AccountKey.reaches_owner_alone_of_two :
    let owner : AccountKey Residue := ⟨4, 9⟩
    let other : AccountKey Residue := ⟨5, 9⟩
    let out : Output Residue := .create 200 owner.address (3 : Residue) [1, 2]
    owner.owns out.targetKey out.publicKey = true ∧
    (∃ blinding, out.unmask owner.view = .ok ⟨200, blinding⟩) ∧
    (∃ credential, Credential.create out [] (owner.onetimePrivateKey out.publicKey) owner.view =
      .ok credential) ∧
    Credential.create out [] (other.onetimePrivateKey out.publicKey) other.view =
      .error .onetimeKeyMismatch := by
  intro owner other out
  obtain ⟨hsent, hkeys⟩ := reaches_owner_alone (F := Residue) (P := Residue)
  obtain ⟨howns, -, blinding, hunmask, -⟩ := hsent owner 3 200 [1, 2]
  obtain ⟨-, hcredential, -⟩ := hkeys owner out.targetKey out.publicKey
  obtain ⟨-, -, hrefused⟩ := hkeys other out.targetKey out.publicKey
  exact ⟨howns, ⟨blinding, hunmask⟩, hcredential.mp howns out [] owner.view rfl,
    hrefused out [] other.view rfl (by decide +kernel)⟩

end ConfidentialTx
