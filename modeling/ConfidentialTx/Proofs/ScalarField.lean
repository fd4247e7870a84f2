import ConfidentialTx.Curve.Group
import ConfidentialTx.Proofs.Laws

/-! # The field of scalars

The scalars of the protocols are the residues modulo the group order.  The order is prime, so they
form a field, with the operations that are computed.

* `powMod`, `LucasProof.check`: Lucas's test of a prime, which runs.
* `prime_groupOrder`: the test passes on the group order, with the primes that the test needs.
* The instances `Field Scalar`, `CharP Scalar groupOrder` and `LawfulScalarEncoding Scalar`. -/

namespace ConfidentialTx

/-! ### Lucas's test -/

/-- `a ^ n` modulo `m`, by squaring and multiplying along the `k` low bits of `n`. -/
def powMod (m : ℕ) : (k a n : ℕ) → ℕ
  | 0, _, _ => 1 % m
  | k + 1, a, n =>
    let half := powMod m k (a * a % m) (n / 2)
    if n % 2 = 1 then a * half % m else half

theorem powMod_eq (m : ℕ) {k : ℕ} (a : ℕ) {n : ℕ} (hn : n < 2 ^ k) : powMod m k a n = a ^ n % m := by
  induction k generalizing a n with
  | zero =>
    obtain rfl : n = 0 := by simpa using hn
    rfl
  | succ k ih =>
    have hhalf : n / 2 < 2 ^ k := by
      rw [pow_succ] at hn
      omega
    have hsquare : (a * a % m) ^ (n / 2) % m = a ^ (2 * (n / 2)) % m := by
      rw [← Nat.pow_mod, ← sq, ← pow_mul]
    unfold powMod
    simp only [ih _ hhalf, hsquare]
    split
    · next hodd =>
      have hdiv : n = 2 * (n / 2) + 1 := by omega
      conv_rhs => rw [hdiv, pow_succ', Nat.mul_mod]
      rw [Nat.mul_mod, Nat.mod_mod]
    · next heven =>
      have hdiv : 2 * (n / 2) = n := by omega
      rw [hdiv]

/-- A number, a generator of its residues, and the factors of its predecessor. -/
structure LucasProof where
  number : ℕ
  generator : ℕ
  factors : List ℕ

namespace LucasProof

/-- Whether a proof shows its number prime, if the numbers that are `known` are prime. -/
def check (proof : LucasProof) (known : List ℕ) : Bool :=
  1 < proof.number && proof.number < 2 ^ 256 && proof.factors.all known.contains &&
    proof.factors.prod == proof.number - 1 &&
    powMod proof.number 256 proof.generator (proof.number - 1) == 1 &&
    proof.factors.all fun q =>
      powMod proof.number 256 proof.generator ((proof.number - 1) / q) != 1

/-- Whether every proof of a list shows its number prime, given the numbers before it. -/
def checkAll (known : List ℕ) : List LucasProof → Bool
  | [] => true
  | proof :: proofs => proof.check known && checkAll (proof.number :: known) proofs

theorem natCast_pow_eq_one_iff {p : ℕ} (hp : 1 < p) (hsize : p < 2 ^ 256) (a : ℕ) {n : ℕ}
    (hn : n ≤ p - 1) : (a : ZMod p) ^ n = 1 ↔ powMod p 256 a n = 1 := by
  rw [powMod_eq p a (by omega), ← Nat.cast_pow, ← Nat.cast_one, ZMod.natCast_eq_natCast_iff',
    Nat.mod_eq_of_lt hp]

theorem prime_of_check {proof : LucasProof} {known : List ℕ} (hknown : ∀ q ∈ known, q.Prime)
    (h : proof.check known = true) : proof.number.Prime := by
  simp only [check, Bool.and_eq_true, decide_eq_true_eq, beq_iff_eq, bne_iff_ne, List.all_eq_true,
    List.contains_iff_mem] at h
  obtain ⟨⟨⟨⟨⟨hp, hsize⟩, hfactors⟩, hprod⟩, hone⟩, hne⟩ := h
  refine lucas_primality proof.number (proof.generator : ZMod proof.number) ?_ fun q hq hdvd => ?_
  · exact (natCast_pow_eq_one_iff hp hsize _ le_rfl).mpr hone
  · -- a prime that divides the product of primes is one of them
    rw [← hprod] at hdvd
    obtain ⟨q', hq', hdvd⟩ := (Prime.dvd_prod_iff hq.prime).mp hdvd
    obtain rfl := (Nat.prime_dvd_prime_iff_eq hq (hknown q' (hfactors q' hq'))).mp hdvd
    exact mt (natCast_pow_eq_one_iff hp hsize _ (Nat.div_le_self _ _)).mp (hne q hq')

theorem prime_of_checkAll {known : List ℕ} {proofs : List LucasProof} (hknown : ∀ q ∈ known, q.Prime)
    (h : checkAll known proofs = true) : ∀ proof ∈ proofs, proof.number.Prime := by
  induction proofs generalizing known with
  | nil => exact List.forall_mem_nil _
  | cons proof proofs ih =>
    rw [checkAll, Bool.and_eq_true] at h
    have hprime := prime_of_check hknown h.1
    exact List.forall_mem_cons.mpr ⟨hprime, ih (List.forall_mem_cons.mpr ⟨hprime, hknown⟩) h.2⟩

end LucasProof

/-! ### The group order -/

/-- The small primes that the test of the group order starts from. -/
def smallPrimes : List ℕ :=
  [2, 3, 5, 7, 11, 23, 41, 43, 73, 269, 307, 1361, 2551, 2851, 5879, 30703, 82163, 132667, 137849,
    409477, 531581]

/-- Proofs for the larger primes, up to the group order. -/
def groupOrderProofs : List LucasProof :=
  [⟨14741173, 2, [2, 2, 3, 3, 409477]⟩,
    ⟨58964693, 2, [2, 2, 14741173]⟩,
    ⟨3044861653679985063343, 5, [2, 3, 11, 30703, 82163, 132667, 137849]⟩,
    ⟨198211423230930754013084525763697, 5, [2, 2, 2, 2, 3, 23, 58964693, 3044861653679985063343]⟩,
    ⟨1224481, 13, [2, 2, 2, 2, 2, 3, 5, 2551]⟩,
    ⟨1257559732178653, 2, [2, 2, 3, 7, 23, 531581, 1224481]⟩,
    ⟨4434155615661930479, 17, [2, 41, 43, 1257559732178653]⟩,
    ⟨172054593956031949258510691, 2, [2, 5, 1361, 2851, 4434155615661930479]⟩,
    ⟨292386187, 2, [2, 3, 3, 3, 3, 307, 5879]⟩,
    ⟨213441916511, 13, [2, 5, 73, 292386187]⟩,
    ⟨19757330305831588566944191468367130476339, 2,
      [2, 269, 213441916511, 172054593956031949258510691]⟩,
    ⟨276602624281642239937218680557139826668747, 2,
      [2, 7, 19757330305831588566944191468367130476339]⟩,
    ⟨groupOrder, 2, [2, 2, 3, 11, 198211423230930754013084525763697,
      276602624281642239937218680557139826668747]⟩]

theorem prime_of_mem_smallPrimes : ∀ q ∈ smallPrimes, q.Prime := by
  simp only [smallPrimes, List.forall_mem_cons]
  norm_num

theorem prime_groupOrder : groupOrder.Prime := by
  have hchecked : LucasProof.checkAll smallPrimes groupOrderProofs = true := by decide +kernel
  exact LucasProof.prime_of_checkAll prime_of_mem_smallPrimes hchecked _
    (List.mem_of_getLast? (rfl : groupOrderProofs.getLast? = some _))

instance : Fact groupOrder.Prime := ⟨prime_groupOrder⟩

/-! ### The operations of scalars -/

namespace Scalar

/-- The residue of a scalar. -/
def toZMod (x : Scalar) : ZMod groupOrder := (x.val : ZMod groupOrder)

theorem toZMod_injective : Function.Injective toZMod := by
  rintro ⟨a, ha⟩ ⟨b, hb⟩ h
  have hmod := (ZMod.natCast_eq_natCast_iff' a b groupOrder).mp h
  rw [Nat.mod_eq_of_lt ha, Nat.mod_eq_of_lt hb] at hmod
  simp only [hmod]

theorem toZMod_ofNat (n : ℕ) : (ofNat n).toZMod = n := ZMod.natCast_mod n groupOrder

theorem toZMod_val (x : Scalar) : (x.val : ZMod groupOrder) = x.toZMod := rfl

@[simp] theorem toZMod_natCast (n : ℕ) : (n : Scalar).toZMod = n := toZMod_ofNat n

@[simp] theorem toZMod_zero : (0 : Scalar).toZMod = 0 := (toZMod_ofNat 0).trans Nat.cast_zero

@[simp] theorem toZMod_one : (1 : Scalar).toZMod = 1 := (toZMod_ofNat 1).trans Nat.cast_one

@[simp] theorem toZMod_add (x y : Scalar) : (x + y).toZMod = x.toZMod + y.toZMod :=
  (toZMod_ofNat _).trans (Nat.cast_add _ _)

@[simp] theorem toZMod_mul (x y : Scalar) : (x * y).toZMod = x.toZMod * y.toZMod :=
  (toZMod_ofNat _).trans (Nat.cast_mul _ _)

theorem cast_complement (y : Scalar) : ((groupOrder - y.val : ℕ) : ZMod groupOrder) = -y.toZMod := by
  rw [Nat.cast_sub y.isLt.le, ZMod.natCast_self, zero_sub, toZMod_val]

@[simp] theorem toZMod_neg (x : Scalar) : (-x).toZMod = -x.toZMod :=
  (toZMod_ofNat _).trans (cast_complement x)

@[simp] theorem toZMod_sub (x y : Scalar) : (x - y).toZMod = x.toZMod - y.toZMod := by
  have hsub : (x - y).toZMod = ((x.val + (groupOrder - y.val) : ℕ) : ZMod groupOrder) := toZMod_ofNat _
  rw [hsub, Nat.cast_add, cast_complement, toZMod_val, sub_eq_add_neg]

theorem toZMod_pow (x : Scalar) (n : ℕ) : (x.pow n).toZMod = x.toZMod ^ n := by
  fun_induction pow x n with
  | case1 x => rw [toZMod_one, pow_zero]
  | case2 x n hn half hodd ih =>
    have hdiv : n = 2 * (n / 2) + 1 := by omega
    rw [toZMod_mul, ih, toZMod_mul, ← sq, ← pow_mul, ← pow_succ', ← hdiv]
  | case3 x n hn half heven ih =>
    have hdiv : 2 * (n / 2) = n := by omega
    rw [ih, toZMod_mul, ← sq, ← pow_mul, hdiv]

instance : CommRing Scalar where
  add_assoc x y z := toZMod_injective (by simp [add_assoc])
  zero_add x := toZMod_injective (by simp)
  add_zero x := toZMod_injective (by simp)
  add_comm x y := toZMod_injective (by simp [add_comm])
  mul_assoc x y z := toZMod_injective (by simp [mul_assoc])
  one_mul x := toZMod_injective (by simp)
  mul_one x := toZMod_injective (by simp)
  zero_mul x := toZMod_injective (by simp)
  mul_zero x := toZMod_injective (by simp)
  mul_comm x y := toZMod_injective (by simp [mul_comm])
  left_distrib x y z := toZMod_injective (by simp [mul_add])
  right_distrib x y z := toZMod_injective (by simp [add_mul])
  neg_add_cancel x := toZMod_injective (by simp)
  sub_eq_add_neg x y := toZMod_injective (by simp [sub_eq_add_neg])
  natCast_zero := rfl
  natCast_succ n := toZMod_injective (by simp)
  nsmul := nsmulRec
  zsmul := zsmulRec

/-- The power with the exponent `groupOrder - 2` is the inverse. -/
theorem mul_inv_of_ne_zero {x : Scalar} (hx : x ≠ 0) : x * x⁻¹ = 1 := by
  have hx' : x.toZMod ≠ 0 := fun h => hx (toZMod_injective (h.trans toZMod_zero.symm))
  have hinv : x⁻¹.toZMod = x.toZMod ^ (groupOrder - 2) := toZMod_pow x _
  have hexponent : groupOrder - 2 + 1 = groupOrder - 1 := by decide
  apply toZMod_injective
  rw [toZMod_mul, hinv, ← pow_succ', hexponent, ZMod.pow_card_sub_one_eq_one hx', toZMod_one]

theorem inv_of_zero : (0 : Scalar)⁻¹ = 0 := by
  apply toZMod_injective
  have hinv : (0 : Scalar)⁻¹.toZMod = (0 : Scalar).toZMod ^ (groupOrder - 2) := toZMod_pow 0 _
  rw [hinv, toZMod_zero, zero_pow (by decide)]

/-- The negative powers, for any inverse: stated without scalars, so that no inverse is computed to
check it. -/
theorem zpowRec_negSucc {M : Type} [One M] [Mul M] [Inv M] (n : ℕ) (a : M) :
    zpowRec npowRec (Int.negSucc n) a = (zpowRec npowRec (n.succ : ℤ) a)⁻¹ := rfl

instance : DivInvMonoid Scalar where
  zpow_neg' := zpowRec_negSucc

instance : Field Scalar where
  exists_pair_ne := ⟨0, 1, fun h => absurd (congrArg toZMod h) (by simp)⟩
  mul_inv_cancel _ hx := mul_inv_of_ne_zero hx
  inv_zero := inv_of_zero
  nnqsmul := _
  nnqsmul_def := fun _ _ => rfl
  qsmul := _
  qsmul_def := fun _ _ => rfl

/-- The residues of scalars, as a homomorphism. -/
def residueHom : Scalar →+* ZMod groupOrder where
  toFun := toZMod
  map_one' := toZMod_one
  map_mul' := toZMod_mul
  map_zero' := toZMod_zero
  map_add' := toZMod_add

instance : CharP Scalar groupOrder := residueHom.charP toZMod_injective groupOrder

/-! ### The encoding of scalars -/

theorem ofBytes_ofNat {count : ℕ} (x : Scalar) (h : groupOrder ≤ 1 <<< (8 * count)) :
    ofBytes (Bytes.ofNat count x.val) = x := by
  unfold ofBytes
  rw [Bytes.toNat_ofNat, Nat.mod_eq_of_lt (x.isLt.trans_le h)]
  apply toZMod_injective
  rw [toZMod_ofNat, toZMod_val]

instance : LawfulScalarEncoding Scalar where
  length_encode x := Bytes.length_ofNat 32 x.val
  decode_encode := decode_encode
  exists_ofBytes x := ⟨Bytes.ofNat 64 x.val, Bytes.length_ofNat 64 x.val,
    ofBytes_ofNat x (by decide)⟩

end Scalar
end ConfidentialTx
