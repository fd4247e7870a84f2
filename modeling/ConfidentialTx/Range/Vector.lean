/-! # Powers, vectors and polynomials of scalars

What the range proof computes with its challenges.

* `powers`, `pow`: a ladder of powers and a single one, by repeated squaring.
* `powerSum`: the sum of a ladder; for a length that is a power of two, by doubling.
* `LinearVector`, `Quadratic`: vectors of linear polynomials, and their inner products. -/

namespace ConfidentialTx

/-- Whether a number is a power of two. -/
def isPowerOfTwo (n : Nat) : Bool := n == 1 <<< n.log2

/-- The least power of two that is not below a number. -/
def nextPowerOfTwo (n : Nat) : Nat := if n ≤ 1 then 1 else 1 <<< ((n - 1).log2 + 1)

section Scalars
variable {F : Type} [Add F] [Mul F] [Zero F] [One F]

/-- `start`, `start * x`, `start * x * x`, … -/
def powersFrom (start x : F) : (count : Nat) → List F
  | 0 => []
  | count + 1 => start :: powersFrom (start * x) x count

/-- The first `count` powers of `x`, from the power zero on. -/
def powers (x : F) (count : Nat) : List F := powersFrom 1 x count

/-- A power, by repeated squaring. -/
def pow (x : F) (n : Nat) : F :=
  if n = 0 then 1
  else
    let half := pow (x * x) (n / 2)
    if n % 2 = 1 then x * half else half
termination_by n

/-- The sum of the first `2ᵏ` powers, as `(1 + x) (1 + x²) (1 + x⁴) …`. -/
def doublingSum (x : F) : (k : Nat) → F
  | 0 => 1
  | k + 1 => (1 + x) * doublingSum (x * x) k

/-- The sum of the first `n` powers. -/
def powerSum (x : F) (n : Nat) : F :=
  if isPowerOfTwo n then doublingSum x n.log2 else (powers x n).sum

/-- The inner product of two vectors. -/
def innerProduct (a b : List F) : F := (List.zipWith (· * ·) a b).sum

end Scalars

/-- A quadratic polynomial by its coefficients. -/
structure Quadratic (F : Type) where
  (c₀ c₁ c₂ : F)

/-- A vector of linear polynomials by its two coefficient vectors. -/
structure LinearVector (F : Type) where
  (c₀ c₁ : List F)

section Polynomials
variable {F : Type} [Add F] [Mul F]

/-- The value at `x`. -/
def Quadratic.eval (p : Quadratic F) (x : F) : F := p.c₀ + x * (p.c₁ + x * p.c₂)

namespace LinearVector

/-- The vector of values at `x`. -/
def eval (p : LinearVector F) (x : F) : List F := List.zipWith (fun a b => a + b * x) p.c₀ p.c₁

/-- The inner product as a polynomial.  Its middle coefficient is the inner product of the sums of
the coefficients, less the outer two coefficients. -/
def innerProduct [Sub F] [Zero F] (l r : LinearVector F) : Quadratic F :=
  let t₀ := ConfidentialTx.innerProduct l.c₀ r.c₀
  let t₂ := ConfidentialTx.innerProduct l.c₁ r.c₁
  let sums := ConfidentialTx.innerProduct (List.zipWith (· + ·) l.c₀ l.c₁)
    (List.zipWith (· + ·) r.c₀ r.c₁)
  ⟨t₀, sums - t₀ - t₂, t₂⟩

end LinearVector
end Polynomials
end ConfidentialTx
