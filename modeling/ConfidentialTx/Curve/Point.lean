import ConfidentialTx.Curve.Field
import ConfidentialTx.Curve.Scalar

/-! # The Ristretto group

A point is a class of curve points in extended coordinates on the twisted Edwards curve
`-x² + y² = 1 + d x² y²`.  Two curve points of one class differ by a small subgroup; equality and
the encoding see the class alone.

* `Point.encode`, `Point.decode`: the canonical encoding of thirty-two bytes.
* `Point.ofUniform`: sixty-four bytes to a point, as the sum of two mapped field elements.
* `Point.combination`: a sum of multiples, digit by digit in base sixteen. -/

namespace ConfidentialTx

/-- Extended coordinates `x = X / Z`, `y = Y / Z`, `x y = T / Z`. -/
structure Point where
  (X Y Z T : FieldElement)

namespace Point

/-- The curve constant. -/
def d : FieldElement :=
  .ofNat 37095705934669439343138083508754565189542113879843219016388785533085940283555

/-- Twice the curve constant. -/
def d₂ : FieldElement := d + d

/-- A square root of `-d - 1`. -/
def sqrtMinusDMinusOne : FieldElement :=
  .ofNat 25063068953384623474111414158702152701244531502492656460079210482610430750235

/-- The inverse of a square root of `-1 - d`. -/
def invSqrtMinusOneMinusD : FieldElement :=
  .ofNat 54469307008909316920995813868745141605393597292927456921205312896311721017578

/-- `1 - d²` and `(d - 1)²`. -/
def oneMinusDSquared : FieldElement := 1 - d * d
def dMinusOneSquared : FieldElement := (d - 1) * (d - 1)

/-- The neutral point. -/
instance : Zero Point := ⟨⟨0, 1, 1, 0⟩⟩

/-- The base point, which generates the group. -/
def base : Point :=
  let x := .ofNat 15112221349535400772501151409588531511454012693041857206046113283949847762202
  let y := .ofNat 46316835694926478169428394003475163141307993866256225615783033603165251855960
  ⟨x, y, 1, x * y⟩

instance : BEq Point where
  beq p q := p.X * q.Y == p.Y * q.X || p.X * q.X == p.Y * q.Y

/-- Sum. -/
def add (p q : Point) : Point :=
  let a := (p.Y - p.X) * (q.Y - q.X)
  let b := (p.Y + p.X) * (q.Y + q.X)
  let c := p.T * d₂ * q.T
  let zz := p.Z * q.Z
  let e := b - a
  let f := zz + zz - c
  let g := zz + zz + c
  let h := b + a
  ⟨e * f, g * h, f * g, e * h⟩

/-- Twice a point. -/
def double (p : Point) : Point :=
  let xx := p.X * p.X
  let yy := p.Y * p.Y
  let zz := p.Z * p.Z
  let xy := p.X + p.Y
  let h := xx + yy
  let e := h - xy * xy
  let g := xx - yy
  let f := zz + zz + g
  ⟨e * f, g * h, f * g, e * h⟩

instance : Add Point := ⟨add⟩
instance : Neg Point := ⟨fun p => ⟨-p.X, p.Y, p.Z, -p.T⟩⟩
instance : Sub Point := ⟨fun p q => add p ⟨-q.X, q.Y, q.Z, -q.T⟩⟩

/-! ### Multiples -/

/-- The multiples `0 • p`, …, `15 • p`. -/
def multiples (p : Point) : Array Point :=
  (List.range 15).foldl (fun table _ => table.push (table.back?.getD 0 + p)) #[0]

/-- Adds the multiples selected by digit `i` of every scalar. -/
def addDigits (i : Nat) (terms : List (Nat × Array Point)) (sum : Point) : Point :=
  terms.foldl (fun sum (n, table) =>
    let digit := (n >>> (4 * i)) % 16
    if digit = 0 then sum else sum + table.getD digit 0) sum

/-- Sixteen times the sum so far plus the next digits, from digit `count - 1` down to digit zero. -/
def sumDigits (terms : List (Nat × Array Point)) : (count : Nat) → Point → Point
  | 0, sum => sum
  | count + 1, sum => sumDigits terms count (addDigits count terms sum.double.double.double.double)

/-- The sum of the products of scalars and points, taken in pairs. -/
def combination (scalars : List Scalar) (points : List Point) : Point :=
  sumDigits (List.zipWith (fun s p => (s.val, multiples p)) scalars points) 64 0

instance : SMul Scalar Point := ⟨fun s p => combination [s] [p]⟩

/-! ### The encoding -/

/-- The thirty-two bytes of a point. -/
def encode (p : Point) : Bytes :=
  let u₁ := (p.Z + p.Y) * (p.Z - p.Y)
  let u₂ := p.X * p.Y
  let root := (FieldElement.sqrtRatio 1 (u₁ * (u₂ * u₂))).2
  let i₁ := root * u₁
  let i₂ := root * u₂
  let zInv := i₁ * (i₂ * p.T)
  let rotated := (p.T * zInv).isNegative
  let x := if rotated then p.Y * .sqrtMinusOne else p.X
  let y := if rotated then p.X * .sqrtMinusOne else p.Y
  let denominator := if rotated then i₁ * invSqrtMinusOneMinusD else i₂
  let y := if (x * zInv).isNegative then -y else y
  (denominator * (p.Z - y)).abs.toBytes

/-- Reads the thirty-two bytes of a point; only what `encode` writes is read. -/
def decode (bs : Bytes) : Option Point :=
  let s := FieldElement.ofBytes bs
  if bs.length ≠ 32 ∨ s.toBytes ≠ bs ∨ s.isNegative then none
  else
    let ss := s * s
    let u₁ := 1 - ss
    let u₂ := 1 + ss
    let u₂u₂ := u₂ * u₂
    let v := -(d * (u₁ * u₁)) - u₂u₂
    let (isSquare, i) := FieldElement.sqrtRatio 1 (v * u₂u₂)
    let dx := i * u₂
    let dy := i * (dx * v)
    let x := ((s + s) * dx).abs
    let y := u₁ * dy
    let t := x * y
    if !isSquare || t.isNegative || y == 0 then none else some ⟨x, y, 1, t⟩

/-- The point mapped from a field element. -/
def ofField (r₀ : FieldElement) : Point :=
  let r := .sqrtMinusOne * (r₀ * r₀)
  let numerator := (r + 1) * oneMinusDSquared
  let denominator := (-1 - d * r) * (r + d)
  let (isSquare, root) := FieldElement.sqrtRatio numerator denominator
  let s := if isSquare then root else -(root * r₀).abs
  let c := if isSquare then -1 else r
  let n := c * (r - 1) * dMinusOneSquared - denominator
  let ss := s * s
  let x := (s + s) * denominator
  let z := n * sqrtMinusDMinusOne
  let y := 1 - ss
  let t := 1 + ss
  ⟨x * t, y * z, z * t, x * y⟩

/-- The point of sixty-four bytes. -/
def ofUniform (bs : Bytes) : Point :=
  ofField (.ofBytes (bs.take 32)) + ofField (.ofBytes (Bytes.slice bs 32 32))

end Point
end ConfidentialTx
