import ConfidentialTx.Bytes

/-! # The base field of the curve

Elements of the field of order `2 ^ 255 - 19` are ten limbs of alternately 26 and 25 bits.  The
number of an element is `toNat`, reduced; two elements are equal when their numbers are.

* Every operation ends with a `carry`, so the limbs of a result exceed their width by at most one
  bit.  A product of two such elements stays below `2 ^ 64` in every limb, and `sub` adds twice the
  order, limb by limb, before it subtracts.
* `FieldElement.sqrtRatio`: a square root of a quotient, or of its multiple by a fixed nonsquare. -/

namespace ConfidentialTx

/-- The order of the base field. -/
def fieldOrder : Nat := 1 <<< 255 - 19

/-- A field element in ten limbs of 26, 25, 26, … bits. -/
structure FieldElement where
  (a b c d e f g h i j : UInt64)

namespace FieldElement

/-- The reduced number of an element. -/
def toNat (x : FieldElement) : Nat :=
  (x.a.toNat + x.b.toNat <<< 26 + x.c.toNat <<< 51 + x.d.toNat <<< 77 + x.e.toNat <<< 102
    + x.f.toNat <<< 128 + x.g.toNat <<< 153 + x.h.toNat <<< 179 + x.i.toNat <<< 204
    + x.j.toNat <<< 230) % fieldOrder

/-- The element of a number. -/
def ofNat (n : Nat) : FieldElement :=
  let n := n % fieldOrder
  let limb := fun (offset width : Nat) => ((n >>> offset) % (1 <<< width)).toUInt64
  ⟨limb 0 26, limb 26 25, limb 51 26, limb 77 25, limb 102 26, limb 128 25, limb 153 26,
    limb 179 25, limb 204 26, limb 230 25⟩

instance : BEq FieldElement where
  beq x y := x.toNat == y.toNat

/-- The low 26 and the low 25 bits. -/
@[inline] def low₂₆ (x : UInt64) : UInt64 := x &&& 0x3ffffff
@[inline] def low₂₅ (x : UInt64) : UInt64 := x &&& 0x1ffffff

/-- Moves the excess of every limb into the next one; the excess of the last one counts 19 times
in the first. -/
@[inline] def carry (a b c d e f g h i j : UInt64) : FieldElement :=
  let b := b + (a >>> 26)
  let c := c + (b >>> 25)
  let d := d + (c >>> 26)
  let e := e + (d >>> 25)
  let f := f + (e >>> 26)
  let g := g + (f >>> 25)
  let h := h + (g >>> 26)
  let i := i + (h >>> 25)
  let j := j + (i >>> 26)
  let excess : UInt64 := j >>> 25
  let a := low₂₆ a + 19 * excess
  ⟨low₂₆ a, low₂₅ b + (a >>> 26), low₂₆ c, low₂₅ d, low₂₆ e, low₂₅ f, low₂₆ g, low₂₅ h, low₂₆ i,
    low₂₅ j⟩

/-- Sum. -/
def add (x y : FieldElement) : FieldElement :=
  carry (x.a + y.a) (x.b + y.b) (x.c + y.c) (x.d + y.d) (x.e + y.e) (x.f + y.f) (x.g + y.g)
    (x.h + y.h) (x.i + y.i) (x.j + y.j)

/-- Difference; the limbs of twice the order keep every limb from wrapping. -/
def sub (x y : FieldElement) : FieldElement :=
  carry (x.a + 0x7ffffda - y.a) (x.b + 0x3fffffe - y.b) (x.c + 0x7fffffe - y.c)
    (x.d + 0x3fffffe - y.d) (x.e + 0x7fffffe - y.e) (x.f + 0x3fffffe - y.f)
    (x.g + 0x7fffffe - y.g) (x.h + 0x3fffffe - y.h) (x.i + 0x7fffffe - y.i)
    (x.j + 0x3fffffe - y.j)

/-- Product: limbs whose widths add up beyond 255 bits come back 19 times, and two limbs of 25 bits
meet one bit above their place. -/
def mul (x y : FieldElement) : FieldElement :=
  let b₂ := 2 * x.b
  let d₂ := 2 * x.d
  let f₂ := 2 * x.f
  let h₂ := 2 * x.h
  let j₂ := 2 * x.j
  let b' := 19 * y.b
  let c' := 19 * y.c
  let d' := 19 * y.d
  let e' := 19 * y.e
  let f' := 19 * y.f
  let g' := 19 * y.g
  let h' := 19 * y.h
  let i' := 19 * y.i
  let j' := 19 * y.j
  carry
    (x.a * y.a + b₂ * j' + x.c * i' + d₂ * h' + x.e * g' + f₂ * f' + x.g * e' + h₂ * d' + x.i * c'
      + j₂ * b')
    (x.a * y.b + x.b * y.a + x.c * j' + x.d * i' + x.e * h' + x.f * g' + x.g * f' + x.h * e'
      + x.i * d' + x.j * c')
    (x.a * y.c + b₂ * y.b + x.c * y.a + d₂ * j' + x.e * i' + f₂ * h' + x.g * g' + h₂ * f'
      + x.i * e' + j₂ * d')
    (x.a * y.d + x.b * y.c + x.c * y.b + x.d * y.a + x.e * j' + x.f * i' + x.g * h' + x.h * g'
      + x.i * f' + x.j * e')
    (x.a * y.e + b₂ * y.d + x.c * y.c + d₂ * y.b + x.e * y.a + f₂ * j' + x.g * i' + h₂ * h'
      + x.i * g' + j₂ * f')
    (x.a * y.f + x.b * y.e + x.c * y.d + x.d * y.c + x.e * y.b + x.f * y.a + x.g * j' + x.h * i'
      + x.i * h' + x.j * g')
    (x.a * y.g + b₂ * y.f + x.c * y.e + d₂ * y.d + x.e * y.c + f₂ * y.b + x.g * y.a + h₂ * j'
      + x.i * i' + j₂ * h')
    (x.a * y.h + x.b * y.g + x.c * y.f + x.d * y.e + x.e * y.d + x.f * y.c + x.g * y.b + x.h * y.a
      + x.i * j' + x.j * i')
    (x.a * y.i + b₂ * y.h + x.c * y.g + d₂ * y.f + x.e * y.e + f₂ * y.d + x.g * y.c + h₂ * y.b
      + x.i * y.a + j₂ * j')
    (x.a * y.j + x.b * y.i + x.c * y.h + x.d * y.g + x.e * y.f + x.f * y.e + x.g * y.d + x.h * y.c
      + x.i * y.b + x.j * y.a)

instance : Zero FieldElement := ⟨⟨0, 0, 0, 0, 0, 0, 0, 0, 0, 0⟩⟩
instance : One FieldElement := ⟨⟨1, 0, 0, 0, 0, 0, 0, 0, 0, 0⟩⟩
instance : Add FieldElement := ⟨add⟩
instance : Sub FieldElement := ⟨sub⟩
instance : Neg FieldElement := ⟨sub 0⟩
instance : Mul FieldElement := ⟨mul⟩

/-- Squares an element `count` times. -/
def squareTimes (x : FieldElement) : (count : Nat) → FieldElement
  | 0 => x
  | count + 1 => squareTimes (x * x) count

/-- The power with exponent `2 ^ 252 - 3`, along exponents `2 ^ k - 1`. -/
def powRoot (x : FieldElement) : FieldElement :=
  let x₂ := x * squareTimes x 1
  let x₄ := x₂ * squareTimes x₂ 2
  let x₅ := x * squareTimes x₄ 1
  let x₁₀ := x₅ * squareTimes x₅ 5
  let x₂₀ := x₁₀ * squareTimes x₁₀ 10
  let x₄₀ := x₂₀ * squareTimes x₂₀ 20
  let x₅₀ := x₁₀ * squareTimes x₄₀ 10
  let x₁₀₀ := x₅₀ * squareTimes x₅₀ 50
  let x₂₀₀ := x₁₀₀ * squareTimes x₁₀₀ 100
  let x₂₅₀ := x₅₀ * squareTimes x₂₀₀ 50
  x * squareTimes x₂₅₀ 2

/-- An element is negative when its reduced number is odd. -/
def isNegative (x : FieldElement) : Bool := x.toNat % 2 == 1

/-- The nonnegative one of an element and its opposite. -/
def abs (x : FieldElement) : FieldElement := if x.isNegative then -x else x

/-- A square root of minus one. -/
def sqrtMinusOne : FieldElement :=
  ofNat 19681161376707505956807079304988542015446066515923890162744021073123829784752

/-- Whether `u / v` is a square, with the nonnegative root of `u / v` or else of
`sqrtMinusOne * u / v`. -/
def sqrtRatio (u v : FieldElement) : Bool × FieldElement :=
  let v₃ := v * v * v
  let v₇ := v₃ * v₃ * v
  let root := u * v₃ * powRoot (u * v₇)
  let check := v * (root * root)
  let minus := -u
  let correct := check == u
  let flipped := check == minus
  let rotated := check == minus * sqrtMinusOne
  let root := if flipped || rotated then sqrtMinusOne * root else root
  (correct || flipped, root.abs)

/-- The element of thirty-two bytes; the top bit is ignored. -/
def ofBytes (bs : Bytes) : FieldElement := ofNat (bs.toNat % (1 <<< 255))

/-- The thirty-two bytes of the reduced number. -/
def toBytes (x : FieldElement) : Bytes := Bytes.ofNat 32 x.toNat

end FieldElement
end ConfidentialTx
