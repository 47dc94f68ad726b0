/-!
# Floating point numbers of 64 bits

The finite numbers of the format that are not negative, each `mantissa * 2 ^ exponent`. Arithmetic
is exact on natural numbers, and a result goes to the nearest number of the format, of two to the
one with an even mantissa.
-/

namespace Conformance

/-- A finite number, not negative. -/
structure Binary64 where
  /-- Less than `2 ^ 53`. -/
  mantissa : Nat
  /-- At least -1074 and at most 971. -/
  exponent : Int
deriving DecidableEq, Repr

namespace Binary64

/-- Mantissas lie below this number. -/
def mantissaBound : Nat := 0x20000000000000

/-- The least mantissa of a number whose exponent could not be less. -/
def leastNormal : Nat := 0x10000000000000

/-- The nearest natural number to a quotient, of two the even one. -/
def roundDiv (num den : Nat) : Nat :=
  let q := num / den
  let r := num % den
  if 2 * r < den then q
  else if den < 2 * r then q + 1
  else if q % 2 = 0 then q
  else q + 1

/-- Numerator and denominator of `num / den * 2 ^ e`. -/
def shift (num den : Nat) (e : Int) : Nat × Nat :=
  if 0 ≤ e then (num * Nat.pow 2 e.toNat, den) else (num, den * Nat.pow 2 (-e).toNat)

/-- The number of the format that is nearest to a quotient; none if it is out of range. -/
def ofRatio? (num den : Nat) : Option Binary64 :=
  if num = 0 then some ⟨0, -1074⟩
  else
    -- with this exponent the mantissa has 53 bits or one more
    let guess : Int := max ((num.log2 : Int) - den.log2 - 53) (-1074)
    let (n, d) := shift num den (-guess)
    let exponent := if n / d < mantissaBound then guess else guess + 1
    let (n, d) := shift num den (-exponent)
    let mantissa := roundDiv n d
    -- rounding up may reach the next power of two
    let (mantissa, exponent) :=
      if mantissa = mantissaBound then (leastNormal, exponent + 1) else (mantissa, exponent)
    if exponent ≤ 971 then some ⟨mantissa, exponent⟩ else none

/-- The number as a quotient. -/
def toRatio (x : Binary64) : Nat × Nat :=
  shift x.mantissa 1 x.exponent

/-- The product of two numbers; none if it is out of range. -/
def mul? (x y : Binary64) : Option Binary64 :=
  let (a, b) := x.toRatio
  let (c, d) := y.toRatio
  ofRatio? (a * c) (b * d)

/-- The quotient of two numbers; none if it is out of range. -/
def div? (x y : Binary64) : Option Binary64 :=
  let (a, b) := x.toRatio
  let (c, d) := y.toRatio
  ofRatio? (a * d) (b * c)

/-- The number nearest to a power of ten. -/
def tenTo? (k : Nat) : Option Binary64 :=
  ofRatio? (Nat.pow 10 k) 1

/-- The exponent of the greatest power of ten in the format. -/
def topTen : Nat := 308

/-- The number `x * 10 ^ e`, reached by one multiplication or division, or, below the powers of ten
that the format has, by dividing by its greatest one as often as it takes. None if it is out of
range. -/
def scaleTen? (x : Binary64) (e : Int) : Option Binary64 :=
  if x.mantissa = 0 then some x
  else if _h : e.natAbs ≤ topTen then
    (tenTo? e.natAbs).bind fun p => if 0 ≤ e then x.mul? p else x.div? p
  else if _h' : 0 ≤ e then none
  else
    -- each round rounds once more, so the result need not be the nearest number
    (tenTo? topTen).bind fun p => (x.div? p).bind fun y => scaleTen? y (e + topTen)
termination_by e.natAbs
decreasing_by
  simp only [topTen] at *
  omega

/-! ## Shortest decimals -/

/-- Does the decimal `n * 10 ^ g` read back as the number? It does if it lies between the two points
halfway to the neighbours, and these points belong to the numbers with an even mantissa. -/
def readsBack (x : Binary64) (n : Nat) (g : Int) : Bool :=
  let narrow := x.mantissa = leastNormal && -1074 < x.exponent
  let even := x.mantissa % 2 = 0
  -- all in units of a quarter of the last place
  let low := 4 * x.mantissa - if narrow then 1 else 2
  let high := 4 * x.mantissa + 2
  let (a, b) := if 0 ≤ g then (n * Nat.pow 10 g.toNat, 1) else (n, Nat.pow 10 (-g).toNat)
  let (a, b) := shift (4 * a) b (-x.exponent)
  if even then low * b ≤ a && a ≤ high * b else low * b < a && a < high * b

/-- The decimals with unit `10 ^ g` next to the number that read back as it, the nearest one first.
-/
def candidates (x : Binary64) (g : Int) : List Nat :=
  let (a, b) := x.toRatio
  let (a, b) := if 0 ≤ g then (a, b * Nat.pow 10 g.toNat) else (a * Nat.pow 10 (-g).toNat, b)
  let below := a / b
  -- a tie goes to the even decimal
  let nearest := roundDiv a b
  let order := if nearest = below then [below, below + 1] else [below + 1, below]
  order.filter fun n => 0 < n && x.readsBack n g

/-- The shortest decimal that reads back as the number, as digits and a power of ten. -/
def shortest (x : Binary64) : Nat × Int :=
  let units := (List.range 700).map fun (i : Nat) => (topTen : Int) + 1 - i
  (units.findSome? fun g => (x.candidates g).head?.map fun n => (n, g)).getD (0, 0)

/-- The text of a number: its shortest decimal, with a point and at least one digit behind it. From
`10 ^ 16` on and below `10 ^ -5` a power of ten follows, the exponent of which has a sign. -/
def text (x : Binary64) : String :=
  if x.mantissa = 0 then "0.0"
  else
    let (n, g) := x.shortest
    let digits := Nat.toDigits 10 n
    let zeros (k : Nat) := List.replicate k '0'
    -- the place of the point, counted from the first digit
    let point : Int := g + digits.length
    let written :=
      if 0 ≤ g && point ≤ 16 then digits ++ zeros g.toNat ++ ['.', '0']
      else if 0 < point && point ≤ 16 then
        digits.take point.toNat ++ '.' :: digits.drop point.toNat
      else if -5 < point && point ≤ 0 then ['0', '.'] ++ zeros (-point).toNat ++ digits
      else
        let power := (if 0 < point then "+" else "").toList ++ (toString (point - 1)).toList
        match digits with
        | [d] => d :: 'e' :: power
        | d :: ds => d :: '.' :: ds ++ 'e' :: power
        | [] => []
    String.ofList written

end Binary64

end Conformance
