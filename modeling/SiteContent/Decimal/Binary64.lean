/-! Floating-point numbers of 64 bits as exact dyadic values, with rounding to the nearest. -/

namespace SiteContent

/-- The finite number `± significand * 2 ^ exponent`. Rounding gives every number one form: the
significand has 53 bits unless the exponent is the least one. -/
structure Binary64 where
  negative : Bool
  significand : Nat
  exponent : Int
  deriving Repr, DecidableEq

namespace Binary64

def leastExponent : Int := -1074

def greatestExponent : Int := 971

def zero (negative : Bool) : Binary64 :=
  ⟨negative, 0, leastExponent⟩

def neg (x : Binary64) : Binary64 :=
  { x with negative := !x.negative }

/-- A quotient to the nearest integer, a half to the even neighbour. -/
def roundDiv (num den : Nat) : Nat :=
  let q := num / den
  let twice := 2 * (num % den)
  if den < twice || (twice == den && q % 2 == 1) then q + 1 else q

/-- `num / den / 2 ^ e` as a fraction. -/
def scale (num den : Nat) (e : Int) : Nat × Nat :=
  if 0 ≤ e then (num, den * Nat.pow 2 e.toNat) else (num * Nat.pow 2 (-e).toNat, den)

/-- The number nearest to `± num / den`, or nothing when it lies beyond the largest. -/
def ofRatio (negative : Bool) (num den : Nat) : Option Binary64 :=
  if num = 0 then some (zero negative)
  else
    let guess := max ((num.log2 : Int) - den.log2 - 53) leastExponent
    let wide := scale num den guess
    let e := if Nat.pow 2 53 ≤ wide.1 / wide.2 then guess + 1 else guess
    let exact := scale num den e
    let m := roundDiv exact.1 exact.2
    let result : Binary64 :=
      if m = Nat.pow 2 53 then ⟨negative, Nat.pow 2 52, e + 1⟩ else ⟨negative, m, e⟩
    if greatestExponent < result.exponent then none else some result

/-- The magnitude as a fraction. -/
def magnitude (x : Binary64) : Nat × Nat :=
  scale x.significand 1 (-x.exponent)

def mul (x y : Binary64) : Option Binary64 :=
  ofRatio (x.negative != y.negative) (x.magnitude.1 * y.magnitude.1)
    (x.magnitude.2 * y.magnitude.2)

/-- The divisor is not zero. -/
def div (x y : Binary64) : Option Binary64 :=
  ofRatio (x.negative != y.negative) (x.magnitude.1 * y.magnitude.2)
    (x.magnitude.2 * y.magnitude.1)

def ofNat (n : Nat) : Option Binary64 :=
  ofRatio false n 1

/-- The number nearest to `10 ^ k`. -/
def tenPow (k : Nat) : Option Binary64 :=
  ofNat (Nat.pow 10 k)

/-- The number nearest to `± digits * 10 ^ exponent`, or nothing beyond the largest. Exponents far
out of range are settled by the count of digits alone. -/
def ofDecimal (negative : Bool) (digits : Nat) (exponent : Int) : Option Binary64 :=
  let order := ((toString digits).length : Int) + exponent
  if digits = 0 || order < -330 then some (zero negative)
  else if 310 < order then none
  else if 0 ≤ exponent then ofRatio negative (digits * Nat.pow 10 exponent.toNat) 1
  else ofRatio negative digits (Nat.pow 10 (-exponent).toNat)

end Binary64

end SiteContent
