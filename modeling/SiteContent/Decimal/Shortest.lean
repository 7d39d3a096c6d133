import SiteContent.Decimal.Binary64

/-! The shortest decimal that reads back as a given number, and its layout as text. -/

namespace SiteContent

/-- The number `digits * 10 ^ exponent`. -/
structure Decimal where
  digits : Nat
  exponent : Int
  deriving Repr, DecidableEq

namespace Decimal

/-- `num / den / 10 ^ k` as a fraction. -/
def scale (num den : Nat) (k : Int) : Nat × Nat :=
  if 0 ≤ k then (num, den * Nat.pow 10 k.toNat) else (num * Nat.pow 10 (-k).toNat, den)

/-- The exponent of the leading digit of `num / den`, which is not zero. -/
def order (num den : Nat) : Int :=
  let guess := ((num.log2 : Int) - den.log2) * 30103 / 100000 - 1
  let reaches (p : Int) : Bool :=
    let v := scale num den p
    decide (v.2 ≤ v.1)
  if reaches (guess + 3) then guess + 3
  else if reaches (guess + 2) then guess + 2
  else if reaches (guess + 1) then guess + 1
  else guess

/-- The positive reals that round to a number: four times its magnitude and the ends, over one
denominator, with whether the ends belong. -/
structure Interval where
  below : Nat
  value : Nat
  above : Nat
  den : Nat
  closed : Bool

/-- The neighbour below a power of two is at half the distance. -/
def Interval.of (x : Binary64) : Interval :=
  let m := x.significand
  let gap := if m = Nat.pow 2 52 && Binary64.leastExponent < x.exponent then 1 else 2
  let up := Nat.pow 2 (x.exponent - 2).toNat
  { below := (4 * m - gap) * up
    value := 4 * m * up
    above := (4 * m + 2) * up
    den := Nat.pow 2 (2 - x.exponent).toNat
    closed := m % 2 == 0 }

/-- Whether `n * 10 ^ k` reads back. -/
def Interval.holds (i : Interval) (k : Int) (n : Nat) : Bool :=
  let low := scale i.below i.den k
  let high := scale i.above i.den k
  if i.closed then low.1 ≤ n * low.2 && n * high.2 ≤ high.1
  else low.1 < n * low.2 && n * high.2 < high.1

/-- The multiple of `10 ^ k` nearest to the value among those beside it that read back. -/
def Interval.nearest? (i : Interval) (k : Int) : Option Nat :=
  let v := scale i.value i.den k
  let n := v.1 / v.2
  match i.holds k n, i.holds k (n + 1) with
  | true, true => some (Binary64.roundDiv v.1 v.2)
  | true, false => some n
  | false, true => some (n + 1)
  | false, false => none

/-- Moves trailing zeros of the digits into the exponent, at most `fuel` of them. -/
def dropZeros (d : Decimal) : Nat → Decimal
  | 0 => d
  | fuel + 1 =>
    if d.digits % 10 = 0 then dropZeros ⟨d.digits / 10, d.exponent + 1⟩ fuel else d

/-- Seventeen digits always suffice. -/
def shortest (x : Binary64) : Decimal :=
  let i := Interval.of x
  let top := order i.value i.den
  let found := (List.range 17).findSome? fun (n : Nat) =>
    (i.nearest? (top - n)).map fun digits => (⟨digits, top - n⟩ : Decimal)
  (found.getD ⟨0, 0⟩).dropZeros 20

end Decimal

/-- Where positional notation begins and ends, by the exponent of the leading digit, and whether a
positive exponent carries a plus sign. -/
structure FloatLayout where
  least : Int
  greatest : Int
  plus : Bool

namespace FloatLayout

def zeros (n : Nat) : String :=
  String.ofList (List.replicate n '0')

def magnitude (l : FloatLayout) (d : Decimal) : String :=
  let ds := (toString d.digits).toList
  let lead := d.exponent + ds.length - 1
  if l.least ≤ lead && lead ≤ l.greatest then
    if 0 ≤ d.exponent then String.ofList ds ++ zeros d.exponent.toNat ++ ".0"
    else if 0 ≤ lead then
      String.ofList (ds.take (lead.toNat + 1)) ++ "." ++ String.ofList (ds.drop (lead.toNat + 1))
    else "0." ++ zeros (-lead - 1).toNat ++ String.ofList ds
  else
    let mantissa :=
      match ds with
      | [_] | [] => String.ofList ds
      | c :: rest => String.ofList (c :: '.' :: rest)
    mantissa ++ "e" ++ (if l.plus && 0 ≤ lead then "+" else "") ++ toString lead

/-- At least one digit follows a decimal point, and zero keeps its sign. -/
def render (l : FloatLayout) (x : Binary64) : String :=
  (if x.negative then "-" else "") ++
    if x.significand = 0 then "0.0" else l.magnitude (Decimal.shortest x)

end FloatLayout

end SiteContent
