import SiteContent.Json.Basic

/-! Reading numerals. The digits are gathered in a 64-bit word, so digits beyond its range shift the
exponent or are dropped, and the word is then scaled by a power of ten with one rounding more. -/

namespace SiteContent.Numeral

def wordLimit : Nat := Nat.pow 2 64

def digit? (c : Char) : Option Nat :=
  if '0' ≤ c && c ≤ '9' then some (c.toNat - '0'.toNat) else none

def isDigit (c : Char) : Bool :=
  '0' ≤ c && c ≤ '9'

/-- Appends digits to a word while it stays in range; counts those that did not fit. -/
def gather : Nat → List Nat → Nat × Nat
  | word, [] => (word, 0)
  | word, d :: ds =>
    if word * 10 + d < wordLimit then gather (word * 10 + d) ds else (word, ds.length + 1)

/-- `x * 10 ^ e`, or nothing when it overflows. A large negative exponent is divided out in two
steps. -/
def scaleTen (x : Binary64) (e : Int) : Option Binary64 :=
  if x.significand = 0 then some x
  else if 308 < e then none
  else if 0 ≤ e then (Binary64.tenPow e.toNat).bind x.mul
  else
    let k := (-e).toNat
    if k ≤ 308 then (Binary64.tenPow k).bind x.div
    else if k ≤ 616 then do
      let least ← Binary64.tenPow 308
      let rest ← Binary64.tenPow (k - 308)
      (← x.div least).div rest
    else some (Binary64.zero false)

def float? (negative : Bool) (word : Nat) (e : Int) : Option Number := do
  let x ← scaleTen (← Binary64.ofNat word) e
  some (.float (if negative then x.neg else x))

/-- The end of a numeral after its fraction: nothing, or an exponent. -/
def exponent? (negative : Bool) (word : Nat) (e : Int) : List Char → Option Number
  | [] => float? negative word e
  | c :: rest =>
    if c = 'e' || c = 'E' then
      let (down, ds) :=
        match rest with
        | '+' :: ds => (false, ds)
        | '-' :: ds => (true, ds)
        | ds => (false, ds)
      if ds.isEmpty || !ds.all isDigit then none
      else
        let n : Nat := (ds.filterMap digit?).foldl (fun n d => n * 10 + d) 0
        if n < Nat.pow 2 31 then float? negative word (if down then e - n else e + n)
        else if word ≠ 0 && !down then none
        else some (.float (Binary64.zero negative))
    else none

/-- The end of a numeral after its integer part, of which `dropped` digits did not fit. -/
def fraction? (negative : Bool) (word dropped : Nat) : List Char → Option Number
  | '.' :: rest =>
    let ds := (rest.takeWhile isDigit).filterMap digit?
    if ds.isEmpty then none
    else
      let (word', left) := gather word ds
      exponent? negative word' ((dropped : Int) - (ds.length - left : Nat))
        (rest.dropWhile isDigit)
  | rest => exponent? negative word dropped rest

/-- An integer numeral in range is an integer, except that minus zero is a float. -/
def unsigned? (negative : Bool) (cs : List Char) : Option Number :=
  let ds := (cs.takeWhile isDigit).filterMap digit?
  let rest := cs.dropWhile isDigit
  if ds.isEmpty || (ds.head? == some 0 && ds.length ≠ 1) then none
  else
    let (word, dropped) := gather 0 ds
    if rest.isEmpty && dropped = 0 then
      if !negative then some (.int word)
      else if word ≠ 0 && word ≤ Nat.pow 2 63 then some (.int (-word))
      else float? true word 0
    else fraction? negative word dropped rest

def parse? : List Char → Option Number
  | '-' :: cs => unsigned? true cs
  | cs => unsigned? false cs

end SiteContent.Numeral
