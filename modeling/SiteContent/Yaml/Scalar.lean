import SiteContent.Json.Basic
import SiteContent.Yaml.Tag

/-! What a plain scalar means: null, a truth value, a number, or its own text. -/

namespace SiteContent.Yaml

/-- An integer has at most 128 bits here, and a float without a finite value is set apart. -/
inductive Scalar where
  | null
  | bool (value : Bool)
  | int (value : Int)
  | float (value : Binary64)
  | nonFinite
  | text
  deriving Repr, DecidableEq

namespace Scalar

def isNull (s : String) : Bool :=
  s == "null" || s == "Null" || s == "NULL" || s == "~"

def bool? (s : String) : Option Bool :=
  if s == "true" || s == "True" || s == "TRUE" then some true
  else if s == "false" || s == "False" || s == "FALSE" then some false
  else none

/-- The value of a digit in a base of at most sixteen. -/
def digit? (base : Nat) (c : Char) : Option Nat :=
  let n :=
    if '0' ≤ c && c ≤ '9' then some (c.toNat - '0'.toNat)
    else if 'a' ≤ c && c ≤ 'f' then some (c.toNat - 'a'.toNat + 10)
    else if 'A' ≤ c && c ≤ 'F' then some (c.toNat - 'A'.toNat + 10)
    else none
  n.filter (· < base)

/-- A numeral of at least one digit. -/
def natural? (base : Nat) (cs : List Char) : Option Nat :=
  if cs.isEmpty then none
  else cs.foldlM (fun n c => (digit? base c).map (n * base + ·)) 0

/-- The base that a mark names, and the digits after it. -/
def splitBase : List Char → Option (Nat × List Char)
  | '0' :: 'x' :: rest => some (16, rest)
  | '0' :: 'o' :: rest => some (8, rest)
  | '0' :: 'b' :: rest => some (2, rest)
  | _ => none

def isSign (c : Char) : Bool :=
  c = '+' || c = '-'

/-- A numeral without its sign. -/
def unsigned (cs : List Char) : List Char :=
  match cs with
  | c :: rest => if isSign c then rest else cs
  | [] => []

/-- Digits after a leading zero are no number. -/
def isPaddedDigits (cs : List Char) : Bool :=
  match unsigned cs with
  | '0' :: rest => !rest.isEmpty && rest.all Char.isDigit
  | _ => false

/-- The magnitude of an integer written without sign. -/
def magnitude? (cs : List Char) : Option Nat :=
  match splitBase cs with
  | some (base, ds) => natural? base ds
  | none => if isPaddedDigits cs then none else natural? 10 cs

/-- An integer within the range that begins at `-least` and ends before `bound`. -/
def intWithin? (least bound : Nat) (cs : List Char) : Option Int :=
  match cs with
  | '-' :: rest => (magnitude? rest).bind fun n => if n ≤ least then some (-n) else none
  | '+' :: rest => (magnitude? rest).bind fun n => if n < bound then some n else none
  | _ => (magnitude? cs).bind fun n => if n < bound then some n else none

/-- Whether an integer has 64 bits, with or without sign. -/
def fitsWord (n : Int) : Bool :=
  -Int.ofNat (Nat.pow 2 63) ≤ n && n < Int.ofNat (Nat.pow 2 64)

def int? (cs : List Char) : Option Int :=
  intWithin? (Nat.pow 2 127) (Nat.pow 2 128) cs

/-- A decimal exponent, which may be absent. -/
def exponent? : List Char → Option Int
  | [] => some 0
  | c :: rest =>
    if c = 'e' || c = 'E' then
      match rest with
      | '-' :: ds => (natural? 10 ds).map fun n => -n
      | '+' :: ds => (natural? 10 ds).map fun n => n
      | ds => (natural? 10 ds).map fun n => n
    else none

/-- A decimal numeral with a point, an exponent, both or neither, and with a digit before or after
the point. Nothing beyond the largest finite number is read. -/
def decimal? (negative : Bool) (cs : List Char) : Option Binary64 := do
  let whole := cs.takeWhile Char.isDigit
  let rest := cs.drop whole.length
  let (fraction, rest) :=
    match rest with
    | '.' :: rest => (rest.takeWhile Char.isDigit, rest.dropWhile Char.isDigit)
    | rest => ([], rest)
  let digits ← natural? 10 (whole ++ fraction)
  let e ← exponent? rest
  Binary64.ofDecimal negative digits (e - fraction.length)

/-- A float: a decimal numeral, an infinity, or the mark of a value that is no number. -/
def float? (s : String) : Option Scalar :=
  match s.toList with
  | '+' :: rest => if (rest.head?.any isSign) then none else ofUnsigned false rest
  | '-' :: rest => ofUnsigned true rest
  | cs => if s == ".nan" || s == ".NaN" || s == ".NAN" then some .nonFinite else ofUnsigned false cs
where
  ofUnsigned (negative : Bool) (cs : List Char) : Option Scalar :=
    let s := String.ofList cs
    if s == ".inf" || s == ".Inf" || s == ".INF" then some .nonFinite
    else (decimal? negative cs).map .float

/-- What a plain scalar without a tag means. -/
def resolve (s : String) : Scalar :=
  if s.isEmpty || isNull s then .null
  else
    match bool? s with
    | some b => .bool b
    | none =>
      match int? s.toList with
      | some n => .int n
      | none => if isPaddedDigits s.toList then .text else (float? s).getD .text

/-- An integer of more than 64 bits has no value, and a float without a finite value is null. -/
def toJson? (text : String) : Scalar → Option Json
  | .null | .nonFinite => some .null
  | .bool b => some (.bool b)
  | .int n => if fitsWord n then some (.num (.int n)) else none
  | .float x => some (.num (.float x))
  | .text => some (.str text)

/-- The value of a scalar under one of the standard tags, or nothing where its text does not fit;
under any other tag it is its text. -/
def tagged (tag : Tag) (text : String) : Option Json :=
  if tag = .standard "bool" then (bool? text).map .bool
  else if tag = .standard "int" then
    ((int? text.toList).filter fitsWord).map fun n => .num (.int n)
  else if tag = .standard "float" then (float? text).bind (toJson? text)
  else if tag = .standard "null" then if isNull text then some .null else none
  else some (.str text)

end Scalar

end SiteContent.Yaml
