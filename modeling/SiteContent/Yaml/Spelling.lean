import SiteContent.Yaml.Cursor
import SiteContent.Yaml.Scalar

/-! How a string is spelled as a YAML scalar: plain where it reads back as itself, in quotes, or as
a literal block when it has several lines. -/

namespace SiteContent.Yaml.Spelling

/-- The characters that need no escape. -/
def isPrintable (c : Char) : Bool :=
  let n := c.toNat
  n == 0xA || (0x20 ≤ n && n ≤ 0x7E) || (0xA0 ≤ n && n ≤ 0xD7FF) ||
    (0xE000 ≤ n && n ≤ 0xFFFD && n != 0xFEFF) || 0x10000 ≤ n

/-- Marks that begin no plain scalar, unless a word follows the last three. -/
def isOpeningMark (c : Char) (rest : List Char) : Bool :=
  "#,[]\x7b\x7d&*!|>'\"%@`".toList.contains c ||
    ((c = '?' || c = ':' || c = '-') && atBlankOrEnd rest)

/-- Whether a colon ends a word, or a number sign begins one. -/
def hasInnerMark (afterBlank : Bool) : List Char → Bool
  | [] => false
  | c :: rest =>
    (c = ':' && atBlankOrEnd rest) || (c = '#' && afterBlank) ||
      hasInnerMark (isSpaceOrTab c || isBreak c) rest

def hasMark : List Char → Bool
  | '-' :: '-' :: '-' :: _ | '.' :: '.' :: '.' :: _ => true
  | c :: rest => isOpeningMark c rest || hasInnerMark (isSpaceOrTab c || isBreak c) rest
  | [] => false

/-- Whether two neighbours satisfy two conditions. -/
def hasPair (p q : Char → Bool) : List Char → Bool
  | a :: b :: rest => (p a && q b) || hasPair p q (b :: rest)
  | _ => false

def isSpace (c : Char) : Bool :=
  c = ' '

def isSpaceOrBreak (c : Char) : Bool :=
  isSpace c || isBreak c

/-- Spaces before a line break are lost without escapes. -/
def needsEscapes (cs : List Char) : Bool :=
  !cs.all isPrintable || hasPair isSpace isBreak cs

def fitsPlain (cs : List Char) : Bool :=
  !cs.any isBreak && cs.all isPrintable && !hasMark cs && !cs.isEmpty &&
    !cs.head?.any isSpace && !cs.getLast?.any isSpace

def fitsQuotes (cs : List Char) : Bool :=
  !needsEscapes cs && !hasPair isBreak isSpace cs

def fitsBlock (cs : List Char) : Bool :=
  !needsEscapes cs && !cs.getLast?.any isSpace

/-- Whether a plain scalar of this text would be something else than the text. -/
def isMistakable (s : String) : Bool :=
  Scalar.resolve s != .text || Scalar.isPaddedDigits s.toList

def escapeLetter? (c : Char) : Option Char :=
  match c with
  | '\x00' => some '0'
  | '\x07' => some 'a'
  | '\x08' => some 'b'
  | '\t' => some 't'
  | '\n' => some 'n'
  | '\x0b' => some 'v'
  | '\x0c' => some 'f'
  | '\r' => some 'r'
  | '\x1b' => some 'e'
  | '"' => some '"'
  | '\\' => some '\\'
  | '\u0085' => some 'N'
  | '\u2028' => some 'L'
  | '\u2029' => some 'P'
  | _ => none

def hexDigit (n : Nat) : Char :=
  if n < 10 then Char.ofNat ('0'.toNat + n) else Char.ofNat ('A'.toNat + n - 10)

/-- A code point in so many hexadecimal digits. -/
def hex (width n : Nat) : List Char :=
  ((List.range width).map fun i => hexDigit (n / Nat.pow 16 i % 16)).reverse

def escape (c : Char) : List Char :=
  if isPrintable c && !isBreak c && c ≠ '"' && c ≠ '\\' then [c]
  else
    match escapeLetter? c with
    | some e => ['\\', e]
    | none =>
      let n := c.toNat
      if n ≤ 0xFF then '\\' :: 'x' :: hex 2 n
      else if n ≤ 0xFFFF then '\\' :: 'u' :: hex 4 n
      else '\\' :: 'U' :: hex 8 n

def doubleQuoted (cs : List Char) : String :=
  String.ofList ('"' :: (cs.flatMap escape ++ ['"']))

def pad (indent : Nat) : List Char :=
  List.replicate indent ' '

/-- Indents every line after the first, empty lines apart. -/
def continued (indent : Nat) (afterBreak : Bool) : List Char → List Char
  | [] => if afterBreak then pad indent else []
  | c :: rest =>
    if isBreak c then c :: continued indent true rest
    else (if afterBreak then pad indent else []) ++ c :: continued indent false rest

def singleQuoted (indent : Nat) (cs : List Char) : String :=
  let doubled := cs.flatMap fun c => if c = '\'' then ['\'', '\''] else [c]
  String.ofList ('\'' :: (continued indent false doubled ++ ['\'']))

/-- What the mark of a literal block says of the line breaks at the end of its text. -/
def chomping (cs : List Char) : String :=
  match cs.reverse with
  | a :: rest =>
    if !isBreak a then "-"
    else
      match rest with
      | b :: _ => if isBreak b then "+" else ""
      | [] => "+"
  | [] => "-"

/-- The lines of a literal block, each indented unless it is empty. -/
def indented (indent : Nat) (afterBreak : Bool) : List Char → List Char
  | [] => []
  | c :: rest =>
    if isBreak c then c :: indented indent true rest
    else (if afterBreak then pad indent else []) ++ c :: indented indent false rest

/-- A literal block begins with a mark on a line of its own; its indentation is named where the
first line does not show it. -/
def literal (indent : Nat) (cs : List Char) : String :=
  "|" ++ (if cs.head?.any isSpaceOrBreak then "2" else "") ++ chomping cs ++ "\n" ++
    String.ofList (indented indent true cs)

/-- The spelling of a string whose further lines are indented by `indent`. -/
def string (indent : Nat) (s : String) : String :=
  let cs := s.toList
  if cs.contains '\n' then if fitsBlock cs then literal indent cs else doubleQuoted cs
  else if !isMistakable s && fitsPlain cs then s
  else if fitsQuotes cs then singleQuoted indent cs
  else doubleQuoted cs

end SiteContent.Yaml.Spelling
