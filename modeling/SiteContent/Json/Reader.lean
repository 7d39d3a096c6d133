import SiteContent.Json.Numeral

/-! Reading JSON text. The text is cut into lexemes, which a stack of open containers takes one by
one; an object keeps the last of the values written under one key. -/

namespace SiteContent.Json

inductive Lexeme where
  | openBrace
  | closeBrace
  | openBracket
  | closeBracket
  | colon
  | comma
  | scalar (value : Json)
  deriving Inhabited

namespace Lexeme

/-- A piece of a string literal: a character, or the code unit that an escape names. -/
inductive Piece where
  | char (c : Char)
  | code (unit : Nat)

def hexDigit? (c : Char) : Option Nat :=
  if '0' ≤ c && c ≤ '9' then some (c.toNat - '0'.toNat)
  else if 'a' ≤ c && c ≤ 'f' then some (c.toNat - 'a'.toNat + 10)
  else if 'A' ≤ c && c ≤ 'F' then some (c.toNat - 'A'.toNat + 10)
  else none

def hex4? (a b c d : Char) : Option Nat := do
  some ((((← hexDigit? a) * 16 + (← hexDigit? b)) * 16 + (← hexDigit? c)) * 16 + (← hexDigit? d))

def simpleEscape? : Char → Option Char
  | '"' => some '"'
  | '\\' => some '\\'
  | '/' => some '/'
  | 'b' => some '\x08'
  | 'f' => some '\x0c'
  | 'n' => some '\n'
  | 'r' => some '\r'
  | 't' => some '\t'
  | _ => none

/-- The pieces of a literal up to its closing quote, last first, with the text after it. -/
def pieces (done : List Piece) : List Char → Option (List Piece × List Char)
  | '"' :: rest => some (done, rest)
  | '\\' :: 'u' :: a :: b :: c :: d :: rest => do
    pieces (.code (← hex4? a b c d) :: done) rest
  | '\\' :: e :: rest => do
    pieces (.char (← simpleEscape? e) :: done) rest
  | c :: rest => if c.toNat < 0x20 || c = '\\' then none else pieces (.char c :: done) rest
  | [] => none

/-- Joins surrogate pairs; a surrogate without its partner is refused. -/
def joinPieces : List Piece → Option (List Char)
  | [] => some []
  | .char c :: rest => (joinPieces rest).map (c :: ·)
  | .code hi :: .code lo :: rest =>
    if 0xD800 ≤ hi && hi < 0xDC00 then
      if 0xDC00 ≤ lo && lo < 0xE000 then
        (joinPieces rest).map (Char.ofNat (0x10000 + (hi - 0xD800) * 0x400 + (lo - 0xDC00)) :: ·)
      else none
    else if 0xDC00 ≤ hi && hi < 0xE000 then none
    else (joinPieces (.code lo :: rest)).map (Char.ofNat hi :: ·)
  | .code n :: rest =>
    if 0xD800 ≤ n && n < 0xE000 then none else (joinPieces rest).map (Char.ofNat n :: ·)

def isNumeralChar (c : Char) : Bool :=
  Numeral.isDigit c || c = '+' || c = '-' || c = '.' || c = 'e' || c = 'E'

def isSpace (c : Char) : Bool :=
  c = ' ' || c = '\n' || c = '\t' || c = '\r'

/-- The lexeme at the head of a text that begins with no space. -/
def next? : List Char → Option (Lexeme × List Char)
  | '\x7b' :: rest => some (.openBrace, rest)
  | '\x7d' :: rest => some (.closeBrace, rest)
  | '[' :: rest => some (.openBracket, rest)
  | ']' :: rest => some (.closeBracket, rest)
  | ':' :: rest => some (.colon, rest)
  | ',' :: rest => some (.comma, rest)
  | '"' :: rest => do
    let (ps, rest) ← pieces [] rest
    some (.scalar (.str (String.ofList (← joinPieces ps.reverse))), rest)
  | 'n' :: 'u' :: 'l' :: 'l' :: rest => some (.scalar .null, rest)
  | 't' :: 'r' :: 'u' :: 'e' :: rest => some (.scalar (.bool true), rest)
  | 'f' :: 'a' :: 'l' :: 's' :: 'e' :: rest => some (.scalar (.bool false), rest)
  | cs => do
    let n ← Numeral.parse? (cs.takeWhile isNumeralChar)
    some (.scalar (.num n), cs.dropWhile isNumeralChar)

/-- All lexemes of a text, at most `fuel` of them. -/
def scan : Nat → List Char → Option (List Lexeme)
  | fuel, cs =>
    match fuel, cs.dropWhile isSpace with
    | _, [] => some []
    | 0, _ => none
    | fuel + 1, cs => do
      let (lexeme, rest) ← next? cs
      some (lexeme :: (← scan fuel rest))

end Lexeme

/-- A container that is not closed yet: the elements so far, last first, or the entries so far with
the key whose value is awaited. -/
inductive Container where
  | list (done : List Json)
  | entry (done : Dict Json) (key : String)

/-- What a reader awaits inside its open containers. -/
inductive Awaiting where
  | value (mayClose : Bool) (inside : List Container)
  | key (mayClose : Bool) (done : Dict Json) (inside : List Container)
  | colon (key : String) (done : Dict Json) (inside : List Container)
  | afterElement (done : List Json) (inside : List Container)
  | afterEntry (done : Dict Json) (inside : List Container)
  | nothing (value : Json)

namespace Awaiting

/-- Containers nest at most this deep. -/
def depthLimit : Nat := 127

/-- The state after a whole value. -/
def place (value : Json) : List Container → Awaiting
  | [] => .nothing value
  | .list done :: inside => .afterElement (value :: done) inside
  | .entry done k :: inside => .afterEntry (done.insert k value) inside

def step : Awaiting → Lexeme → Option Awaiting
  | .value _ inside, .scalar v => some (place v inside)
  | .value _ inside, .openBracket =>
    if inside.length < depthLimit then some (.value true (.list [] :: inside)) else none
  | .value _ inside, .openBrace =>
    if inside.length < depthLimit then some (.key true [] inside) else none
  | .value true (.list _ :: inside), .closeBracket => some (place (.arr []) inside)
  | .key _ done inside, .scalar (.str k) => some (.colon k done inside)
  | .key true _ inside, .closeBrace => some (place (.obj []) inside)
  | .colon k done inside, .colon => some (.value false (.entry done k :: inside))
  | .afterElement done inside, .comma => some (.value false (.list done :: inside))
  | .afterElement done inside, .closeBracket => some (place (.arr done.reverse) inside)
  | .afterEntry done inside, .comma => some (.key false done inside)
  | .afterEntry done inside, .closeBrace => some (place (.obj done) inside)
  | _, _ => none

def result? : Awaiting → Option Json
  | .nothing v => some v
  | _ => none

end Awaiting

/-- The value that a text holds, if the text is JSON. -/
def parse? (text : String) : Option Json := do
  let cs := text.toList
  let lexemes ← Lexeme.scan cs.length cs
  let state ← lexemes.foldlM Awaiting.step (.value false [])
  state.result?

end SiteContent.Json
