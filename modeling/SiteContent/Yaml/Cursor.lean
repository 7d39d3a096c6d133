/-! Places in a YAML text. A line may end in a carriage return, a line feed, both, a next-line mark,
or one of Unicode's two separators. -/

namespace SiteContent.Yaml

def isBreak (c : Char) : Bool :=
  c = '\n' || c = '\r' || c = '\u0085' || c = '\u2028' || c = '\u2029'

def isSpaceOrTab (c : Char) : Bool :=
  c = ' ' || c = '\t'

def isWordChar (c : Char) : Bool :=
  c.isAlphanum || c = '_' || c = '-'

/-- Whether a text may hold this character at all. -/
def isAllowed (c : Char) : Bool :=
  let n := c.toNat
  n == 9 || n == 0xA || n == 0xD || (0x20 ≤ n && n ≤ 0x7E) || n == 0x85 ||
    (0xA0 ≤ n && n ≤ 0xD7FF) || (0xE000 ≤ n && n ≤ 0xFFFD) || 0x10000 ≤ n

/-- Whether a text is over, or a line, or a word. -/
def atBreakOrEnd : List Char → Bool
  | [] => true
  | c :: _ => isBreak c

def atBlankOrEnd : List Char → Bool
  | [] => true
  | c :: _ => isSpaceOrTab c || isBreak c

def atBlank : List Char → Bool
  | [] => false
  | c :: _ => isSpaceOrTab c

def atBreak : List Char → Bool
  | [] => false
  | c :: _ => isBreak c

/-- How many bytes characters take. -/
def width : List Char → Nat
  | [] => 0
  | c :: cs => c.utf8Size + width cs

/-- The rest of a text with its place: the index counts bytes, and the column characters. -/
structure Cursor where
  rest : List Char
  index : Nat
  line : Nat
  column : Nat

namespace Cursor

def ofText (cs : List Char) : Cursor :=
  ⟨cs, 0, 0, 0⟩

/-- Passes characters of the line. -/
def skip (c : Cursor) (n : Nat) : Cursor :=
  ⟨c.rest.drop n, c.index + width (c.rest.take n), c.line, c.column + n⟩

def skipWhile (p : Char → Bool) (c : Cursor) : Cursor :=
  c.skip (c.rest.takeWhile p).length

/-- Passes a line break, and gives what it stands for: a line feed, or a separator as it is. -/
def takeBreak (c : Cursor) : List Char × Cursor :=
  match c.rest with
  | '\r' :: '\n' :: rest => (['\n'], ⟨rest, c.index + 2, c.line + 1, 0⟩)
  | b :: rest =>
    if isBreak b then
      (if b = '\u2028' || b = '\u2029' then [b] else ['\n'],
        ⟨rest, c.index + b.utf8Size, c.line + 1, 0⟩)
    else ([], c)
  | [] => ([], c)

def skipBreak (c : Cursor) : Cursor :=
  c.takeBreak.2

/-- Passes a byte-order mark that begins a line. The mark takes a column. -/
def skipMark (c : Cursor) : Cursor :=
  if c.column = 0 && c.rest.head? == some '\ufeff' then c.skip 1 else c

def skipComment (c : Cursor) : Cursor :=
  match c.rest with
  | '#' :: _ => c.skipWhile fun ch => !isBreak ch
  | _ => c

/-- Whether a line begins with three marks of a document's start or end. -/
def atDocumentMark (c : Cursor) : Bool :=
  c.column == 0 &&
    match c.rest with
    | '-' :: '-' :: '-' :: rest | '.' :: '.' :: '.' :: rest => atBlankOrEnd rest
    | _ => false

end Cursor

/-- What stands between two words of a scalar: blanks of one line, or line breaks. -/
inductive Between where
  | blanks (text : List Char)
  | breaks (first more : List Char)

namespace Between

/-- A single line feed folds into a space; the breaks after it stand for themselves. -/
def fold : Between → List Char
  | .blanks text => text
  | .breaks first more =>
    if first = ['\n'] then if more.isEmpty then [' '] else more else first ++ more

def hasBreak : Between → Bool
  | .blanks _ => false
  | .breaks _ _ => true

/-- Passes blanks and breaks. Blanks before a break or after one are dropped. A tab after a break is
refused where `tabFits` does not hold of its column. At most `fuel` characters are passed. -/
def take (tabFits : Nat → Bool) : Nat → Between → Cursor → Option (Between × Cursor)
  | 0, b, c => some (b, c)
  | fuel + 1, b, c =>
    match c.rest with
    | ch :: _ =>
      if isSpaceOrTab ch then
        match b with
        | .blanks text => take tabFits fuel (.blanks (text ++ [ch])) (c.skip 1)
        | .breaks _ _ =>
          if ch = '\t' && !tabFits c.column then none else take tabFits fuel b (c.skip 1)
      else if isBreak ch then
        let (text, c) := c.takeBreak
        match b with
        | .blanks _ => take tabFits fuel (.breaks text []) c
        | .breaks first more => take tabFits fuel (.breaks first (more ++ text)) c
      else some (b, c)
    | [] => some (b, c)

end Between

end SiteContent.Yaml
