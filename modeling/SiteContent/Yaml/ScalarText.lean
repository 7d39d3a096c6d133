import SiteContent.Yaml.Cursor

/-! The texts of scalars: plain, in quotes, and as indented blocks. -/

namespace SiteContent.Yaml

/-- How a scalar is written. -/
inductive Style where
  | plain
  | quoted
  | literal
  | folded
  deriving Repr, DecidableEq

namespace ScalarText

def isFlowMark (c : Char) : Bool :=
  c = ',' || c = '[' || c = ']' || c = '\x7b' || c = '\x7d'

/-- A word of a plain scalar, last character first, and the text after it. -/
def plainWord (inFlow : Bool) (done : List Char) : List Char → Option (List Char × List Char)
  | [] => some (done, [])
  | c :: rest =>
    if isSpaceOrTab c || isBreak c then some (done, c :: rest)
    else if inFlow && c = ':' && (rest.head?.any fun d => isFlowMark d || d = '?') then none
    else if (c = ':' && atBlankOrEnd rest) || (inFlow && isFlowMark c) then some (done, c :: rest)
    else plainWord inFlow (c :: done) rest

/-- Reads on after `done`, which is last first, with `between` passed since. Outside flow
collections the lines must be indented by `indent`. The answer tells whether the scalar ended after
a line break. -/
def plain (inFlow : Bool) (indent : Int) :
    Nat → List Char → Between → Cursor → Option (List Char × Bool × Cursor)
  | 0, _, _, _ => none
  | fuel + 1, done, between, c =>
    if c.atDocumentMark || c.rest.head? == some '#' then some (done, between.hasBreak, c)
    else do
      let (word, rest) ← plainWord inFlow [] c.rest
      let done := if word.isEmpty then done else word ++ between.fold.reverse ++ done
      let between := if word.isEmpty then between else .blanks []
      let c := c.skip word.length
      if !(atBlank rest || atBreak rest) then some (done, between.hasBreak, c)
      else
        let (between, c) ←
          between.take (fun column => indent ≤ column) c.rest.length c
        if !inFlow && (c.column : Int) < indent then some (done, between.hasBreak, c)
        else plain inFlow indent fuel done between c

/-- The character that an escape letter stands for. -/
def escape? : Char → Option Char
  | '0' => some '\x00'
  | 'a' => some '\x07'
  | 'b' => some '\x08'
  | 't' => some '\t'
  | '\t' => some '\t'
  | 'n' => some '\n'
  | 'v' => some '\x0b'
  | 'f' => some '\x0c'
  | 'r' => some '\r'
  | 'e' => some '\x1b'
  | ' ' => some ' '
  | '"' => some '"'
  | '/' => some '/'
  | '\\' => some '\\'
  | 'N' => some '\u0085'
  | '_' => some '\u00a0'
  | 'L' => some '\u2028'
  | 'P' => some '\u2029'
  | _ => none

/-- How many hexadecimal digits follow an escape letter that names a code point. -/
def codeLength? : Char → Option Nat
  | 'x' => some 2
  | 'u' => some 4
  | 'U' => some 8
  | _ => none

def hexDigit? (c : Char) : Option Nat :=
  if '0' ≤ c && c ≤ '9' then some (c.toNat - '0'.toNat)
  else if 'a' ≤ c && c ≤ 'f' then some (c.toNat - 'a'.toNat + 10)
  else if 'A' ≤ c && c ≤ 'F' then some (c.toNat - 'A'.toNat + 10)
  else none

/-- The character of a code point written in hexadecimal, if there is one. -/
def codePoint? (digits : List Char) : Option Char := do
  let n ← digits.foldlM (fun n d => (hexDigit? d).map (n * 16 + ·)) 0
  if n.isValidChar then some (Char.ofNat n) else none

/-- A word in quotes, last character first, the text after it, and whether an escaped line break
ended it. -/
def quotedWord (single : Bool) :
    Nat → List Char → List Char → Option (List Char × List Char × Bool)
  | 0, _, _ => none
  | _, done, [] => some (done, [], false)
  | fuel + 1, done, c :: rest =>
    if isSpaceOrTab c || isBreak c then some (done, c :: rest, false)
    else if single then
      match c, rest with
      | '\'', '\'' :: rest => quotedWord single fuel ('\'' :: done) rest
      | '\'', _ => some (done, c :: rest, false)
      | _, _ => quotedWord single fuel (c :: done) rest
    else
      match c, rest with
      | '"', _ => some (done, c :: rest, false)
      | '\\', e :: rest =>
        if isBreak e then some (done, e :: rest, true)
        else
          match codeLength? e with
          | some n => do
            if rest.length < n then none
            else quotedWord single fuel ((← codePoint? (rest.take n)) :: done) (rest.drop n)
          | none => do quotedWord single fuel ((← escape? e) :: done) rest
      | '\\', [] => none
      | _, _ => quotedWord single fuel (c :: done) rest

/-- Reads on inside quotes, after `done`, up to the closing quote. -/
def quoted (single : Bool) : Nat → List Char → Cursor → Option (List Char × Cursor)
  | 0, _, _ => none
  | fuel + 1, done, c =>
    if c.atDocumentMark || c.rest.isEmpty then none
    else do
      let (word, rest, escapedBreak) ← quotedWord single (c.rest.length + 1) [] c.rest
      let done := word ++ done
      let c := c.skip (c.rest.length - rest.length)
      let atQuote := c.rest.head? == some (if single then '\'' else '"')
      if atQuote && !escapedBreak then some (done, c.skip 1)
      else
        let start := if escapedBreak then Between.breaks [] [] else .blanks []
        let c := if escapedBreak then c.skipBreak else c
        let (between, c) ← start.take (fun _ => true) c.rest.length c
        quoted single fuel (between.fold.reverse ++ done) c

/-- What a block scalar keeps of the line breaks at its end. -/
inductive Chomping where
  | strip
  | clip
  | keep
  deriving DecidableEq

/-- The marks after the indicator of a block scalar: chomping and indentation, in either order. -/
def blockMarks (cs : List Char) : Option (Chomping × Option Nat × List Char) :=
  let chomping? (c : Char) : Option Chomping :=
    if c = '+' then some .keep else if c = '-' then some .strip else none
  let digit? (c : Char) : Option Nat :=
    if c.isDigit then some (c.toNat - '0'.toNat) else none
  match cs with
  | [] => some (.clip, none, [])
  | c :: rest =>
    match chomping? c, digit? c with
    | some ch, _ =>
      match rest.head?.bind digit? with
      | some 0 => none
      | some n => some (ch, some n, rest.tail)
      | none => some (ch, none, rest)
    | none, some 0 => none
    | none, some n =>
      match rest.head?.bind chomping? with
      | some ch => some (ch, some n, rest.tail)
      | none => some (.clip, some n, rest)
    | none, none => some (.clip, none, cs)

/-- Passes empty lines and the indentation of the line after them. Without a known indentation all
spaces are passed, and the deepest column is given. -/
def blockBreaks (indent : Option Nat) :
    Nat → Nat → List Char → Cursor → Option (Nat × List Char × Cursor)
  | 0, deepest, breaks, c => some (deepest, breaks, c)
  | fuel + 1, deepest, breaks, c =>
    let spaces := (c.rest.takeWhile (· = ' ')).length
    let c := c.skip (match indent with | some n => min spaces (n - c.column) | none => spaces)
    let deepest := max deepest c.column
    match c.rest with
    | ch :: _ =>
      if ch = '\t' && indent.all (fun n => decide (c.column < n)) then none
      else if isBreak ch then
        let (text, c) := c.takeBreak
        blockBreaks indent fuel deepest (breaks ++ text) c
      else some (deepest, breaks, c)
    | [] => some (deepest, breaks, c)

/-- The lines of a block scalar. `done` is last first; `lineBreak` ended the line before, and
`breaks` are the empty lines since. A folded break stands between two lines that begin with no
blank. -/
def blockLines (folded : Bool) (indent : Nat) :
    Nat → List Char → List Char → List Char → Bool → Cursor →
      Option (List Char × List Char × List Char × Cursor)
  | 0, _, _, _, _, _ => none
  | fuel + 1, done, lineBreak, breaks, blankBefore, c =>
    if c.column ≠ indent || c.rest.isEmpty then some (done, lineBreak, breaks, c)
    else do
      let blank := atBlank c.rest
      let done :=
        if folded && lineBreak = ['\n'] && !blankBefore && !blank then
          if breaks.isEmpty then ' ' :: done else done
        else lineBreak.reverse ++ done
      let line := c.rest.takeWhile fun ch => !isBreak ch
      let done := line.reverse ++ (breaks.reverse ++ done)
      let (lineBreak, c) := (c.skip line.length).takeBreak
      let (_, breaks, c) ← blockBreaks (some indent) (c.rest.length + 1) 0 [] c
      blockLines folded indent fuel done lineBreak breaks blank c

/-- A block scalar after its indicator, inside a block indented by `parent`. -/
def block (folded : Bool) (parent : Int) (c : Cursor) : Option (List Char × Cursor) := do
  let (chomping, increment, rest) ← blockMarks c.rest
  let c := c.skip (c.rest.length - rest.length)
  let c := (c.skipWhile isSpaceOrTab).skipComment
  if !atBreakOrEnd c.rest then none
  else
    let c := c.skipBreak
    let known := increment.map fun n => (if 0 ≤ parent then parent.toNat + n else n)
    let (deepest, breaks, c) ← blockBreaks known (c.rest.length + 1) 0 [] c
    let indent := known.getD (max deepest (max (parent + 1).toNat 1))
    let (done, lineBreak, breaks, c) ←
      blockLines folded indent (c.rest.length + 1) [] [] breaks false c
    let done := if chomping = .strip then done else lineBreak.reverse ++ done
    let done := if chomping = .keep then breaks.reverse ++ done else done
    some (done.reverse, c)

end ScalarText

end SiteContent.Yaml
