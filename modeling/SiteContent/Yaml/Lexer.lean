import SiteContent.Yaml.Token

/-! Cutting a YAML text into tokens. Indentation opens and closes block collections, and a mapping
key is recognised only by the colon after it, so that its token is put in front afterwards. -/

namespace SiteContent.Yaml

/-- A token that may turn out to be a key: its number, its place, and whether the layout admits
nothing else. -/
structure Candidate where
  number : Nat
  index : Nat
  line : Nat
  column : Nat
  required : Bool

/-- The state between two tokens. There is one place for a candidate on every level of flow
collections, the innermost first, and the bottom one is for block collections. -/
structure Lexer where
  cursor : Cursor
  tokens : Array Token
  indent : Int
  indents : List Int
  candidate : Option Candidate
  outer : List (Option Candidate)
  keyAllowed : Bool

namespace Lexer

def start (cs : List Char) : Lexer where
  cursor := .ofText cs
  tokens := #[]
  indent := -1
  indents := []
  candidate := none
  outer := []
  keyAllowed := true

def inFlow (l : Lexer) : Bool :=
  !l.outer.isEmpty

def push (l : Lexer) (t : Token) : Lexer :=
  { l with tokens := l.tokens.push t }

def skip (l : Lexer) (n : Nat) : Lexer :=
  { l with cursor := l.cursor.skip n }

/-- Passes what stands between tokens. Tabs are blanks only where no block collection can begin. -/
def skipBlanks : Nat → Lexer → Lexer
  | 0, l => l
  | fuel + 1, l =>
    let tabs := l.inFlow || !l.keyAllowed
    let c := l.cursor.skipMark.skipWhile fun ch => ch = ' ' || (tabs && ch = '\t')
    let c := c.skipComment
    if atBreak c.rest then
      skipBlanks fuel { l with cursor := c.skipBreak, keyAllowed := l.keyAllowed || !l.inFlow }
    else { l with cursor := c }

/-- A key stands on one line, in at most 1024 characters. -/
def isStale (c : Cursor) (k : Candidate) : Bool :=
  k.line < c.line || k.index + 1024 < c.index

/-- Gives up a candidate that is no key; one that has to be a key is an error. -/
def dropStale (c : Cursor) : Option Candidate → Option (Option Candidate)
  | some k => if isStale c k then if k.required then none else some none else some (some k)
  | none => some none

def dropAllStale (l : Lexer) : Option Lexer := do
  let candidate ← dropStale l.cursor l.candidate
  let outer ← l.outer.mapM (dropStale l.cursor)
  some { l with candidate, outer }

/-- Gives up the innermost candidate. -/
def dropCandidate (l : Lexer) : Option Lexer :=
  match l.candidate with
  | some k => if k.required then none else some { l with candidate := none }
  | none => some l

/-- The next token may be a key. -/
def saveCandidate (l : Lexer) : Option Lexer :=
  if l.keyAllowed then do
    let l ← l.dropCandidate
    some { l with
      candidate := some
        { number := l.tokens.size
          index := l.cursor.index
          line := l.cursor.line
          column := l.cursor.column
          required := !l.inFlow && l.indent == l.cursor.column } }
  else some l

/-- Closes block collections that are indented deeper than a column. -/
def unindent (l : Lexer) (column : Int) : Lexer :=
  if l.inFlow then l
  else
    let closed := (l.indent :: l.indents).takeWhile fun i => column < i
    let kept := (l.indent :: l.indents).drop closed.length
    { l with
      tokens := l.tokens ++ (Array.replicate closed.length Token.blockEnd)
      indent := kept.headD (-1)
      indents := kept.tail }

/-- Opens a block collection at a column deeper than the current one, in front of the token of the
given number. -/
def indentTo (l : Lexer) (column : Nat) (number : Nat) (t : Token) : Lexer :=
  if l.inFlow || (column : Int) ≤ l.indent then l
  else
    { l with
      tokens := l.tokens.insertIdx! (min number l.tokens.size) t
      indent := column
      indents := l.indent :: l.indents }

def openFlow (l : Lexer) (t : Token) : Option Lexer := do
  let l ← l.saveCandidate
  some ((({ l with candidate := none, outer := l.candidate :: l.outer, keyAllowed := true }).skip
    1).push t)

def closeFlow (l : Lexer) (t : Token) : Option Lexer := do
  let l ← l.dropCandidate
  let l :=
    match l.outer with
    | k :: outer => { l with candidate := k, outer }
    | [] => l
  some ((({ l with keyAllowed := false }).skip 1).push t)

def comma (l : Lexer) : Option Lexer := do
  let l ← l.dropCandidate
  some ((({ l with keyAllowed := true }).skip 1).push .comma)

def hyphen (l : Lexer) : Option Lexer :=
  if !l.inFlow && !l.keyAllowed then none
  else do
    let l ← (l.indentTo l.cursor.column l.tokens.size .blockSequence).dropCandidate
    some ((({ l with keyAllowed := true }).skip 1).push .hyphen)

def explicitKey (l : Lexer) : Option Lexer :=
  if !l.inFlow && !l.keyAllowed then none
  else do
    let l ← (l.indentTo l.cursor.column l.tokens.size .blockMapping).dropCandidate
    some ((({ l with keyAllowed := !l.inFlow }).skip 1).push .key)

/-- At a colon the candidate becomes a key. -/
def colon (l : Lexer) : Option Lexer :=
  match l.candidate with
  | some k =>
    let l := { l with
      tokens := l.tokens.insertIdx! (min k.number l.tokens.size) .key
      candidate := none
      keyAllowed := false }
    some (((l.indentTo k.column k.number .blockMapping).skip 1).push .value)
  | none =>
    if !l.inFlow && !l.keyAllowed then none
    else
      let l := l.indentTo l.cursor.column l.tokens.size .blockMapping
      some ((({ l with keyAllowed := !l.inFlow }).skip 1).push .value)

/-- Leaves every block collection before a directive or a mark of a document. -/
def leaveBlocks (l : Lexer) : Option Lexer := do
  let l ← (l.unindent (-1)).dropCandidate
  some { l with keyAllowed := false }

def directive (l : Lexer) : Option Lexer := do
  let l ← l.leaveBlocks
  let (t, rest) ← Token.readDirective l.cursor.rest.tail
  let c := l.cursor.skip (l.cursor.rest.length - rest.length)
  let c := (c.skipWhile isSpaceOrTab).skipComment
  if atBreakOrEnd c.rest then some ({ l with cursor := c.skipBreak }.push t) else none

def documentMark (l : Lexer) (t : Token) : Option Lexer := do
  let l ← l.leaveBlocks
  some ((l.skip 3).push t)

/-- Takes a token that may begin a key from the head of the text. -/
def property (l : Lexer) (read : List Char → Option (Token × List Char)) : Option Lexer := do
  let l ← l.saveCandidate
  let (t, rest) ← read l.cursor.rest
  some (({ l with keyAllowed := false }.skip (l.cursor.rest.length - rest.length)).push t)

def blockScalar (l : Lexer) (style : Style) : Option Lexer := do
  let l ← l.dropCandidate
  let (text, c) ← ScalarText.block (style == .folded) l.indent (l.cursor.skip 1)
  some ({ l with cursor := c, keyAllowed := true }.push (.scalar (String.ofList text) style))

def quotedScalar (l : Lexer) (single : Bool) : Option Lexer := do
  let l ← l.saveCandidate
  let c := l.cursor.skip 1
  let (text, c) ← ScalarText.quoted single (c.rest.length + 1) [] c
  some ({ l with cursor := c, keyAllowed := false }.push
    (.scalar (String.ofList text.reverse) .quoted))

def plainScalar (l : Lexer) : Option Lexer := do
  let l ← l.saveCandidate
  let (text, broken, c) ←
    ScalarText.plain l.inFlow (l.indent + 1) (l.cursor.rest.length + 1) [] (.blanks []) l.cursor
  some ({ l with cursor := c, keyAllowed := broken }.push
    (.scalar (String.ofList text.reverse) .plain))

/-- Marks that begin no plain scalar. -/
def isIndicator (c : Char) : Bool :=
  "-?:,[]\x7b\x7d#&*!|>'\"%@`".toList.contains c

/-- Takes the token at the head of the text. -/
def token (l : Lexer) (c : Char) (rest : List Char) : Option Lexer :=
  let blankNext := atBlankOrEnd rest
  if l.cursor.column = 0 && c = '%' then l.directive
  else if l.cursor.atDocumentMark then
    l.documentMark (if c = '-' then .documentStart else .documentEnd)
  else if c = '[' then l.openFlow .openBracket
  else if c = '\x7b' then l.openFlow .openBrace
  else if c = ']' then l.closeFlow .closeBracket
  else if c = '\x7d' then l.closeFlow .closeBrace
  else if c = ',' then l.comma
  else if c = '-' && blankNext then l.hyphen
  else if c = '?' && (l.inFlow || blankNext) then l.explicitKey
  else if c = ':' && (l.inFlow || blankNext) then l.colon
  else if c = '*' then
    l.property fun cs => (Token.readName cs.tail).map fun (n, rest) => (.alias n, rest)
  else if c = '&' then
    l.property fun cs => (Token.readName cs.tail).map fun (n, rest) => (.anchor n, rest)
  else if c = '!' then l.property (Token.readTag l.inFlow)
  else if c = '|' && !l.inFlow then l.blockScalar .literal
  else if c = '>' && !l.inFlow then l.blockScalar .folded
  else if c = '\'' then l.quotedScalar true
  else if c = '"' then l.quotedScalar false
  else if !isIndicator c && !isSpaceOrTab c then l.plainScalar
  else if c = '-' && !atBlank rest then l.plainScalar
  else if !l.inFlow && (c = '?' || c = ':') && !blankNext then l.plainScalar
  else none

/-- Closes everything at the end of the text. -/
def finish (l : Lexer) : Option (List Token) := do
  let l ← (l.unindent (-1)).dropCandidate
  some l.tokens.toList

/-- Every step takes a character at least, so `fuel` of them suffice. -/
def run : Nat → Lexer → Option (List Token)
  | 0, _ => none
  | fuel + 1, l => do
    let l ← (l.skipBlanks (l.cursor.rest.length + 1)).dropAllStale
    let l := l.unindent l.cursor.column
    match l.cursor.rest with
    | [] => l.finish
    | c :: rest => run fuel (← l.token c rest)

end Lexer

/-- The tokens of a text, in which some characters may not stand at all. -/
def tokens? (text : String) : Option (List Token) :=
  let cs := text.toList
  if cs.all isAllowed then Lexer.run (cs.length + 1) (.start cs) else none

end SiteContent.Yaml
