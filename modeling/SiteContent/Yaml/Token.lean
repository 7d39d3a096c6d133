import SiteContent.Yaml.ScalarText
import SiteContent.Yaml.Tag

/-! The tokens of a YAML text. -/

namespace SiteContent.Yaml

inductive Token where
  | version (major minor : Nat)
  | tagHandle (handle : String) (expansion : Tag)
  | documentStart
  | documentEnd
  | blockSequence
  | blockMapping
  | blockEnd
  | openBracket
  | closeBracket
  | openBrace
  | closeBrace
  | hyphen
  | comma
  | key
  | value
  | alias (name : String)
  | anchor (name : String)
  | tag (handle : String) (suffix : Tag)
  | scalar (text : String) (style : Style)
  deriving Repr, DecidableEq

namespace Token

/-- The characters of a tag that need no escape. Commas and brackets belong to a tag only when it is
written out in full. -/
def isTagChar (full : Bool) (c : Char) : Bool :=
  isWordChar c || ";/?:@&=+$.!~*'()".toList.contains c ||
    (full && (c = ',' || c = '[' || c = ']'))

/-- How many bytes a lead byte announces, itself included. -/
def leadWidth? (b : UInt8) : Option Nat :=
  if b < 0x80 then some 1
  else if 0xC0 ≤ b && b < 0xE0 then some 2
  else if 0xE0 ≤ b && b < 0xF0 then some 3
  else if 0xF0 ≤ b && b < 0xF8 then some 4
  else none

/-- Escaped bytes, each a percent sign and two digits. -/
def escapedBytes : Nat → List Char → Option (List UInt8 × List Char)
  | 0, cs => some ([], cs)
  | n + 1, '%' :: a :: b :: rest => do
    let byte := (← ScalarText.hexDigit? a) * 16 + (← ScalarText.hexDigit? b)
    let (bytes, rest) ← escapedBytes n rest
    some (UInt8.ofNat byte :: bytes, rest)
  | _, _ => none

/-- A lead byte and the bytes it announces, all of them escaped. Together they need not be text. -/
def escapedSequence (cs : List Char) : Option (List UInt8 × List Char) := do
  let (lead, _) ← escapedBytes 1 cs
  let width ← leadWidth? (← lead.head?)
  let (bytes, rest) ← escapedBytes width cs
  if bytes.tail.all Text.Utf8.isContinuation then some (bytes, rest) else none

/-- The bytes of a tag, last first, after `done`. -/
def tagBytes (full : Bool) : Nat → List UInt8 → List Char → Option (List UInt8 × List Char)
  | 0, _, _ => none
  | fuel + 1, done, cs =>
    match cs with
    | '%' :: _ => do
      let (bytes, rest) ← escapedSequence cs
      tagBytes full fuel (bytes.reverse ++ done) rest
    | c :: rest =>
      if isTagChar full c then tagBytes full fuel (c.toUInt8 :: done) rest else some (done, cs)
    | [] => some (done, [])

/-- A tag, or a part of one, of at least one character. -/
def someTag (full : Bool) (cs : List Char) : Option (Tag × List Char) := do
  let (done, rest) ← tagBytes full (cs.length + 1) [] cs
  if done.isEmpty then none else some (Tag.ofBytes done.reverse, rest)

/-- A handle: an exclamation mark, a word, and perhaps another exclamation mark. -/
def handle? : List Char → Option (List Char × List Char)
  | '!' :: rest =>
    let word := rest.takeWhile isWordChar
    match rest.drop word.length with
    | '!' :: rest => some ('!' :: word ++ ['!'], rest)
    | rest => some ('!' :: word, rest)
  | _ => none

/-- A tag: written out in full between angle brackets, or a handle with a suffix. A handle that does
not end in an exclamation mark is the beginning of the suffix. -/
def readTag (inFlow : Bool) (cs : List Char) : Option (Token × List Char) := do
  let (token, rest) ←
    match cs with
    | '!' :: '<' :: body => do
      let (suffix, rest) ← someTag true body
      match rest with
      | '>' :: rest => some (Token.tag "" suffix, rest)
      | _ => none
    | _ => do
      let (handle, rest) ← handle? cs
      if 1 < handle.length && handle.getLast? == some '!' then
        let (suffix, rest) ← someTag false rest
        some (Token.tag (String.ofList handle) suffix, rest)
      else
        let begun := (handle.tail.map Char.toUInt8).reverse
        let (done, rest) ← tagBytes false (rest.length + 1) begun rest
        let suffix := Tag.ofBytes done.reverse
        if suffix.bytes.isEmpty then some (Token.tag "" Tag.mark, rest)
        else some (Token.tag "!" suffix, rest)
  if atBlankOrEnd rest || (inFlow && rest.head? == some ',') then some (token, rest) else none

/-- The name of an anchor or alias, and the text after it. -/
def readName (cs : List Char) : Option (String × List Char) :=
  let word := cs.takeWhile isWordChar
  let rest := cs.drop word.length
  if word.isEmpty then none
  else if atBlankOrEnd rest || (rest.head?.any fun c => "?:,]\x7d%@`".toList.contains c) then
    some (String.ofList word, rest)
  else none

/-- A number of at most nine digits. -/
def readVersionPart (cs : List Char) : Option (Nat × List Char) :=
  let ds := cs.takeWhile Char.isDigit
  if ds.isEmpty || 9 < ds.length then none
  else some (ds.foldl (fun n d => n * 10 + (d.toNat - '0'.toNat)) 0, cs.drop ds.length)

/-- A directive after its percent sign: the version of YAML or the meaning of a tag handle. -/
def readDirective (cs : List Char) : Option (Token × List Char) := do
  let name := cs.takeWhile isWordChar
  let rest := cs.drop name.length
  if !atBlankOrEnd rest then none
  else
    let rest := rest.dropWhile isSpaceOrTab
    if name = "YAML".toList then
      let (major, rest) ← readVersionPart rest
      match rest with
      | '.' :: rest =>
        let (minor, rest) ← readVersionPart rest
        some (.version major minor, rest)
      | _ => none
    else if name = "TAG".toList then
      let (handle, rest) ← handle? rest
      if handle ≠ ['!'] && handle.getLast? ≠ some '!' then none
      else if !atBlank rest then none
      else
        let (expansion, rest) ← someTag true (rest.dropWhile isSpaceOrTab)
        if atBlankOrEnd rest then some (.tagHandle (String.ofList handle) expansion, rest)
        else none
    else none

end Token

end SiteContent.Yaml
