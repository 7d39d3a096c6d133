import SiteContent.Decimal.Shortest
import SiteContent.Json.Basic

/-! Writing JSON text, on one line or indented by two spaces. -/

namespace SiteContent

def Number.render (layout : FloatLayout) : Number → String
  | .int n => toString n
  | .float x => layout.render x

namespace Json

/-- Numbers are positional from five decimal places up to sixteen digits. -/
def floatLayout : FloatLayout := ⟨-5, 15, true⟩

def hexDigit (n : Nat) : Char :=
  if n < 10 then Char.ofNat ('0'.toNat + n) else Char.ofNat ('a'.toNat + n - 10)

/-- Quotes, backslashes and control characters are escaped, everything else stands for itself. -/
def escape (c : Char) : List Char :=
  match c with
  | '"' => ['\\', '"']
  | '\\' => ['\\', '\\']
  | '\x08' => ['\\', 'b']
  | '\x0c' => ['\\', 'f']
  | '\n' => ['\\', 'n']
  | '\r' => ['\\', 'r']
  | '\t' => ['\\', 't']
  | c =>
    if c.toNat < 0x20 then
      ['\\', 'u', '0', '0', hexDigit (c.toNat / 16), hexDigit (c.toNat % 16)]
    else [c]

def quote (s : String) : String :=
  String.ofList ('"' :: (s.toList.flatMap escape ++ ['"']))

mutual

/-- The value on one line, without spaces. -/
def compact : Json → String
  | .null => "null"
  | .bool b => if b then "true" else "false"
  | .num n => n.render floatLayout
  | .str s => quote s
  | .arr es => "[" ++ ",".intercalate (compactElements es) ++ "]"
  | .obj es => "\x7b" ++ ",".intercalate (compactEntries es) ++ "\x7d"

def compactElements : List Json → List String
  | [] => []
  | v :: vs => v.compact :: compactElements vs

def compactEntries : List (String × Json) → List String
  | [] => []
  | (k, v) :: es => (quote k ++ ":" ++ v.compact) :: compactEntries es

end

/-- Puts the parts of a container on lines of their own, or nothing between its brackets. -/
def block (indent opening closing : String) (parts : List String) : String :=
  if parts.isEmpty then opening ++ closing
  else
    opening ++ "\n" ++ indent ++ "  " ++ (",\n" ++ indent ++ "  ").intercalate parts ++
      "\n" ++ indent ++ closing

mutual

/-- The value with each element and entry on its own line, inside the given indentation. -/
def prettyAt (indent : String) : Json → String
  | .null => "null"
  | .bool b => if b then "true" else "false"
  | .num n => n.render floatLayout
  | .str s => quote s
  | .arr es => block indent "[" "]" (prettyElements (indent ++ "  ") es)
  | .obj es => block indent "\x7b" "\x7d" (prettyEntries (indent ++ "  ") es)

def prettyElements (indent : String) : List Json → List String
  | [] => []
  | v :: vs => v.prettyAt indent :: prettyElements indent vs

def prettyEntries (indent : String) : List (String × Json) → List String
  | [] => []
  | (k, v) :: es => (quote k ++ ": " ++ v.prettyAt indent) :: prettyEntries indent es

end

def pretty (v : Json) : String :=
  v.prettyAt ""

end Json

end SiteContent
