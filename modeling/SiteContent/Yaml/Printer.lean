import SiteContent.Json.Printer
import SiteContent.Yaml.Spelling

/-! Writing JSON values as YAML in block style. A sequence inside a mapping stands at the column of
its key. -/

namespace SiteContent.Yaml

/-- Numbers are positional as in JSON, and a large exponent has no sign. -/
def floatLayout : FloatLayout := ⟨-5, 15, false⟩

namespace Printer

def pad (indent : Nat) : String :=
  String.ofList (Spelling.pad indent)

/-- A text that ends its line, if it does not do so already. -/
def closeLine (s : String) : String :=
  if s.toList.getLast?.any isBreak then s else s ++ "\n"

/-- A key that stands before its colon: one line of at most 128 bytes. -/
def isSimpleKey (key : String) : Bool :=
  key.utf8ByteSize ≤ 128 && !key.toList.any isBreak

def simpleKey (key : String) : String :=
  Spelling.string 0 key

/-- A value that holds no others, up to the end of its line. -/
def leaf (indent : Nat) : Json → String
  | .null => "null\n"
  | .bool b => if b then "true\n" else "false\n"
  | .num n => n.render floatLayout ++ "\n"
  | .str s => closeLine (Spelling.string indent s)
  | .arr _ => "[]\n"
  | .obj _ => "\x7b\x7d\n"

/-- Puts the first part in the current line and the others on lines of their own. -/
def stack (indent : Nat) (parts : List String) : String :=
  (pad indent).intercalate parts

mutual

/-- A value that begins in the current line, where the entries of a collection are at column
`indent`. -/
def value (indent : Nat) : Json → String
  | .arr (v :: vs) => stack indent (items indent (v :: vs))
  | .obj (e :: es) => stack indent (entries indent (e :: es))
  | v => leaf indent v

def items (indent : Nat) : List Json → List String
  | [] => []
  | v :: vs => ("- " ++ value (indent + 2) v) :: items indent vs

/-- A key that is not simple has a mark of its own, and so has its value. -/
def entries (indent : Nat) : List (String × Json) → List String
  | [] => []
  | (key, v) :: es =>
    (if isSimpleKey key then simpleKey key ++ ":" ++ afterColon indent v
    else
      "? " ++ closeLine (Spelling.string (indent + 2) key) ++ pad indent ++ ": " ++
        value (indent + 2) v) :: entries indent es

/-- A collection after a key begins on the next line. -/
def afterColon (indent : Nat) : Json → String
  | .arr (v :: vs) => "\n" ++ pad indent ++ stack indent (items indent (v :: vs))
  | .obj (e :: es) =>
    "\n" ++ pad (indent + 2) ++ stack (indent + 2) (entries (indent + 2) (e :: es))
  | v => " " ++ leaf (indent + 2) v

end

end Printer

/-- The YAML text of a value, which ends with a line break. A string on its own is indented as in a
mapping. -/
def render : Json → String
  | .str s => Printer.leaf 2 (.str s)
  | v => Printer.value 0 v

end SiteContent.Yaml
