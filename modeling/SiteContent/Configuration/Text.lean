import SiteContent.Configuration.Basic
import SiteContent.Text.Blank
import SiteContent.Yaml.Printer
import SiteContent.Yaml.Value

/-! Configurations as YAML texts. Strings are taken as written: `version: 1.0` is the text of the
number. -/

namespace SiteContent

namespace Configuration

open Yaml

/-- The nodes of a list, which may be left empty. -/
def nodes (root t : Tree) : Valuation (List Tree) := do
  match ← root.resolve t with
  | .sequence _ items => return items
  | .scalar _ "" .plain => return []
  | _ => failure

def strings (root t : Tree) : Valuation (List String) := do
  (← nodes root t).mapM root.key

/-- Whether a plain scalar stands for nothing. The tag of null is refused beside any other text. -/
def isAbsent (tag : Option Tag) (text : String) : Valuation Bool :=
  match tag with
  | some t =>
    if t = .standard "null" then if Scalar.isNull text then return true else failure
    else return false
  | none => return text.isEmpty || Scalar.isNull text

/-- A count of 64 bits, which has no minus sign. -/
def count? (text : String) : Option Nat :=
  if text.toList.head? == some '-' then none
  else ((Scalar.int? text.toList).filter Scalar.fitsWord).map Int.toNat

def jobCount (root t : Tree) : Valuation (Option Nat) := do
  match ← root.resolve t with
  | .scalar ps text .plain =>
    if ← isAbsent ps.tag text then return none
    else
      match count? text with
      | some n => return some n
      | none => failure
  | .scalar ps text .literal =>
    match decide (ps.tag = some (.standard "int")), count? text with
    | true, some n => return some n
    | _, _ => failure
  | _ => failure

def policyNamed (name : String) : Valuation Policy :=
  match Policy.table.find? fun e => e.1 = name with
  | some e => return e.2
  | none => failure

/-- A policy is named by a local tag with nothing beside it, or else by the text of a scalar. -/
def policy (root t : Tree) : Valuation Policy := do
  match ← root.resolve t with
  | .scalar ps text style =>
    match ps.tag.bind Tag.localName? with
    | some name =>
      if style = .plain && (text.isEmpty || Scalar.isNull text) then policyNamed name
      else failure
    | none => policyNamed text
  | _ => failure

/-- The keys that mean something. -/
def keys : List String :=
  ["version", "content_dir", "collections", "exclude", "unknown_fields", "jobs", "extensions"]

/-- Sets the value of a key; other keys mean nothing. -/
def set (root : Tree) (c : Configuration) (key : String) (t : Tree) : Valuation Configuration := do
  match key with
  | "version" => return { c with version := ← root.key t }
  | "content_dir" => return { c with contentDir := ← root.key t }
  | "collections" => return { c with collections := ← strings root t }
  | "exclude" => return { c with exclude := ← strings root t }
  | "unknown_fields" => return { c with unknownFields := ← policy root t }
  | "jobs" => return { c with jobs := ← jobCount root t }
  | "extensions" => return { c with extensions := ← strings root t }
  | _ => return c

/-- No key may be set twice. -/
def ofEntries (root : Tree) :
    Configuration → List String → List (Tree × Tree) → Valuation Configuration
  | c, _, [] => return c
  | c, seen, (k, v) :: es => do
    let key ← root.key k
    if seen.contains key then failure
    else
      ofEntries root (← set root c key v) (if keys.contains key then key :: seen else seen) es

def ofTree (root : Tree) : Valuation Configuration := do
  match root with
  | .mapping _ es => ofEntries root {} [] es
  | .scalar ps text .plain =>
    if (← isAbsent ps.tag text) || text.isEmpty then return {} else failure
  | _ => failure

/-- A text without content is the standard configuration. -/
def parse? (text : String) : Option Configuration :=
  if Text.allBlank text then some {}
  else do
    let root ← Yaml.parse? text
    let (c, _) ← (ofTree root).run (100 * root.size)
    some c

/-- The text of a configuration, with every key. -/
def render (c : Configuration) : String :=
  Yaml.render c.encode

end Configuration

end SiteContent
