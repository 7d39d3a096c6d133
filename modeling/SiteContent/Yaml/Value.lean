import SiteContent.Yaml.Scalar
import SiteContent.Yaml.Tree

/-! The JSON value of a YAML document. Collections nest at most 128 deep, and aliases are followed
at most a hundred times as often as the document is large. -/

namespace SiteContent.Yaml

/-- Reads parts of a document while counting the aliases that may still be followed. -/
abbrev Valuation := StateT Nat Option

namespace Tree

def greatestDepth : Nat := 128

/-- The node that a node stands for: of an alias its target, otherwise itself. -/
def resolve (root : Tree) : Tree → Valuation Tree
  | .alias a => do
    match ← get with
    | 0 => failure
    | n + 1 =>
      set n
      root.target? a
  | t => pure t

/-- A key is the text of a scalar, whatever its tag. -/
def key (root : Tree) (t : Tree) : Valuation String := do
  match ← root.resolve t with
  | .scalar _ text _ => return text
  | _ => failure

/-- The value of a scalar that has no tag. -/
def untaggedValue (text : String) (style : Style) : Option Json :=
  if style = .plain then (Scalar.resolve text).toJson? text else some (.str text)

/-- A local tag without a name does not count. -/
def scalarValue (ps : Properties) (text : String) (style : Style) : Option Json :=
  match ps.tag with
  | some tag => if tag.isLocal then untaggedValue text style else Scalar.tagged tag text
  | none => untaggedValue text style

/-- A local tag with a name asks for a type that is not known here. -/
def isForeign (ps : Properties) : Bool :=
  (ps.tag.bind Tag.localName?).isSome

/-- The value of a node below which collections nest at most `depth` deep. Of equal keys the last
one counts. -/
def value (root : Tree) : Nat → Tree → Valuation Json
  | depth, t => do
    let node ← root.resolve t
    if isForeign node.properties then failure
    else
      match node, depth with
      | .scalar ps text style, _ => scalarValue ps text style
      | .sequence _ items, depth + 1 =>
        return .arr (← items.mapM (value root depth))
      | .mapping _ entries, depth + 1 =>
        let es ← entries.mapM fun (k, v) => do
          let name ← root.key k
          return (name, ← value root depth v)
        return .obj (Dict.ofList es)
      | _, _ => failure

def toJson? (root : Tree) : Option Json :=
  ((value root greatestDepth root).run (100 * root.size)).map (·.1)

end Tree

/-- The tree of a text that holds one document at most. -/
def parse? (text : String) : Option Tree :=
  (tokens? text).bind Tree.ofTokens?

end SiteContent.Yaml
