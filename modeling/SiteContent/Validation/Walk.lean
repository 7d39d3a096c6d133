import SiteContent.Schema.Node
import SiteContent.Text.Blank
import SiteContent.Validation.Diagnostic

/-! The walk of a value along a schema. It rebuilds the value with defaults in place and collects
every diagnostic; nothing found in one part keeps it from looking at another. -/

namespace SiteContent

/-- What happens to keys that a schema does not declare. -/
inductive Policy where
  | preserve
  | strip
  | reject
  deriving Repr, DecidableEq, Inhabited

/-- A reference at which a walk stopped without a schema: it names no definition, or leads through
definitions that are only references, more of them than there are. -/
inductive Gap where
  | unresolved (target : String)
  | endless (target : String)
  deriving Repr, DecidableEq

/-- What a walk returns: a rebuilt part, the diagnostics in order, and the gaps it passed over. -/
structure Walked (α : Type) where
  result : α
  diagnostics : List Diagnostic
  gaps : List Gap

namespace Walked

variable {α β : Type}

def accept (a : α) : Walked α :=
  ⟨a, [], []⟩

def report (a : α) (location : Location) (cause : Cause) : Walked α :=
  ⟨a, [⟨location, cause⟩], []⟩

def map (f : α → β) (w : Walked α) : Walked β :=
  ⟨f w.result, w.diagnostics, w.gaps⟩

/-- The same walk, seen from one step above. -/
def under (s : Step) (w : Walked α) : Walked α :=
  { w with diagnostics := w.diagnostics.map (·.under s) }

/-- Walks side by side, in order. -/
def all (ws : List (Walked α)) : Walked (List α) :=
  ⟨ws.map (·.result), ws.flatMap (·.diagnostics), ws.flatMap (·.gaps)⟩

end Walked

/-- Where a chain of references ends. -/
inductive Resolution where
  | kind (k : Kind Node)
  | gap (g : Gap)

/-- Follows references, at most `fuel` of them. -/
def Definitions.follow (defs : Definitions) : Nat → Kind Node → Resolution
  | fuel, .reference target =>
    match defs.get? target, fuel with
    | none, _ => .gap (.unresolved target)
    | some _, 0 => .gap (.endless target)
    | some d, fuel + 1 => follow defs fuel d.kind
  | _, k => .kind k

/-- A chain that ends passes each definition at most once. -/
def Definitions.resolve (defs : Definitions) (k : Kind Node) : Resolution :=
  follow defs (List.length defs) k

namespace Walk

/-- The walk of one value, waiting for its schema. -/
abbrev Walker := Kind Node → Walked Json

/-- Entries that an object takes over into the rebuilt object. -/
abbrev Written := List (String × Json)

/-- A supplied value is walked, an absent one takes its default. -/
def field (members : Dict Walker) (f : Field Node) : Walked Written :=
  match members.get? f.name, f.node.default with
  | some walker, _ => ((walker f.node.kind).under (.key f.name)).map fun v => [(f.name, v)]
  | none, some v => .accept [(f.name, v)]
  | none, none =>
    if f.node.required then .report [] [.key f.name] .missingField else .accept []

/-- The entries under keys that are not known. -/
def undeclared (policy : Policy) (known : String → Bool) (entries : Dict Json) : Walked Written :=
  let others := entries.filter fun e => !known e.1
  match policy with
  | .preserve => .accept others
  | .strip => .accept []
  | .reject => ⟨[], others.map fun e => ⟨[.key e.1], .unknownField⟩, []⟩

def mismatch (v : Json) (expected : String) : Cause :=
  .typeMismatch expected v.typeName

/-- The tag of a union's object, when it is a member of the tags. -/
def tagOf? (u : TaggedUnion Node) (entries : Dict Json) : Option String :=
  match entries.get? u.tag with
  | some (.str t) => if u.tags.isMember t then some t else none
  | _ => none

def tag (u : TaggedUnion Node) (entries : Dict Json) : Walked Written :=
  match entries.get? u.tag with
  | none => .report [] [.key u.tag] .missingField
  | some (.str t) =>
    if u.tags.isMember t then .accept [(u.tag, .str t)]
    else .report [] [.key u.tag] (.invalidEnumValue u.tags.members t)
  | some v => .report [] [.key u.tag] (mismatch v "string")

/-- The payload of the selected case, and a complaint about every other payload that is present. -/
def payloads (u : TaggedUnion Node) (members : Dict Walker) (selected : Variant Node) :
    List (Walked Written) :=
  field members selected.payload ::
    (u.variants.filter fun v => v.tag ≠ selected.tag && members.contains v.payload.name).map
      fun v => .report [] [.key v.payload.name] (.forbiddenField u.tag selected.tag)

/-- Later entries win over earlier ones of the same key. -/
def assemble (parts : List (Walked Written)) : Walked Json :=
  (Walked.all parts).map fun written => .obj (Dict.ofList written.flatten)

def object (policy : Policy) (s : Schema) (entries : Dict Json) (members : Dict Walker) :
    Walked Json :=
  assemble (s.fields.map (field members) ++ [undeclared policy s.contains entries])

def union (policy : Policy) (u : TaggedUnion Node) (entries : Dict Json)
    (members : Dict Walker) : Walked Json :=
  let selected := (tagOf? u entries).bind u.variantFor?
  assemble (u.common.fields.map (field members) ++ [tag u entries] ++
    (selected.map (payloads u members)).getD [] ++ [undeclared policy u.knows entries])

def array (items : Node) (nonEmpty : Bool) (elements : List Walker) : Walked Json :=
  let ws := elements.zipIdx.map fun (walker, i) => (walker items.kind).under (.index i)
  let inside := (Walked.all ws).map Json.arr
  if nonEmpty && elements.isEmpty then
    { inside with diagnostics := ⟨[], .emptyField⟩ :: inside.diagnostics }
  else inside

/-- The answer of a kind, which is no reference, to a value whose parts wait to be walked. -/
def answer (policy : Policy) (v : Json) (elements : List Walker) (members : Dict Walker) :
    Kind Node → Walked Json
  | k =>
    match k, v with
    | .string nonEmpty, .str s =>
      if nonEmpty && Text.allBlank s then .report v [] .emptyField else .accept v
    | .boolean, .bool _ | .number, .num _ | .any, _ => .accept v
    | .enumeration e, .str s =>
      if e.isMember s then .accept v else .report v [] (.invalidEnumValue e.members s)
    | .object s, .obj es => object policy s es members
    | .array items nonEmpty, .arr _ => array items nonEmpty elements
    | .oneOf u, .obj es => union policy u es members
    | k, v => .report v [] (mismatch v k.expected)

/-- A gap passes the value on as it is. -/
def resolved (defs : Definitions) (policy : Policy) (v : Json) (elements : List Walker)
    (members : Dict Walker) (k : Kind Node) : Walked Json :=
  match defs.resolve k with
  | .gap g => ⟨v, [], [g]⟩
  | .kind k => answer policy v elements members k

mutual

/-- Walks a value along a kind. -/
def value (defs : Definitions) (policy : Policy) : Json → Walker
  | .arr es => resolved defs policy (.arr es) (elements defs policy es) []
  | .obj es => resolved defs policy (.obj es) [] (members defs policy es)
  | .null => resolved defs policy .null [] []
  | .bool b => resolved defs policy (.bool b) [] []
  | .num n => resolved defs policy (.num n) [] []
  | .str s => resolved defs policy (.str s) [] []

def elements (defs : Definitions) (policy : Policy) : List Json → List Walker
  | [] => []
  | v :: vs => value defs policy v :: elements defs policy vs

def members (defs : Definitions) (policy : Policy) : List (String × Json) → Dict Walker
  | [] => []
  | (k, v) :: es => (k, value defs policy v) :: members defs policy es

end

theorem elements_eq_map (defs : Definitions) (policy : Policy) (vs : List Json) :
    elements defs policy vs = vs.map (value defs policy) := by
  induction vs with
  | nil => rfl
  | cons v vs ih => simp [elements, ih]

theorem members_eq_mapValues (defs : Definitions) (policy : Policy) (es : List (String × Json)) :
    members defs policy es = Dict.mapValues (value defs policy) es := by
  induction es with
  | nil => rfl
  | cons e es ih =>
    obtain ⟨k, v⟩ := e
    simp [members, ih, Dict.mapValues]

end Walk

end SiteContent
