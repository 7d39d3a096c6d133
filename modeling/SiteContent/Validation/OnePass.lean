import SiteContent.Validation.Walk

/-! The walk of a value in one pass over it. Paths are texts that grow on the way down, errors go to
the end of one list in which earlier ones may stand already, and a rebuilt object is filled key by
key. References are followed one at a time. The walk calls itself, and what one call does is said of
any walk that it may call. -/

namespace SiteContent

/-- Runs that add errors to a list and need not come to an end. -/
abbrev OnePass (α : Type) := StateT (List ValidationError) Option α

namespace OnePass

open Location (extendPath)

def report (path : String) (cause : Cause) : OnePass Unit :=
  modify fun errors => errors ++ [.new path cause]

def reportIf (fault : Bool) (path : String) (cause : Cause) : OnePass Unit :=
  if fault then report path cause else pure ()

/-- Goes through the keys that are not known. -/
def undeclared (policy : Policy) (known : String → Bool) (path : String) :
    List (String × Json) → Dict Json → OnePass (Dict Json)
  | [], out => return out
  | (key, v) :: es, out =>
    if known key then undeclared policy known path es out
    else
      match policy with
      | .preserve => undeclared policy known path es (out.insert key v)
      | .strip => undeclared policy known path es out
      | .reject => do
        report (extendPath path (.key key)) .unknownField
        undeclared policy known path es out

/-- Takes over the tag, and finds the case that it selects. -/
def tag (u : TaggedUnion Node) (path : String) (es out : Dict Json) :
    OnePass (Dict Json × Option (Variant Node)) :=
  match es.get? u.tag with
  | none => do
    report (extendPath path (.key u.tag)) .missingField
    return (out, none)
  | some (.str t) =>
    if u.tags.isMember t then return (out.insert u.tag (.str t), u.variantFor? t)
    else do
      report (extendPath path (.key u.tag)) (.invalidEnumValue u.tags.members t)
      return (out, none)
  | some v => do
    report (extendPath path (.key u.tag)) (Walk.mismatch v "string")
    return (out, none)

/-- Complains of the payloads of cases that are not selected. -/
def forbid (u : TaggedUnion Node) (selected : Variant Node) (path : String) (es : Dict Json) :
    List (Variant Node) → OnePass Unit
  | [] => return ()
  | c :: cs => do
    reportIf (c.tag ≠ selected.tag && es.contains c.payload.name)
      (extendPath path (.key c.payload.name)) (.forbiddenField u.tag selected.tag)
    forbid u selected path es cs

/-- The walk of a value at a path along a kind. -/
abbrev Walker := String → Json → Kind Node → OnePass Json

def fields (walk : Walker) (path : String) (es : Dict Json) :
    List (Field Node) → Dict Json → OnePass (Dict Json)
  | [], out => return out
  | f :: fs, out =>
    match es.get? f.name, f.node.default with
    | some v, _ => do
      let rebuilt ← walk (extendPath path (.key f.name)) v f.node.kind
      fields walk path es fs (out.insert f.name rebuilt)
    | none, some v => fields walk path es fs (out.insert f.name v)
    | none, none => do
      reportIf f.node.required (extendPath path (.key f.name)) .missingField
      fields walk path es fs out

def elements (walk : Walker) (path : String) (items : Node) :
    Nat → List Json → OnePass (List Json)
  | _, [] => return []
  | i, v :: vs => do
    let rebuilt ← walk (extendPath path (.index i)) v items.kind
    return rebuilt :: (← elements walk path items (i + 1) vs)

def payload (walk : Walker) (path : String) (u : TaggedUnion Node) (es : Dict Json)
    (selected : Option (Variant Node)) (out : Dict Json) : OnePass (Dict Json) :=
  match selected with
  | none => return out
  | some c => do
    let out ← fields walk path es [c.payload] out
    forbid u c path es u.variants
    return out

def union (policy : Policy) (walk : Walker) (path : String) (u : TaggedUnion Node)
    (es : Dict Json) : OnePass Json := do
  let out ← fields walk path es u.common.fields []
  let (out, selected) ← tag u path es out
  let out ← payload walk path u es selected out
  return .obj (← undeclared policy u.knows path es out)

/-- One call of the walk. -/
def call (defs : Definitions) (policy : Policy) (walk : Walker) : Walker := fun path v k =>
  match k, v with
  | .string nonEmpty, .str s => do
    reportIf (nonEmpty && Text.allBlank s) path .emptyField
    return v
  | .boolean, .bool _ => return v
  | .number, .num _ => return v
  | .enumeration e, .str s => do
    reportIf (!e.isMember s) path (.invalidEnumValue e.members s)
    return v
  | .object s, .obj es => do
    let out ← fields walk path es s.fields []
    return .obj (← undeclared policy s.contains path es out)
  | .array items nonEmpty, .arr vs => do
    reportIf (nonEmpty && vs.isEmpty) path .emptyField
    return .arr (← elements walk path items 0 vs)
  | .oneOf u, .obj es => union policy walk path u es
  | .any, _ => return v
  | .reference target, _ =>
    match defs.get? target with
    | some definition => walk path v definition.kind
    | none => return v
  | k, v => do
    report path (Walk.mismatch v k.expected)
    return v

/-- The walk as far as it takes no more than `depth` calls inside one another. -/
def value (defs : Definitions) (policy : Policy) : Nat → Walker
  | 0 => fun _ _ _ => failure
  | depth + 1 => call defs policy (value defs policy depth)

/-- The walk comes to an end, with a rebuilt value and a list of errors. -/
def Returns (defs : Definitions) (policy : Policy) (path : String) (v : Json) (k : Kind Node)
    (errors : List ValidationError) (answer : Json × List ValidationError) : Prop :=
  ∃ depth, (value defs policy depth path v k).run errors = some answer

end OnePass

end SiteContent
