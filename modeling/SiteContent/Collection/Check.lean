import SiteContent.Validation.Walk

/-! The checks that a schema graph passes before any document is validated: field names are
distinct, the cases of a union are its tags, references lead to definitions, no definition contains
itself except inside an array, and defaults satisfy their own nodes. -/

namespace SiteContent.Check

/-- The definitions entered on the way to a node, each with the number of arrays crossed before. -/
abbrev Trail := List (String × Nat)

/-- How to go on at a reference: from its target, the path, the trail and the arrays crossed. -/
abbrev Enter := String → String → Trail → Nat → Except SchemaError Unit

def join (path name : String) : String :=
  Location.extendPath path (.key name)

/-- How an error names the object at a path. -/
def context (path : String) : String :=
  if path.isEmpty then "root object" else "'" ++ path ++ "'"

/-- A default is walked like a value that was supplied; the first diagnostic is the defect. -/
def default (defs : Definitions) (path : String) (kind : Kind Node) :
    Option Json → Except SchemaError Unit
  | none => .ok ()
  | some v =>
    let w := Walk.value defs .preserve v kind
    match w.gaps.findSome? fun g => match g with | .endless t => some t | .unresolved _ => none with
    | some target => .error (.endlessDefault path target)
    | none =>
      match w.diagnostics with
      | [] => .ok ()
      | d :: _ => .error (.invalidDefault path d.cause.message)

/-- What is wrong with the tags of the cases: one is no member, or repeats an earlier one. -/
def caseFault? (tags : Enumeration) : List String → List String → Option String
  | _, [] => none
  | seen, t :: rest =>
    if !tags.isMember t then some ("case '" ++ t ++ "' is not in " ++ tags.name)
    else if t ∈ seen then some ("case '" ++ t ++ "' is declared twice")
    else caseFault? tags (t :: seen) rest

/-- The cases match the tags one to one, and tag, common and payload names are distinct. -/
def cases (path : String) (u : TaggedUnion Node) : Except SchemaError Unit :=
  let tags := u.variants.map (·.tag)
  match caseFault? u.tags [] tags with
  | some detail => .error (.variantMismatch u.tag detail)
  | none =>
    match u.tags.members.find? fun m => !tags.contains m with
    | some m => .error (.variantMismatch u.tag ("no case for '" ++ m ++ "'"))
    | none =>
      match Names.firstRepeat? [u.tag] (u.common.names ++ u.variants.map (·.payload.name)) with
      | some name => .error (.fieldCollision name (context path))
      | none => .ok ()

mutual

/-- A node's parts come before its own default. -/
def node (defs : Definitions) (enter : Enter) (path : String) (trail : Trail) (depth : Nat) :
    Node → Except SchemaError Unit
  | ⟨k, _, d, _⟩ => do
    kind defs enter path trail depth k
    default defs path k d

def kind (defs : Definitions) (enter : Enter) (path : String) (trail : Trail) (depth : Nat) :
    Kind Node → Except SchemaError Unit
  | .object ⟨fs⟩ => fields defs enter path trail depth [] fs
  | .array items _ => node defs enter (path ++ "[]") trail (depth + 1) items
  | .oneOf ⟨tag, tags, ⟨common⟩, vs⟩ => do
    cases path ⟨tag, tags, ⟨common⟩, vs⟩
    fields defs enter path trail depth [] common
    variants defs enter path trail depth vs
  | .reference target => enter target path trail depth
  | .string _ | .boolean | .number | .enumeration _ | .any => .ok ()

/-- A repeated name is found when its turn comes, after the fields before it. -/
def fields (defs : Definitions) (enter : Enter) (path : String) (trail : Trail) (depth : Nat)
    (seen : List String) : List (Field Node) → Except SchemaError Unit
  | [] => .ok ()
  | ⟨name, n⟩ :: rest =>
    if name ∈ seen then .error (.fieldCollision name (context path))
    else do
      node defs enter (join path name) trail depth n
      fields defs enter path trail depth (name :: seen) rest

def variants (defs : Definitions) (enter : Enter) (path : String) (trail : Trail) (depth : Nat) :
    List (Variant Node) → Except SchemaError Unit
  | [] => .ok ()
  | ⟨_, ⟨name, n⟩⟩ :: rest => do
    node defs enter (join path name) trail depth n
    variants defs enter path trail depth rest

end

/-- Enters a definition unless the trail is inside it already, which is allowed when an array has
been crossed since. A trail never repeats a name, so as many entries as definitions are enough. -/
def enter (defs : Definitions) : Nat → Enter
  | fuel, target, path, trail, depth =>
    match Dict.get? defs target with
    | none => .error (.unresolvedReference target)
    | some definition =>
      match Dict.get? trail target, fuel with
      | some entered, _ =>
        if entered < depth then .ok () else .error (.unboundedRecursion target)
      | none, 0 => .error (.unboundedRecursion target)
      | none, fuel + 1 =>
        node defs (enter defs fuel) path ((target, depth) :: trail) depth definition

/-- Checks definitions one by one, each as entered from nowhere. -/
def definitions (defs : Definitions) : List (String × Node) → Except SchemaError Unit
  | [] => .ok ()
  | (name, n) :: rest => do
    node defs (enter defs (List.length defs)) name [(name, 0)] 0 n
    definitions defs rest

/-- Checks the root schema, then every definition. -/
def graph (defs : Definitions) (root : Schema) : Except SchemaError Unit := do
  fields defs (enter defs (List.length defs)) "" [] 0 [] root.fields
  definitions defs defs

end SiteContent.Check
