import SiteContent.Json.Basic
import SiteContent.Schema.Enumeration

/-! Schemas: trees of nodes whose objects have ordered fields. A reference names a definition beside
the tree, which alone makes recursive schemas possible. -/

namespace SiteContent

/-- Presentation hints for an authoring tool. Validation never reads them. -/
structure Hints where
  entries : Dict String
  deriving Repr, DecidableEq

namespace Hints

def empty : Hints := ⟨[]⟩

/-- Adds a hint, over any earlier one under the same key. -/
def insert (h : Hints) (key value : String) : Hints :=
  ⟨h.entries.insert key value⟩

def get? (h : Hints) (key : String) : Option String :=
  h.entries.get? key

def isEmpty (h : Hints) : Bool :=
  h.entries.isEmpty

end Hints

/-- A named place of an object. -/
structure Field (α : Type) where
  name : String
  node : α
  deriving Repr, DecidableEq

/-- The fields of an object in declaration order, which is the order of its diagnostics. -/
structure Shape (α : Type) where
  fields : List (Field α)
  deriving Repr, DecidableEq

/-- One case of a tagged union: the tag that selects it and the only payload it allows. -/
structure Variant (α : Type) where
  tag : String
  payload : Field α
  deriving Repr, DecidableEq

/-- An object with common fields and, under `tag`, a string that selects one payload field. The
payloads of the other cases are forbidden. -/
structure TaggedUnion (α : Type) where
  tag : String
  tags : Enumeration
  common : Shape α
  variants : List (Variant α)
  deriving Repr, DecidableEq

inductive Kind (α : Type) where
  | string (nonEmpty : Bool)
  | boolean
  | number
  | enumeration (set : Enumeration)
  | object (shape : Shape α)
  | array (items : α) (nonEmpty : Bool)
  | oneOf (union : TaggedUnion α)
  | any
  | reference (target : String)
  deriving Repr, DecidableEq, Inhabited

/-- The name of a kind's structural type in diagnostics. -/
def Kind.expected {α : Type} : Kind α → String
  | .string _ | .enumeration _ => "string"
  | .boolean => "boolean"
  | .number => "number"
  | .object _ | .oneOf _ => "object"
  | .array _ _ => "array"
  | .any => "any"
  | .reference _ => "reference"

/-- One node of a schema. A value that is absent takes the default if there is one. -/
structure Node where
  kind : Kind Node
  required : Bool
  default : Option Json
  hints : Hints

abbrev Schema := Shape Node

abbrev Definitions := Dict Node

namespace Shape

variable {α : Type}

def empty : Shape α := ⟨[]⟩

def ofList (fields : List (String × α)) : Shape α :=
  ⟨fields.map fun (name, node) => ⟨name, node⟩⟩

def append (s : Shape α) (name : String) (node : α) : Shape α :=
  ⟨s.fields ++ [⟨name, node⟩]⟩

/-- The first field of that name. -/
def get? (s : Shape α) (name : String) : Option (Field α) :=
  s.fields.find? fun f => f.name = name

def contains (s : Shape α) (name : String) : Bool :=
  s.fields.any fun f => f.name = name

def names (s : Shape α) : List String :=
  s.fields.map (·.name)

end Shape

namespace TaggedUnion

variable {α : Type}

/-- The first case that `tag` selects. -/
def variantFor? (u : TaggedUnion α) (tag : String) : Option (Variant α) :=
  u.variants.find? fun v => v.tag = tag

def isPayload (u : TaggedUnion α) (name : String) : Bool :=
  u.variants.any fun v => v.payload.name = name

def knows (u : TaggedUnion α) (name : String) : Bool :=
  name = u.tag || u.common.contains name || u.isPayload name

end TaggedUnion

namespace Node

/-- A required node without default or hints. -/
def ofKind (kind : Kind Node) : Node :=
  ⟨kind, true, none, .empty⟩

instance : Inhabited Node := ⟨ofKind .any⟩

def string : Node := ofKind (.string false)

/-- A string that trimming must not empty. -/
def text : Node := ofKind (.string true)

def boolean : Node := ofKind .boolean

def number : Node := ofKind .number

def enumeration (set : Enumeration) : Node := ofKind (.enumeration set)

def object (shape : Schema) : Node := ofKind (.object shape)

def array (items : Node) : Node := ofKind (.array items false)

def oneOf (union : TaggedUnion Node) : Node := ofKind (.oneOf union)

def any : Node := ofKind .any

def reference (target : String) : Node := ofKind (.reference target)

def optional (n : Node) : Node :=
  { n with required := false }

def withDefault (n : Node) (value : Json) : Node :=
  { n with required := false, default := some value }

/-- Forbids blank strings and empty lists; other kinds stay as they are. -/
def nonEmpty (n : Node) : Node :=
  match n.kind with
  | .string _ => { n with kind := .string true }
  | .array items _ => { n with kind := .array items true }
  | _ => n

def withHint (n : Node) (key value : String) : Node :=
  { n with hints := n.hints.insert key value }

/-- Names the editor's input widget. -/
def editorInput (n : Node) (input : String) : Node :=
  n.withHint "input" input

mutual

/-- Structural equality. -/
def same : Node → Node → Bool
  | ⟨k, r, d, h⟩, ⟨l, s, e, i⟩ => sameKind k l && r == s && decide (d = e) && decide (h = i)

def sameKind : Kind Node → Kind Node → Bool
  | .string a, .string b => a == b
  | .boolean, .boolean => true
  | .number, .number => true
  | .enumeration a, .enumeration b => decide (a = b)
  | .object ⟨a⟩, .object ⟨b⟩ => sameFields a b
  | .array a m, .array b n => same a b && m == n
  | .oneOf ⟨t, ts, ⟨c⟩, vs⟩, .oneOf ⟨t', ts', ⟨c'⟩, vs'⟩ =>
    t == t' && decide (ts = ts') && sameFields c c' && sameVariants vs vs'
  | .any, .any => true
  | .reference a, .reference b => a == b
  | _, _ => false

def sameFields : List (Field Node) → List (Field Node) → Bool
  | [], [] => true
  | ⟨a, n⟩ :: as, ⟨b, m⟩ :: bs => a == b && same n m && sameFields as bs
  | _, _ => false

def sameVariants : List (Variant Node) → List (Variant Node) → Bool
  | [], [] => true
  | ⟨t, ⟨a, n⟩⟩ :: as, ⟨u, ⟨b, m⟩⟩ :: bs =>
    t == u && a == b && same n m && sameVariants as bs
  | _, _ => false

end

mutual

theorem same_iff : ∀ a b : Node, same a b = true ↔ a = b
  | ⟨k, r, d, h⟩, ⟨l, s, e, i⟩ => by
    simp [same, sameKind_iff k, and_assoc]

theorem sameKind_iff : ∀ a b : Kind Node, sameKind a b = true ↔ a = b
  | .string _, b => by cases b <;> simp [sameKind]
  | .boolean, b => by cases b <;> simp [sameKind]
  | .number, b => by cases b <;> simp [sameKind]
  | .enumeration _, b => by cases b <;> simp [sameKind]
  | .object ⟨fs⟩, b => by
    cases b with
    | object s => cases s; simp [sameKind, sameFields_iff fs]
    | _ => simp [sameKind]
  | .array n _, b => by cases b <;> simp [sameKind, same_iff n]
  | .oneOf ⟨_, _, ⟨c⟩, vs⟩, b => by
    cases b with
    | oneOf u =>
      obtain ⟨_, _, ⟨c'⟩, _⟩ := u
      simp [sameKind, sameFields_iff c, sameVariants_iff vs, and_assoc]
    | _ => simp [sameKind]
  | .any, b => by cases b <;> simp [sameKind]
  | .reference _, b => by cases b <;> simp [sameKind]

theorem sameFields_iff : ∀ as bs : List (Field Node), sameFields as bs = true ↔ as = bs
  | [], bs => by cases bs <;> simp [sameFields]
  | ⟨a, n⟩ :: as, bs => by
    cases bs with
    | nil => simp [sameFields]
    | cons b bs =>
      obtain ⟨b, m⟩ := b
      simp [sameFields, same_iff n, sameFields_iff as]

theorem sameVariants_iff : ∀ as bs : List (Variant Node), sameVariants as bs = true ↔ as = bs
  | [], bs => by cases bs <;> simp [sameVariants]
  | ⟨t, ⟨a, n⟩⟩ :: as, bs => by
    cases bs with
    | nil => simp [sameVariants]
    | cons b bs =>
      obtain ⟨u, ⟨b, m⟩⟩ := b
      simp [sameVariants, same_iff n, sameVariants_iff as, and_assoc]

end

instance : DecidableEq Node := fun a b => decidable_of_iff _ (same_iff a b)

end Node

end SiteContent
