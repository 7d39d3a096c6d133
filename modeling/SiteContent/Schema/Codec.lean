import SiteContent.Json.Decode
import SiteContent.Schema.Node

/-! The JSON form of schemas. A node's kind lies among the node's own entries, and a field's node
among the field's; what is false, empty or absent is left out. -/

namespace SiteContent

def Decoder.vocabulary (α : Type) [Vocabulary α] : Decoder α :=
  Decoder.choice ((Vocabulary.all : List α).map fun a => (Vocabulary.literal a, a))

/-- The literal of a value. -/
def Vocabulary.encode {α : Type} [Vocabulary α] (a : α) : Json :=
  .str (Vocabulary.literal a)

namespace Json

def ofStrings (ss : List String) : Json :=
  .arr (ss.map .str)

def ofDict {α : Type} (encode : α → Json) (d : Dict α) : Json :=
  .obj (d.mapValues encode)

/-- An entry that is written only when its condition holds. -/
def entryIf (condition : Bool) (key : String) (value : Json) : List (String × Json) :=
  if condition then [(key, value)] else []

def entryOfOption {α : Type} (key : String) (encode : α → Json) :
    Option α → List (String × Json)
  | some a => [(key, encode a)]
  | none => []

end Json

open Json (entryIf entryOfOption)

namespace Enumeration

def entries (e : Enumeration) : List (String × Json) :=
  [("enum", .str e.name), ("members", Json.ofStrings e.members)]

def encode (e : Enumeration) : Json :=
  .obj e.entries

def record : Record Enumeration :=
  Enumeration.mk <$> .required "enum" .string <*> .required "members" (.list .string)

def decode : Decoder Enumeration :=
  record.decode "Enumeration"

end Enumeration

namespace Hints

def encode (h : Hints) : Json :=
  Json.ofDict .str h.entries

def decode : Decoder Hints := fun v =>
  (Decoder.dict .string v).map Hints.mk

end Hints

namespace Node

mutual

def entries : Node → List (String × Json)
  | ⟨k, required, default, hints⟩ =>
    kindEntries k ++ [("required", .bool required)] ++ entryOfOption "default" id default ++
      entryIf (!hints.isEmpty) "hints" hints.encode

def kindEntries : Kind Node → List (String × Json)
  | .string nonEmpty => ("type", .str "string") :: entryIf nonEmpty "non_empty" (.bool true)
  | .boolean => [("type", .str "boolean")]
  | .number => [("type", .str "number")]
  | .enumeration e => ("type", .str "enum") :: e.entries
  | .object ⟨fs⟩ => [("type", .str "object"), ("fields", .arr (encodeFields fs))]
  | .array items nonEmpty =>
    ("type", .str "array") :: ("items", .obj (entries items)) ::
      entryIf nonEmpty "non_empty" (.bool true)
  | .oneOf ⟨tag, tags, ⟨common⟩, vs⟩ =>
    [("type", .str "one_of"), ("tag", .str tag), ("tags", tags.encode),
      ("common", .obj [("fields", .arr (encodeFields common))]),
      ("variants", .arr (encodeVariants vs))]
  | .any => [("type", .str "any")]
  | .reference target => [("type", .str "ref"), ("target", .str target)]

def encodeFields : List (Field Node) → List Json
  | [] => []
  | ⟨name, n⟩ :: fs => .obj (("name", .str name) :: entries n) :: encodeFields fs

def encodeVariants : List (Variant Node) → List Json
  | [] => []
  | ⟨tag, ⟨name, n⟩⟩ :: vs =>
    .obj [("tag", .str tag), ("payload", .obj (("name", .str name) :: entries n))] ::
      encodeVariants vs

end

def encode (n : Node) : Json :=
  .obj n.entries

/-- The kinds as the JSON form tells them apart. -/
inductive KindTag where
  | string | boolean | number | enumeration | object | array | oneOf | any | reference
  deriving Repr, DecidableEq

def kindTags : List (String × KindTag) :=
  [("string", .string), ("boolean", .boolean), ("number", .number), ("enum", .enumeration),
    ("object", .object), ("array", .array), ("one_of", .oneOf), ("any", .any),
    ("ref", .reference)]

/-- The node itself, given the decoder of the nodes inside it. -/
def fieldRecord (node : Record Node) : Record (Field Node) :=
  Field.mk <$> .required "name" .string <*> .shared node.run

def shapeRecord (node : Record Node) : Record Schema :=
  Shape.mk <$> .required "fields" (.list (fieldRecord node).decodeObject)

def decodeShape (node : Record Node) : Decoder Schema :=
  (shapeRecord node).decode "ObjectSchema"

def decodeVariant (node : Record Node) : Decoder (Variant Node) :=
  (Variant.mk <$> .required "tag" .string <*> .required "payload" (fieldRecord node).decodeObject :
    Record (Variant Node)).decode "Variant"

def unionRecord (node : Record Node) : Record (TaggedUnion Node) :=
  TaggedUnion.mk <$> .required "tag" .string <*> .required "tags" Enumeration.decode <*>
    .required "common" (decodeShape node) <*> .required "variants" (.list (decodeVariant node))

def kindRecord (node : Record Node) : KindTag → Record (Kind Node)
  | .string => Kind.string <$> .withDefault "non_empty" false .bool
  | .boolean => pure .boolean
  | .number => pure .number
  | .enumeration => Kind.enumeration <$> Enumeration.record
  | .object => Kind.object <$> shapeRecord node
  | .array =>
    Kind.array <$> .required "items" node.decodeObject <*> .withDefault "non_empty" false .bool
  | .oneOf => Kind.oneOf <$> unionRecord node
  | .any => pure .any
  | .reference => Kind.reference <$> .required "target" .string

/-- A null default is no default. Nodes nest at most `fuel` deep. -/
def recordWithin : Nat → Record Node
  | 0 => ⟨fun _ => .error (0, .invalidType), none⟩
  | fuel + 1 =>
    (fun k r d h => Node.mk k r d h) <$>
      .shared (Record.tagged "type" (.sharedTag kindTags) (kindRecord (recordWithin fuel))) <*>
      .required "required" .bool <*>
      .optional "default" .json <*>
      .withDefault "hints" .empty Hints.decode

/-- A node is no deeper than the JSON it is read from. -/
def decode : Decoder Node := fun v =>
  (recordWithin (v.depth + 1)).decodeObject v

end Node

namespace Field

def encode (f : Field Node) : Json :=
  .obj (("name", .str f.name) :: f.node.entries)

def decode : Decoder (Field Node) := fun v =>
  (Node.fieldRecord (Node.recordWithin (v.depth + 1))).decodeObject v

end Field

namespace Shape

def encode (s : Schema) : Json :=
  .obj [("fields", .arr (Node.encodeFields s.fields))]

def decode : Decoder Schema := fun v =>
  Node.decodeShape (Node.recordWithin (v.depth + 1)) v

end Shape

namespace TaggedUnion

def encode (u : TaggedUnion Node) : Json :=
  .obj
    [("tag", .str u.tag), ("tags", u.tags.encode), ("common", u.common.encode),
      ("variants", .arr (Node.encodeVariants u.variants))]

def decode : Decoder (TaggedUnion Node) := fun v =>
  (Node.unionRecord (Node.recordWithin (v.depth + 1))).decode "TaggedUnion" v

end TaggedUnion

end SiteContent
