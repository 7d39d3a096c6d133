import SiteContent.Schema.Codec
import SiteContent.Validation.Document

/-! The JSON form of diagnostics, policies and documents. A cause lies among the entries of its
error. -/

namespace SiteContent

namespace Policy

def literal : Policy → String
  | .preserve => "preserve"
  | .strip => "strip"
  | .reject => "reject"

def table : List (String × Policy) :=
  [("preserve", .preserve), ("strip", .strip), ("reject", .reject)]

def encode (p : Policy) : Json :=
  .str p.literal

def decode : Decoder Policy := .choice table

/-- The options of a validation run, which consist of the policy. -/
def encodeOptions (p : Policy) : Json :=
  .obj [("unknown_fields", p.encode)]

end Policy

namespace Cause

/-- The causes as the JSON form tells them apart. -/
inductive Tag where
  | unknownCollection | missingField | typeMismatch | invalidEnumValue | emptyField
  | forbiddenField | unknownField
  deriving Repr, DecidableEq

def tags : List (String × Tag) :=
  [("unknown_collection", .unknownCollection), ("missing_field", .missingField),
    ("type_mismatch", .typeMismatch), ("invalid_enum_value", .invalidEnumValue),
    ("empty_field", .emptyField), ("forbidden_field", .forbiddenField),
    ("unknown_field", .unknownField)]

def entries : Cause → List (String × Json)
  | .unknownCollection name => [("kind", .str "unknown_collection"), ("name", .str name)]
  | .missingField => [("kind", .str "missing_field")]
  | .typeMismatch expected actual =>
    [("kind", .str "type_mismatch"), ("expected", .str expected), ("actual", .str actual)]
  | .invalidEnumValue allowed actual =>
    [("kind", .str "invalid_enum_value"), ("allowed", Json.ofStrings allowed),
      ("actual", .str actual)]
  | .emptyField => [("kind", .str "empty_field")]
  | .forbiddenField tag value =>
    [("kind", .str "forbidden_field"), ("tag", .str tag), ("value", .str value)]
  | .unknownField => [("kind", .str "unknown_field")]

def record : Tag → Record Cause
  | .unknownCollection => Cause.unknownCollection <$> .required "name" .string
  | .missingField => pure .missingField
  | .typeMismatch =>
    Cause.typeMismatch <$> .required "expected" .string <*> .required "actual" .string
  | .invalidEnumValue =>
    Cause.invalidEnumValue <$> .required "allowed" (.list .string) <*>
      .required "actual" .string
  | .emptyField => pure .emptyField
  | .forbiddenField =>
    Cause.forbiddenField <$> .required "tag" .string <*> .required "value" .string
  | .unknownField => pure .unknownField

def encode (c : Cause) : Json :=
  .obj c.entries

def decode : Decoder Cause :=
  Record.decodeTagged "ErrorKind" "kind" tags record

end Cause

namespace ValidationError

def encode (e : ValidationError) : Json :=
  .obj (("path", .str e.path) :: e.cause.entries ++ [("detail", .str e.detail)])

def record : Record ValidationError :=
  ValidationError.mk <$> .required "path" .string <*>
    .shared (Record.tagged "kind" (.sharedTag Cause.tags) Cause.record) <*>
    .required "detail" .string

def decode : Decoder ValidationError :=
  record.decodeObject

def encodeAll (es : List ValidationError) : Json :=
  .arr (es.map encode)

end ValidationError

namespace Document

def encode (d : Document) : Json :=
  .obj [("collection", .str d.collection), ("fields", .obj d.fields)]

def decode : Decoder Document :=
  (Document.mk <$> .required "collection" .string <*> .required "fields" (.dict .json) :
    Record Document).decode "ValidatedDocument"

end Document

end SiteContent
