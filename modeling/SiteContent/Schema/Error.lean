/-! Defects of a schema. They are found while a schema is put together, before any content is
seen. -/

namespace SiteContent

inductive SchemaError where
  | duplicateCollection (name : String)
  | fieldCollision (field context : String)
  | noSuchField (field context : String)
  | unresolvedReference (target : String)
  | unboundedRecursion (definition : String)
  | emptyEnumeration (name : String)
  | duplicateEnumMember (name member : String)
  | variantMismatch (tag detail : String)
  | invalidDefault (path detail : String)
  | invalidSourcePattern (pattern reason : String)
  /-- A default is checked against references that lead only to one another, so that its check
  has no end. -/
  | endlessDefault (path target : String)
  deriving Repr, DecidableEq

def SchemaError.message : SchemaError → String
  | .duplicateCollection name => "duplicate collection: " ++ name
  | .fieldCollision field context =>
    "field '" ++ field ++ "' is defined more than once in " ++ context
  | .noSuchField field context => "field '" ++ field ++ "' does not exist in " ++ context
  | .unresolvedReference target => "unresolved schema reference '" ++ target ++ "'"
  | .unboundedRecursion definition =>
    "definition '" ++ definition ++ "' refers to itself without an array boundary"
  | .emptyEnumeration name => "enumeration '" ++ name ++ "' has no members"
  | .duplicateEnumMember name member =>
    "enumeration '" ++ name ++ "' lists '" ++ member ++ "' more than once"
  | .variantMismatch tag detail => "tagged union on '" ++ tag ++ "' is inconsistent: " ++ detail
  | .invalidDefault path detail => "default for '" ++ path ++ "' is invalid: " ++ detail
  | .invalidSourcePattern pattern reason =>
    "invalid source pattern '" ++ pattern ++ "': " ++ reason
  | .endlessDefault path target =>
    "default for '" ++ path ++ "' cannot be checked: '" ++ target ++ "' refers only to references"

end SiteContent
