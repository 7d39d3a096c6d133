import SiteContent.Collection.Basic

/-! Validating documents against a collection. -/

namespace SiteContent

/-- A document that passed validation, with defaults in place. -/
structure Document where
  collection : String
  fields : Dict Json
  deriving Repr, DecidableEq

namespace Document

def value (d : Document) : Json :=
  .obj d.fields

end Document

namespace Collection

/-- The walk of a raw document from its root. -/
def walk (c : Collection) (policy : Policy) (raw : Json) : Walked Json :=
  Walk.value c.definitions policy raw (.object c.schema)

/-- The document with defaults in place, or every diagnostic in schema order. -/
def validate (c : Collection) (policy : Policy) (raw : Json) :
    Except (List Diagnostic) Document :=
  match (c.walk policy raw).diagnostics with
  | [] => .ok ⟨c.name, (c.walk policy raw).result.entries⟩
  | ds => .error ds

end Collection

end SiteContent
