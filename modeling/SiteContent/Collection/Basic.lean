import SiteContent.Collection.Check
import SiteContent.Collection.Source
import SiteContent.Schema.Composition

/-! Collections: a named source of documents with the schema they have in common. -/

namespace SiteContent

/-- A collection as declared, not checked yet. -/
structure Declaration where
  name : String
  storage : Storage
  source : Source
  schema : Schema
  definitions : Definitions

/-- A collection whose schema graph has passed its checks. -/
structure Collection extends Declaration where
  checked : Check.graph definitions schema = .ok ()

namespace Declaration

/-- The first defect of the schema graph, or the collection. -/
def build (d : Declaration) : Except SchemaError Collection :=
  match h : Check.graph d.definitions d.schema with
  | .ok () => .ok ⟨d, h⟩
  | .error e => .error e

end Declaration

namespace Collection

def isMatch (c : Collection) (path : String) : Bool :=
  c.source.isMatch path

end Collection

end SiteContent
