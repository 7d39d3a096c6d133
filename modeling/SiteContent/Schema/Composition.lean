import SiteContent.Names
import SiteContent.Schema.Node

/-! Building schemas out of schemas. No operation changes its arguments. -/

namespace SiteContent.Shape

variable {α : Type}

/-- The fields of `base` followed by those of `extension`, which may not repeat a name. -/
def extend (base extension : Shape α) : Except SchemaError (Shape α) :=
  match Names.firstRepeat? base.names extension.names with
  | some name => .error (.fieldCollision name "extension")
  | none => .ok ⟨base.fields ++ extension.fields⟩

/-- The fields of the given names, in the order of the names. -/
def pick (s : Shape α) : List String → Except SchemaError (Shape α)
  | [] => .ok .empty
  | name :: rest =>
    match s.get? name with
    | some f => (s.pick rest).map fun picked => ⟨f :: picked.fields⟩
    | none => .error (.noSuchField name "pick")

/-- The fields of other names, in declaration order. -/
def without (s : Shape α) (names : List String) : Except SchemaError (Shape α) :=
  match names.find? fun name => !s.contains name with
  | some name => .error (.noSuchField name "omit")
  | none => .ok ⟨s.fields.filter fun f => !names.contains f.name⟩

/-- Every field becomes optional; defaults stay. -/
def relax (s : Schema) : Schema :=
  ⟨s.fields.map fun f => { f with node := f.node.optional }⟩

end SiteContent.Shape
