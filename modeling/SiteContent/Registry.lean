import SiteContent.Collection.Site
import SiteContent.Validation.Document

/-! Registries: collections with distinct names, in the order of their registration. -/

namespace SiteContent

structure Registry where
  collections : List Collection
  distinct : (collections.map (·.name)).Nodup

namespace Registry

def empty : Registry := ⟨[], List.nodup_nil⟩

/-- The collections of a site. -/
def site : Registry := ⟨Site.collections, by decide⟩

def names (r : Registry) : List String :=
  r.collections.map (·.name)

def get? (r : Registry) (name : String) : Option Collection :=
  r.collections.find? fun c => c.name = name

def contains (r : Registry) (name : String) : Bool :=
  r.names.contains name

/-- Adds a collection at the end, unless its name is taken. -/
def register (r : Registry) (c : Collection) : Except SchemaError Registry :=
  if h : c.name ∈ r.names then .error (.duplicateCollection c.name)
  else
    .ok
      { collections := r.collections ++ [c]
        distinct := by
          have hd := r.distinct
          simp only [names] at h
          simp only [List.map_append, List.map_cons, List.map_nil, List.nodup_append]
          exact ⟨hd, by simp, by simpa using fun a ha e => h (by simpa using ⟨a, ha, e⟩)⟩ }

/-- The collections whose source matches a path. -/
def claiming (r : Registry) (path : String) : List Collection :=
  r.collections.filter (·.isMatch path)

/-- Validates against the collection of a name. -/
def validate (r : Registry) (collection : String) (policy : Policy) (raw : Json) :
    Except (List Diagnostic) Document :=
  match r.get? collection with
  | some c => c.validate policy raw
  | none => .error [⟨[], .unknownCollection collection⟩]

end Registry

end SiteContent
