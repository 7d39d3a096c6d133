import SiteContent.Registry

/-! Registries that are looked up through an index, which has the position of each collection under
its name. Nothing but the calls that fill a registry keeps the index in step with the list. -/

namespace SiteContent

structure IndexedRegistry where
  collections : List Collection
  index : Dict Nat

namespace IndexedRegistry

def empty : IndexedRegistry := ⟨[], []⟩

def names (x : IndexedRegistry) : List String :=
  x.collections.map (·.name)

def size (x : IndexedRegistry) : Nat :=
  x.collections.length

def contains (x : IndexedRegistry) (name : String) : Bool :=
  x.index.contains name

/-- What stands at the position under a name, if anything stands there. -/
def lookup (x : IndexedRegistry) (name : String) : Option (Option Collection) :=
  (x.index.get? name).map fun i => x.collections[i]?

/-- The registry after a call, and what the call returned. -/
def register (x : IndexedRegistry) (c : Collection) : IndexedRegistry × Except SchemaError Unit :=
  if x.contains c.name then (x, .error (.duplicateCollection c.name))
  else (⟨x.collections ++ [c], x.index.insert c.name x.size⟩, .ok ())

/-- The registry after a sequence of calls, whether they succeeded or not. -/
def after (calls : List Collection) : IndexedRegistry :=
  calls.foldl (fun x c => (x.register c).1) empty

/-- Validates against the collection of a name. There is no answer where nothing stands at the
position under the name. -/
def validate (x : IndexedRegistry) (collection : String) (policy : Policy) (raw : Json) :
    Option (Except (List Diagnostic) Document) :=
  match x.lookup collection with
  | some (some c) => some (c.validate policy raw)
  | some none => none
  | none => some (.error [⟨[], .unknownCollection collection⟩])

end IndexedRegistry

end SiteContent
