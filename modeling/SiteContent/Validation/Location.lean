/-! Places inside a document, and their rendering as paths such as `sections[1].cta.url`. -/

namespace SiteContent

/-- One step down: to the value under a key, or to an element. -/
inductive Step where
  | key (name : String)
  | index (position : Nat)
  deriving Repr, DecidableEq

/-- The steps from the root. -/
abbrev Location := List Step

namespace Location

/-- A key is joined by a dot, except that nothing stands before the first one. -/
def extendPath (path : String) : Step → String
  | .key name => if path.isEmpty then name else path ++ "." ++ name
  | .index i => path ++ "[" ++ toString i ++ "]"

/-- The path of a place, seen from a place that has a path already. -/
def renderFrom (path : String) (l : Location) : String :=
  l.foldl extendPath path

def render (l : Location) : String :=
  renderFrom "" l

end Location

end SiteContent
