import SiteContent.Glob.Match
import SiteContent.Schema.Error

/-! Which files belong to a collection: an include pattern with exclusions. -/

namespace SiteContent

/-- How the documents of a collection are stored: as pages with a header, or as whole files of
data. -/
inductive Storage where
  | page
  | data
  deriving Repr, DecidableEq, Inhabited

def Storage.literal : Storage → String
  | .page => "page"
  | .data => "data"

/-- Paths are separated by `/` and relative to the content directory. -/
structure Source where
  included : Glob
  excluded : List Glob
  deriving Repr, Inhabited

namespace Source

def compileGlob (pattern : String) : Except SchemaError Glob :=
  match Glob.compile pattern with
  | .ok g => .ok g
  | .error e => .error (.invalidSourcePattern pattern e.message)

def new (pattern : String) : Except SchemaError Source :=
  (compileGlob pattern).map fun g => ⟨g, []⟩

def withExclude (s : Source) (pattern : String) : Except SchemaError Source :=
  (compileGlob pattern).map fun g => { s with excluded := s.excluded ++ [g] }

def isMatch (s : Source) (path : String) : Bool :=
  s.included.isMatch path && !s.excluded.any (·.isMatch path)

/-- The patterns as written, an exclusion after an exclamation mark. -/
def render (s : Source) : String :=
  s.included.text ++ String.join (s.excluded.map fun g => " !" ++ g.text)

end Source

end SiteContent
