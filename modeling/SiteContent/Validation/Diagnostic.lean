import SiteContent.Validation.Location

/-! What can be wrong with a document, and where. -/

namespace SiteContent

/-- Why a value is refused. -/
inductive Cause where
  | unknownCollection (name : String)
  | missingField
  | typeMismatch (expected actual : String)
  | invalidEnumValue (allowed : List String) (actual : String)
  | emptyField
  | forbiddenField (tag value : String)
  | unknownField
  deriving Repr, DecidableEq

def Cause.message : Cause → String
  | .unknownCollection name => "collection '" ++ name ++ "' is not registered"
  | .missingField => "required field is missing"
  | .typeMismatch expected actual => "expected " ++ expected ++ ", found " ++ actual
  | .invalidEnumValue allowed actual =>
    "'" ++ actual ++ "' is not one of: " ++ ", ".intercalate allowed
  | .emptyField => "value must not be empty"
  | .forbiddenField tag value => "field is not allowed when " ++ tag ++ " is '" ++ value ++ "'"
  | .unknownField => "field is not declared by the schema"

structure Diagnostic where
  location : Location
  cause : Cause
  deriving Repr, DecidableEq

/-- The same finding, seen from one step above. -/
def Diagnostic.under (s : Step) (d : Diagnostic) : Diagnostic :=
  { d with location := s :: d.location }

/-- A diagnostic as it is reported: the path, the cause and the rendered message. -/
structure ValidationError where
  path : String
  cause : Cause
  detail : String
  deriving Repr, DecidableEq

namespace ValidationError

def new (path : String) (cause : Cause) : ValidationError :=
  ⟨path, cause, cause.message⟩

/-- The root has no path of its own. -/
def render (e : ValidationError) : String :=
  (if e.path.isEmpty then "<document>" else e.path) ++ ": " ++ e.detail

/-- How many errors a list has. -/
def summary (errors : List ValidationError) : String :=
  toString errors.length ++ " validation error(s)"

end ValidationError

def Diagnostic.toError (d : Diagnostic) : ValidationError :=
  .new d.location.render d.cause

end SiteContent
