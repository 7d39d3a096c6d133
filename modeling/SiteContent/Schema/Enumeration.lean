import SiteContent.Names
import SiteContent.Schema.Error

/-! Closed sets of strings, and the vocabularies whose members have names of their own. -/

namespace SiteContent

/-- The allowed values in declaration order. Only `Enumeration.new` checks that there are some and
that none is repeated. -/
structure Enumeration where
  name : String
  members : List String
  deriving Repr, DecidableEq, Inhabited

namespace Enumeration

def new (name : String) (members : List String) : Except SchemaError Enumeration :=
  if members.isEmpty then .error (.emptyEnumeration name)
  else
    match Names.firstRepeat? [] members with
    | some m => .error (.duplicateEnumMember name m)
    | none => .ok ⟨name, members⟩

def isMember (e : Enumeration) (value : String) : Bool :=
  e.members.contains value

end Enumeration

/-- A string that names no member of a vocabulary. -/
structure NotAMember where
  enumeration : String
  value : String
  deriving Repr, DecidableEq

def NotAMember.message (e : NotAMember) : String :=
  "'" ++ e.value ++ "' is not a member of " ++ e.enumeration

/-- A type whose values each have a literal, in a fixed order. -/
class Vocabulary (α : Type) where
  name : String
  all : List α
  literal : α → String

namespace Vocabulary

def values (α : Type) [Vocabulary α] : List String :=
  (all : List α).map literal

def enumeration (α : Type) [Vocabulary α] : Enumeration :=
  ⟨name α, values α⟩

def find? {α : Type} [Vocabulary α] (s : String) : Option α :=
  all.find? fun a => literal a = s

def parse {α : Type} [Vocabulary α] (s : String) : Except NotAMember α :=
  match find? s with
  | some a => .ok a
  | none => .error ⟨name α, s⟩

end Vocabulary

/-- Button sizes. -/
inductive ButtonSize where
  | xSmall | small | default | large | xLarge
  deriving Repr, DecidableEq

instance : Vocabulary ButtonSize where
  name := "size"
  all := [.xSmall, .small, .default, .large, .xLarge]
  literal
    | .xSmall => "x-small"
    | .small => "small"
    | .default => "default"
    | .large => "large"
    | .xLarge => "x-large"

/-- How the surface of a button is drawn. -/
inductive ButtonVariant where
  | elevated | flat | tonal | outlined | text | plain
  deriving Repr, DecidableEq

instance : Vocabulary ButtonVariant where
  name := "variant"
  all := [.elevated, .flat, .tonal, .outlined, .text, .plain]
  literal
    | .elevated => "elevated"
    | .flat => "flat"
    | .tonal => "tonal"
    | .outlined => "outlined"
    | .text => "text"
    | .plain => "plain"

/-- The window that a link opens in. -/
inductive LinkTarget where
  | blank | sameFrame
  deriving Repr, DecidableEq

instance : Vocabulary LinkTarget where
  name := "target"
  all := [.blank, .sameFrame]
  literal
    | .blank => "_blank"
    | .sameFrame => "_self"

/-- Colors of the theme. -/
inductive ThemeColor where
  | primary | secondary | success | warning | error | info
  | surface | onSurface | background | onBackground
  deriving Repr, DecidableEq

instance : Vocabulary ThemeColor where
  name := "color"
  all := [.primary, .secondary, .success, .warning, .error, .info, .surface, .onSurface,
    .background, .onBackground]
  literal
    | .primary => "primary"
    | .secondary => "secondary"
    | .success => "success"
    | .warning => "warning"
    | .error => "error"
    | .info => "info"
    | .surface => "surface"
    | .onSurface => "on-surface"
    | .background => "background"
    | .onBackground => "on-background"

/-- Lines of service. -/
inductive ServiceCategory where
  | web | ai | game | mobile | seo | marketing
  deriving Repr, DecidableEq

instance : Vocabulary ServiceCategory where
  name := "category"
  all := [.web, .ai, .game, .mobile, .seo, .marketing]
  literal
    | .web => "Web"
    | .ai => "AI"
    | .game => "Game"
    | .mobile => "Mobile"
    | .seo => "SEO"
    | .marketing => "Marketing"

/-- Components that a landing-page section may show. -/
inductive SectionComponent where
  | features | testimonials | pricing | faq | cta
  deriving Repr, DecidableEq

instance : Vocabulary SectionComponent where
  name := "component"
  all := [.features, .testimonials, .pricing, .faq, .cta]
  literal
    | .features => "features"
    | .testimonials => "testimonials"
    | .pricing => "pricing"
    | .faq => "faq"
    | .cta => "cta"

namespace Vocabulary

/-- Every built-in enumeration. -/
def catalog : List Enumeration :=
  [enumeration ButtonSize, enumeration ButtonVariant, enumeration LinkTarget,
    enumeration ThemeColor, enumeration ServiceCategory, enumeration SectionComponent]

end Vocabulary

end SiteContent
