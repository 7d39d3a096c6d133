import SiteContent.Collection.Basic
import SiteContent.Schema.Fragment

/-! The collections of a company site: the landing page, the blog, the service pages and their
overview. -/

namespace SiteContent.Site

/-- What every page and every section begins with. -/
def base : Schema :=
  .ofList [("title", .text), ("description", .text)]

def listOf (fragment : Schema) : Node :=
  .array (.object fragment)

/-- The case of a component: a list that stands under the component's own name. -/
def sectionCase (component : SectionComponent) (fragment : Schema) : Variant Node :=
  let name := Vocabulary.literal component
  ⟨name, ⟨name, (listOf fragment).nonEmpty⟩⟩

/-- A landing-page section shows the one component that it names. -/
def sectionUnion : TaggedUnion Node where
  tag := "component"
  tags := Vocabulary.enumeration SectionComponent
  common := ⟨base.fields ++ [⟨"id", Node.string.optional⟩]⟩
  variants :=
    [sectionCase .features Fragment.feature,
      sectionCase .testimonials Fragment.testimonial,
      sectionCase .pricing Fragment.pricingPlan,
      sectionCase .faq Fragment.faqItem,
      sectionCase .cta Fragment.link]

def landingSchema : Schema :=
  ⟨base.fields ++
    [⟨"hero", .object Fragment.hero⟩,
      ⟨"sections", (Node.array (.oneOf sectionUnion)).optional⟩]⟩

def postSchema : Schema :=
  .ofList
    [("title", .text),
      ("excerpt", .text),
      ("date", .text),
      ("author", .object (.ofList
        [("name", .text),
          ("avatar", Node.string.optional.editorInput "media"),
          ("bio", Node.string.optional)])),
      ("category", .object (.ofList
        [("name", .text),
          ("slug", .text),
          ("color", (Node.enumeration (Vocabulary.enumeration ThemeColor)).withDefault
            (.str (Vocabulary.literal ThemeColor.primary)))])),
      ("tags", (Node.array .string).optional),
      ("image", (Node.object (.ofList
        [("src", Node.text.editorInput "media"), ("alt", .text)])).optional),
      ("featured", Node.boolean.withDefault (.bool false)),
      ("draft", Node.boolean.withDefault (.bool false))]

def serviceSchema : Schema :=
  ⟨base.fields ++
    [⟨"slug", .text⟩,
      ⟨"category", .enumeration (Vocabulary.enumeration ServiceCategory)⟩,
      ⟨"tagline", Node.string.optional⟩,
      ⟨"icon", Node.string.optional.editorInput "icon"⟩,
      ⟨"hero", (Node.object (.ofList
        [("image", Node.string.optional.editorInput "media"),
          ("heading", Node.string.optional),
          ("subheading", Node.string.optional)])).optional⟩,
      ⟨"features", (listOf Fragment.feature).optional⟩,
      ⟨"pricing", (listOf Fragment.pricingPlan).optional⟩,
      ⟨"testimonials", (listOf Fragment.testimonial).optional⟩,
      ⟨"faq", (listOf Fragment.faqItem).optional⟩,
      ⟨"cta", (listOf Fragment.link).optional⟩]⟩

def servicesIndexSchema : Schema :=
  ⟨base.fields ++
    [⟨"hero", .object (.ofList [("heading", .text), ("subheading", Node.string.optional)])⟩,
      ⟨"intro", Node.string.optional⟩,
      ⟨"services", listOf (.ofList
        [("title", .text),
          ("description", .text),
          ("icon", Node.string.optional.editorInput "icon"),
          ("category", .enumeration (Vocabulary.enumeration ServiceCategory)),
          ("url", .text)])⟩,
      ⟨"cta", (listOf Fragment.link).optional⟩]⟩

/-- A pattern that is known to be well formed. -/
def glob (pattern : String) (h : (Glob.compile pattern).toOption.isSome = true) : Glob :=
  (Glob.compile pattern).toOption.get h

/-- The home page. -/
def landing : Collection where
  name := "landing"
  storage := .page
  source := ⟨glob "index.md" (by decide), []⟩
  schema := landingSchema
  definitions := []
  checked := rfl

/-- Articles. -/
def posts : Collection where
  name := "posts"
  storage := .page
  source := ⟨glob "blog/*.md" (by decide), []⟩
  schema := postSchema
  definitions := []
  checked := rfl

/-- One page for each service. -/
def services : Collection where
  name := "services"
  storage := .page
  source := ⟨glob "services/*.md" (by decide), [glob "services/index.md" (by decide)]⟩
  schema := serviceSchema
  definitions := []
  checked := rfl

/-- The overview of the services. -/
def servicesIndex : Collection where
  name := "servicesIndex"
  storage := .page
  source := ⟨glob "services/index.md" (by decide), []⟩
  schema := servicesIndexSchema
  definitions := []
  checked := rfl

def collections : List Collection :=
  [landing, posts, services, servicesIndex]

end SiteContent.Site
