import SiteContent.Schema.Codec

/-! Parts of pages as typed values. Optional parts that are absent, and optional lists that are
empty, leave no trace in the JSON form. -/

namespace SiteContent.View

open Json (entryIf entryOfOption)

/-- An optional list, written only if it has elements. -/
def entryOfList {α : Type} (key : String) (encode : α → Json) (as : List α) :
    List (String × Json) :=
  entryIf (!as.isEmpty) key (.arr (as.map encode))

def optionalList {α : Type} (key : String) (d : Decoder α) : Record (List α) :=
  .withDefault key [] (.list d)

structure Link where
  text : String
  label : Option String
  url : String
  route : Option String
  target : Option String
  variant : Option ButtonVariant
  color : Option String
  size : Option ButtonSize
  icon : Option String
  external : Bool
  deriving Repr, DecidableEq

namespace Link

def encode (l : Link) : Json :=
  .obj
    (("text", .str l.text) :: entryOfOption "label" .str l.label ++ ("url", .str l.url) ::
      entryOfOption "to" .str l.route ++ entryOfOption "target" .str l.target ++
      entryOfOption "variant" Vocabulary.encode l.variant ++ entryOfOption "color" .str l.color ++
      entryOfOption "size" Vocabulary.encode l.size ++ entryOfOption "icon" .str l.icon ++
      [("external", .bool l.external)])

def decode : Decoder Link :=
  (Link.mk <$> .required "text" .string <*> .optional "label" .string <*>
    .required "url" .string <*> .optional "to" .string <*> .optional "target" .string <*>
    .optional "variant" (.vocabulary ButtonVariant) <*> .optional "color" .string <*>
    .optional "size" (.vocabulary ButtonSize) <*> .optional "icon" .string <*>
    .withDefault "external" false .bool : Record Link).decode "Link"

end Link

structure Feature where
  title : String
  description : String
  icon : Option String
  image : Option String
  deriving Repr, DecidableEq

namespace Feature

def encode (f : Feature) : Json :=
  .obj
    ([("title", .str f.title), ("description", .str f.description)] ++
      entryOfOption "icon" .str f.icon ++ entryOfOption "image" .str f.image)

def decode : Decoder Feature :=
  (Feature.mk <$> .required "title" .string <*> .required "description" .string <*>
    .optional "icon" .string <*> .optional "image" .string : Record Feature).decode "Feature"

end Feature

/-- Who is quoted. -/
structure Speaker where
  name : String
  role : Option String
  company : Option String
  avatar : Option String
  deriving Repr, DecidableEq

namespace Speaker

def encode (s : Speaker) : Json :=
  .obj
    (("name", .str s.name) :: entryOfOption "role" .str s.role ++
      entryOfOption "company" .str s.company ++ entryOfOption "avatar" .str s.avatar)

def decode : Decoder Speaker :=
  (Speaker.mk <$> .required "name" .string <*> .optional "role" .string <*>
    .optional "company" .string <*> .optional "avatar" .string :
    Record Speaker).decode "TestimonialAuthor"

end Speaker

structure Testimonial where
  quote : String
  author : Speaker
  deriving Repr, DecidableEq

namespace Testimonial

def encode (t : Testimonial) : Json :=
  .obj [("quote", .str t.quote), ("author", t.author.encode)]

def decode : Decoder Testimonial :=
  (Testimonial.mk <$> .required "quote" .string <*> .required "author" Speaker.decode :
    Record Testimonial).decode "Testimonial"

end Testimonial

structure PricingPlan where
  title : String
  description : Option String
  price : String
  billing : String
  features : List String
  cta : Link
  highlight : Bool
  badge : Option String
  deriving Repr, DecidableEq

namespace PricingPlan

def encode (p : PricingPlan) : Json :=
  .obj
    (("title", .str p.title) :: entryOfOption "description" .str p.description ++
      [("price", .str p.price), ("billing", .str p.billing),
        ("features", Json.ofStrings p.features), ("cta", p.cta.encode),
        ("highlight", .bool p.highlight)] ++
      entryOfOption "badge" .str p.badge)

def decode : Decoder PricingPlan :=
  (PricingPlan.mk <$> .required "title" .string <*> .optional "description" .string <*>
    .required "price" .string <*> .withDefault "billing" "monthly" .string <*>
    .required "features" (.list .string) <*> .required "cta" Link.decode <*>
    .withDefault "highlight" false .bool <*> .optional "badge" .string :
    Record PricingPlan).decode "PricingPlan"

end PricingPlan

structure FaqItem where
  question : String
  answer : String
  deriving Repr, DecidableEq

namespace FaqItem

def encode (f : FaqItem) : Json :=
  .obj [("question", .str f.question), ("answer", .str f.answer)]

def decode : Decoder FaqItem :=
  (FaqItem.mk <$> .required "question" .string <*> .required "answer" .string :
    Record FaqItem).decode "FaqItem"

end FaqItem

structure Hero where
  heading : String
  subheading : Option String
  image : Option String
  cta : List Link
  deriving Repr, DecidableEq

namespace Hero

def encode (h : Hero) : Json :=
  .obj
    (("heading", .str h.heading) :: entryOfOption "subheading" .str h.subheading ++
      entryOfOption "image" .str h.image ++ entryOfList "cta" Link.encode h.cta)

def decode : Decoder Hero :=
  (Hero.mk <$> .required "heading" .string <*> .optional "subheading" .string <*>
    .optional "image" .string <*> optionalList "cta" Link.decode : Record Hero).decode "Hero"

end Hero

/-- What a section shows: the list of its one component. -/
inductive SectionBody where
  | features (features : List Feature)
  | testimonials (testimonials : List Testimonial)
  | pricing (plans : List PricingPlan)
  | faq (items : List FaqItem)
  | cta (links : List Link)
  deriving Repr, DecidableEq

namespace SectionBody

def component : SectionBody → SectionComponent
  | .features _ => .features
  | .testimonials _ => .testimonials
  | .pricing _ => .pricing
  | .faq _ => .faq
  | .cta _ => .cta

def content : SectionBody → Json
  | .features fs => .arr (fs.map Feature.encode)
  | .testimonials ts => .arr (ts.map Testimonial.encode)
  | .pricing ps => .arr (ps.map PricingPlan.encode)
  | .faq is => .arr (is.map FaqItem.encode)
  | .cta ls => .arr (ls.map Link.encode)

/-- The list stands under the name of its component. -/
def entries (b : SectionBody) : List (String × Json) :=
  let name := Vocabulary.literal b.component
  [("component", .str name), (name, b.content)]

def encode (b : SectionBody) : Json :=
  .obj b.entries

def components : List (String × SectionComponent) :=
  Vocabulary.all.map fun c => (Vocabulary.literal c, c)

def record : SectionComponent → Record SectionBody
  | .features => SectionBody.features <$> .required "features" (.list Feature.decode)
  | .testimonials =>
    SectionBody.testimonials <$> .required "testimonials" (.list Testimonial.decode)
  | .pricing => SectionBody.pricing <$> .required "pricing" (.list PricingPlan.decode)
  | .faq => SectionBody.faq <$> .required "faq" (.list FaqItem.decode)
  | .cta => SectionBody.cta <$> .required "cta" (.list Link.decode)

def decode : Decoder SectionBody :=
  Record.decodeTagged "SectionBody" "component" components record

end SectionBody

/-- A section of the landing page. -/
structure Section where
  title : String
  description : String
  id : Option String
  body : SectionBody
  deriving Repr, DecidableEq

namespace Section

def encode (s : Section) : Json :=
  .obj
    ([("title", .str s.title), ("description", .str s.description)] ++
      entryOfOption "id" .str s.id ++ s.body.entries)

def decode : Decoder Section :=
  (Section.mk <$> .required "title" .string <*> .required "description" .string <*>
    .optional "id" .string <*>
    .shared (Record.tagged "component" (.sharedTag SectionBody.components) SectionBody.record) :
    Record Section).decodeObject

end Section

end SiteContent.View
