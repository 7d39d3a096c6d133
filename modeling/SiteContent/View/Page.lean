import SiteContent.View.Part

/-! Whole documents of the site's collections as typed values. -/

namespace SiteContent.View

open Json (entryOfOption)

structure LandingPage where
  title : String
  description : String
  hero : Hero
  sections : List Section
  deriving Repr, DecidableEq

namespace LandingPage

def encode (p : LandingPage) : Json :=
  .obj
    ([("title", .str p.title), ("description", .str p.description), ("hero", p.hero.encode)] ++
      entryOfList "sections" Section.encode p.sections)

def decode : Decoder LandingPage :=
  (LandingPage.mk <$> .required "title" .string <*> .required "description" .string <*>
    .required "hero" Hero.decode <*> optionalList "sections" Section.decode :
    Record LandingPage).decode "LandingPage"

end LandingPage

structure Author where
  name : String
  avatar : Option String
  bio : Option String
  deriving Repr, DecidableEq

namespace Author

def encode (a : Author) : Json :=
  .obj
    (("name", .str a.name) :: entryOfOption "avatar" .str a.avatar ++
      entryOfOption "bio" .str a.bio)

def decode : Decoder Author :=
  (Author.mk <$> .required "name" .string <*> .optional "avatar" .string <*>
    .optional "bio" .string : Record Author).decode "Author"

end Author

structure PostCategory where
  name : String
  slug : String
  color : ThemeColor
  deriving Repr, DecidableEq

namespace PostCategory

def encode (c : PostCategory) : Json :=
  .obj [("name", .str c.name), ("slug", .str c.slug), ("color", Vocabulary.encode c.color)]

def decode : Decoder PostCategory :=
  (PostCategory.mk <$> .required "name" .string <*> .required "slug" .string <*>
    .withDefault "color" .primary (.vocabulary ThemeColor) :
    Record PostCategory).decode "PostCategory"

end PostCategory

structure PostImage where
  src : String
  alt : String
  deriving Repr, DecidableEq

namespace PostImage

def encode (i : PostImage) : Json :=
  .obj [("src", .str i.src), ("alt", .str i.alt)]

def decode : Decoder PostImage :=
  (PostImage.mk <$> .required "src" .string <*> .required "alt" .string :
    Record PostImage).decode "PostImage"

end PostImage

structure Post where
  title : String
  excerpt : String
  date : String
  author : Author
  category : PostCategory
  tags : List String
  image : Option PostImage
  featured : Bool
  draft : Bool
  deriving Repr, DecidableEq

namespace Post

def encode (p : Post) : Json :=
  .obj
    ([("title", .str p.title), ("excerpt", .str p.excerpt), ("date", .str p.date),
      ("author", p.author.encode), ("category", p.category.encode)] ++
      entryOfList "tags" .str p.tags ++ entryOfOption "image" PostImage.encode p.image ++
      [("featured", .bool p.featured), ("draft", .bool p.draft)])

def decode : Decoder Post :=
  (Post.mk <$> .required "title" .string <*> .required "excerpt" .string <*>
    .required "date" .string <*> .required "author" Author.decode <*>
    .required "category" PostCategory.decode <*> optionalList "tags" .string <*>
    .optional "image" PostImage.decode <*> .withDefault "featured" false .bool <*>
    .withDefault "draft" false .bool : Record Post).decode "Post"

end Post

/-- The hero of a service page, where everything is optional. -/
structure ServiceHero where
  image : Option String
  heading : Option String
  subheading : Option String
  deriving Repr, DecidableEq

namespace ServiceHero

def encode (h : ServiceHero) : Json :=
  .obj
    (entryOfOption "image" .str h.image ++ entryOfOption "heading" .str h.heading ++
      entryOfOption "subheading" .str h.subheading)

def decode : Decoder ServiceHero :=
  (ServiceHero.mk <$> .optional "image" .string <*> .optional "heading" .string <*>
    .optional "subheading" .string : Record ServiceHero).decode "ServiceHero"

end ServiceHero

structure ServicePage where
  title : String
  description : String
  slug : String
  category : ServiceCategory
  tagline : Option String
  icon : Option String
  hero : Option ServiceHero
  features : List Feature
  pricing : List PricingPlan
  testimonials : List Testimonial
  faq : List FaqItem
  cta : List Link
  deriving Repr, DecidableEq

namespace ServicePage

def encode (p : ServicePage) : Json :=
  .obj
    ([("title", .str p.title), ("description", .str p.description), ("slug", .str p.slug),
      ("category", Vocabulary.encode p.category)] ++
      entryOfOption "tagline" .str p.tagline ++ entryOfOption "icon" .str p.icon ++
      entryOfOption "hero" ServiceHero.encode p.hero ++
      entryOfList "features" Feature.encode p.features ++
      entryOfList "pricing" PricingPlan.encode p.pricing ++
      entryOfList "testimonials" Testimonial.encode p.testimonials ++
      entryOfList "faq" FaqItem.encode p.faq ++ entryOfList "cta" Link.encode p.cta)

def decode : Decoder ServicePage :=
  (ServicePage.mk <$> .required "title" .string <*> .required "description" .string <*>
    .required "slug" .string <*> .required "category" (.vocabulary ServiceCategory) <*>
    .optional "tagline" .string <*> .optional "icon" .string <*>
    .optional "hero" ServiceHero.decode <*> optionalList "features" Feature.decode <*>
    optionalList "pricing" PricingPlan.decode <*>
    optionalList "testimonials" Testimonial.decode <*> optionalList "faq" FaqItem.decode <*>
    optionalList "cta" Link.decode : Record ServicePage).decode "ServicePage"

end ServicePage

structure ServicesIndexHero where
  heading : String
  subheading : Option String
  deriving Repr, DecidableEq

namespace ServicesIndexHero

def encode (h : ServicesIndexHero) : Json :=
  .obj (("heading", .str h.heading) :: entryOfOption "subheading" .str h.subheading)

def decode : Decoder ServicesIndexHero :=
  (ServicesIndexHero.mk <$> .required "heading" .string <*> .optional "subheading" .string :
    Record ServicesIndexHero).decode "ServicesIndexHero"

end ServicesIndexHero

/-- An entry of the services overview. -/
structure ServiceSummary where
  title : String
  description : String
  icon : Option String
  category : ServiceCategory
  url : String
  deriving Repr, DecidableEq

namespace ServiceSummary

def encode (s : ServiceSummary) : Json :=
  .obj
    ([("title", .str s.title), ("description", .str s.description)] ++
      entryOfOption "icon" .str s.icon ++
      [("category", Vocabulary.encode s.category), ("url", .str s.url)])

def decode : Decoder ServiceSummary :=
  (ServiceSummary.mk <$> .required "title" .string <*> .required "description" .string <*>
    .optional "icon" .string <*> .required "category" (.vocabulary ServiceCategory) <*>
    .required "url" .string : Record ServiceSummary).decode "ServiceSummary"

end ServiceSummary

structure ServicesIndex where
  title : String
  description : String
  hero : ServicesIndexHero
  intro : Option String
  services : List ServiceSummary
  cta : List Link
  deriving Repr, DecidableEq

namespace ServicesIndex

def encode (i : ServicesIndex) : Json :=
  .obj
    ([("title", .str i.title), ("description", .str i.description), ("hero", i.hero.encode)] ++
      entryOfOption "intro" .str i.intro ++
      ("services", .arr (i.services.map ServiceSummary.encode)) ::
        entryOfList "cta" Link.encode i.cta)

def decode : Decoder ServicesIndex :=
  (ServicesIndex.mk <$> .required "title" .string <*> .required "description" .string <*>
    .required "hero" ServicesIndexHero.decode <*> .optional "intro" .string <*>
    .required "services" (.list ServiceSummary.decode) <*> optionalList "cta" Link.decode :
    Record ServicesIndex).decode "ServicesIndex"

end ServicesIndex

end SiteContent.View
