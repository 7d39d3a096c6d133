import SiteContent.Schema.Node

/-! Reusable schemas of page parts. Embedding one copies it. -/

namespace SiteContent.Fragment

/-- A link or button. -/
def link : Schema :=
  .ofList
    [("text", .string),
      ("label", Node.string.optional),
      ("url", .string),
      ("to", Node.string.optional),
      ("target", Node.string.optional),
      ("variant", (Node.enumeration (Vocabulary.enumeration ButtonVariant)).optional),
      ("color", Node.string.optional),
      ("size", (Node.enumeration (Vocabulary.enumeration ButtonSize)).optional),
      ("icon", Node.string.optional.editorInput "icon"),
      ("external", Node.boolean.withDefault (.bool false))]

/-- A card that presents one feature. -/
def feature : Schema :=
  .ofList
    [("title", .text),
      ("description", .text),
      ("icon", Node.string.optional.editorInput "icon"),
      ("image", Node.string.optional.editorInput "media")]

/-- A customer's quote with its author. -/
def testimonial : Schema :=
  .ofList
    [("quote", .text),
      ("author", .object (.ofList
        [("name", .text),
          ("role", Node.string.optional),
          ("company", Node.string.optional),
          ("avatar", Node.string.optional.editorInput "media")]))]

/-- A price with what it buys. -/
def pricingPlan : Schema :=
  .ofList
    [("title", .text),
      ("description", Node.string.optional),
      ("price", .text),
      ("billing", Node.string.withDefault (.str "monthly")),
      ("features", (Node.array .text).nonEmpty),
      ("cta", .object link),
      ("highlight", Node.boolean.withDefault (.bool false)),
      ("badge", Node.string.optional)]

def faqItem : Schema :=
  .ofList [("question", .text), ("answer", .text)]

/-- The block at the head of a page. -/
def hero : Schema :=
  .ofList
    [("heading", .text),
      ("subheading", Node.string.optional),
      ("image", Node.string.optional.editorInput "media"),
      ("cta", (Node.array (.object link)).optional)]

/-- The fragments by the names they are exported under, in the order of the names. -/
def all : Dict Schema :=
  [("faqItem", faqItem), ("feature", feature), ("hero", hero), ("link", link),
    ("pricingPlan", pricingPlan), ("testimonial", testimonial)]

def named? (name : String) : Option Schema :=
  all.get? name

end SiteContent.Fragment
