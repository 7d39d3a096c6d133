import SiteContent.Collection.Site
import SiteContent.Proofs.RecordViews

/-! The typed views of the site's collections. Each is set beside its schema, field by field. -/

namespace SiteContent

namespace View

variable {defs : Definitions}

namespace Mirrors

theorem link : Mirrors defs [] (.object Fragment.link) Link.decode Link.encode := by
  have hfields : FieldsMirror defs [] Fragment.link.fields _ :=
    .cons (.required rfl .string) <| .cons (.optional rfl .string) <|
    .cons (.required rfl .string) <| .cons (.optional rfl .string) <|
    .cons (.optional rfl .string) <| .cons (.optional rfl .vocabulary) <|
    .cons (.optional rfl .string) <| .cons (.optional rfl .vocabulary) <|
    .cons (.optional rfl .string) <| .cons (.withDefault .boolean false rfl rfl .boolean) .nil
  exact .object _ _ hfields Link.mk (by decide) rfl fun _ => by simp [Link.encode]

theorem feature : Mirrors defs [] (.object Fragment.feature) Feature.decode Feature.encode := by
  have hfields : FieldsMirror defs [] Fragment.feature.fields _ :=
    .cons (.required rfl .string) <| .cons (.required rfl .string) <|
    .cons (.optional rfl .string) <| .cons (.optional rfl .string) .nil
  exact .object _ _ hfields Feature.mk (by decide) rfl fun _ => by simp [Feature.encode]

theorem testimonial :
    Mirrors defs [] (.object Fragment.testimonial) Testimonial.decode Testimonial.encode := by
  have hfields : FieldsMirror defs [] Fragment.testimonial.fields _ :=
    .cons (.required rfl .string) <|
    .cons (.required rfl <| .object Speaker.decode Speaker.encode
      (.cons (.required rfl .string) <| .cons (.optional rfl .string) <|
        .cons (.optional rfl .string) <| .cons (.optional rfl .string) .nil)
      Speaker.mk (by decide) rfl fun _ => by simp [Speaker.encode]) .nil
  exact .object _ _ hfields Testimonial.mk (by decide) rfl fun _ => by simp [Testimonial.encode]

theorem pricingPlan :
    Mirrors defs [] (.object Fragment.pricingPlan) PricingPlan.decode PricingPlan.encode := by
  have hfields : FieldsMirror defs [] Fragment.pricingPlan.fields _ :=
    .cons (.required rfl .string) <| .cons (.optional rfl .string) <|
    .cons (.required rfl .string) <|
    .cons (.withDefault .string "monthly" rfl rfl (.string nofun)) <|
    .cons (.required rfl (.array .string)) <| .cons (.required rfl link) <|
    .cons (.withDefault .boolean false rfl rfl .boolean) <| .cons (.optional rfl .string) .nil
  exact .object _ _ hfields PricingPlan.mk (by decide) rfl
    fun _ => by simp [PricingPlan.encode, Json.ofStrings]

theorem faqItem : Mirrors defs [] (.object Fragment.faqItem) FaqItem.decode FaqItem.encode := by
  have hfields : FieldsMirror defs [] Fragment.faqItem.fields _ :=
    .cons (.required rfl .string) <| .cons (.required rfl .string) .nil
  exact .object _ _ hfields FaqItem.mk (by decide) rfl fun _ => by simp [FaqItem.encode]

theorem hero : Mirrors defs [[.key "cta"]] (.object Fragment.hero) Hero.decode Hero.encode := by
  have hfields : FieldsMirror defs [[.key "cta"]] Fragment.hero.fields _ :=
    .cons (.required rfl .string) <| .cons (.optional rfl .string) <|
    .cons (.optional rfl .string) <| .cons (.list rfl link) .nil
  exact .object _ _ hfields Hero.mk (by decide) rfl fun _ => by simp [Hero.encode]

/-- The fields that every section has. -/
def sectionFields : List FieldView :=
  [.required "title" .string .str, .required "description" .string .str,
    .optional "id" .string .str]

/-- The list of a component stands under its name in the schema and in the type. -/
theorem ofCase_section {β : Type} {d : Decoder β} {encode : β → Json} {fragment : Schema}
    (h : Mirrors defs [] (.object fragment) d encode) (component : SectionComponent)
    (body : List β → SectionBody)
    (hrecord : SectionBody.record component =
      body <$> .required (Vocabulary.literal component) (.list d))
    (hentries : ∀ bs, (body bs).entries = [("component", .str (Vocabulary.literal component)),
      (Vocabulary.literal component, .arr (bs.map encode))]) :
    OfCase defs Site.sectionUnion sectionFields Section.mk Section.decode Section.encode
      (Site.sectionCase component fragment) := by
  refine ⟨.required _ (.list d) fun bs => .arr (bs.map encode), body,
    .required rfl (.array h), fun r f bs hf htag hbs => ?_, fun as bs => ?_⟩
  · have hcomponent : Decoder.sharedTag SectionBody.components
        (.str (Vocabulary.literal component)) = .ok component := by
      cases component <;> rfl
    have hbody : (SectionBody.record component).read r = .ok (body bs) :=
      hrecord ▸ Record.read_map body hbs
    exact Record.decodeObject_obj
      (Record.read_seq hf (Record.read_shared (Record.tagged_eq_ok htag hcomponent hbody)))
  · simpa [Section.encode, sectionFields, Site.sectionUnion, Site.sectionCase] using hentries bs

theorem landingSection :
    Mirrors defs [] (.oneOf Site.sectionUnion) Section.decode Section.encode := by
  have hfields : FieldsMirror defs [] Site.sectionUnion.common.fields sectionFields :=
    .cons (.required rfl .string) <| .cons (.required rfl .string) <|
    .cons (.optional rfl .string) .nil
  refine .oneOf _ _ hfields Section.mk ?_ ⟨by decide, fun _ => .rfl, by decide⟩
  simp only [Site.sectionUnion, List.forall_mem_cons]
  exact ⟨ofCase_section feature .features .features rfl fun _ => rfl,
    ofCase_section testimonial .testimonials .testimonials rfl fun _ => rfl,
    ofCase_section pricingPlan .pricing .pricing rfl fun _ => rfl,
    ofCase_section faqItem .faq .faq rfl fun _ => rfl,
    ofCase_section link .cta .cta rfl fun _ => rfl, nofun⟩

theorem landingPage : Mirrors defs [[.key "hero", .key "cta"], [.key "sections"]]
    (.object Site.landingSchema) LandingPage.decode LandingPage.encode := by
  have hfields : FieldsMirror defs [[.key "hero", .key "cta"], [.key "sections"]]
      Site.landingSchema.fields _ :=
    .cons (.required rfl .string) <| .cons (.required rfl .string) <| .cons (.required rfl hero) <|
    .cons (.list rfl landingSection) .nil
  exact .object _ _ hfields LandingPage.mk (by decide) rfl fun _ => by simp [LandingPage.encode]

theorem post : Mirrors defs [[.key "tags"]] (.object Site.postSchema) Post.decode Post.encode := by
  have hfields : FieldsMirror defs [[.key "tags"]] Site.postSchema.fields _ :=
    .cons (.required rfl .string) <| .cons (.required rfl .string) <|
    .cons (.required rfl .string) <|
    .cons (.required rfl <| .object Author.decode Author.encode
      (.cons (.required rfl .string) <| .cons (.optional rfl .string) <|
        .cons (.optional rfl .string) .nil)
      Author.mk (by decide) rfl fun _ => by simp [Author.encode]) <|
    .cons (.required rfl <| .object PostCategory.decode PostCategory.encode
      (.cons (.required rfl .string) <| .cons (.required rfl .string) <|
        .cons (.withDefault .vocabulary .primary rfl rfl (.enumeration (by decide))) .nil)
      PostCategory.mk (by decide) rfl fun _ => by simp [PostCategory.encode]) <|
    .cons (.list rfl .string) <|
    .cons (.optional rfl <| .object PostImage.decode PostImage.encode
      (.cons (.required rfl .string) <| .cons (.required rfl .string) .nil)
      PostImage.mk (by decide) rfl fun _ => by simp [PostImage.encode]) <|
    .cons (.withDefault .boolean false rfl rfl .boolean) <|
    .cons (.withDefault .boolean false rfl rfl .boolean) .nil
  exact .object _ _ hfields Post.mk (by decide) rfl fun _ => by simp [Post.encode]

theorem servicePage :
    Mirrors defs
      [[.key "features"], [.key "pricing"], [.key "testimonials"], [.key "faq"], [.key "cta"]]
      (.object Site.serviceSchema) ServicePage.decode ServicePage.encode := by
  have hfields : FieldsMirror defs
      [[.key "features"], [.key "pricing"], [.key "testimonials"], [.key "faq"], [.key "cta"]]
      Site.serviceSchema.fields _ :=
    .cons (.required rfl .string) <| .cons (.required rfl .string) <|
    .cons (.required rfl .string) <| .cons (.required rfl .vocabulary) <|
    .cons (.optional rfl .string) <| .cons (.optional rfl .string) <|
    .cons (.optional rfl <| .object ServiceHero.decode ServiceHero.encode
      (.cons (.optional rfl .string) <| .cons (.optional rfl .string) <|
        .cons (.optional rfl .string) .nil)
      ServiceHero.mk (by decide) rfl fun _ => by simp [ServiceHero.encode]) <|
    .cons (.list rfl feature) <| .cons (.list rfl pricingPlan) <|
    .cons (.list rfl testimonial) <| .cons (.list rfl faqItem) <| .cons (.list rfl link) .nil
  exact .object _ _ hfields ServicePage.mk (by decide) rfl fun _ => by simp [ServicePage.encode]

theorem servicesIndex : Mirrors defs [[.key "cta"]]
    (.object Site.servicesIndexSchema) ServicesIndex.decode ServicesIndex.encode := by
  have hfields : FieldsMirror defs [[.key "cta"]] Site.servicesIndexSchema.fields _ :=
    .cons (.required rfl .string) <| .cons (.required rfl .string) <|
    .cons (.required rfl <| .object ServicesIndexHero.decode ServicesIndexHero.encode
      (.cons (.required rfl .string) <| .cons (.optional rfl .string) .nil)
      ServicesIndexHero.mk (by decide) rfl fun _ => by simp [ServicesIndexHero.encode]) <|
    .cons (.optional rfl .string) <|
    .cons (.required rfl <| .array <| .object ServiceSummary.decode ServiceSummary.encode
      (.cons (.required rfl .string) <| .cons (.required rfl .string) <|
        .cons (.optional rfl .string) <| .cons (.required rfl .vocabulary) <|
        .cons (.required rfl .string) .nil)
      ServiceSummary.mk (by decide) rfl fun _ => by simp [ServiceSummary.encode]) <|
    .cons (.list rfl link) .nil
  exact .object _ _ hfields ServicesIndex.mk (by decide) rfl fun _ => by simp [ServicesIndex.encode]

end Mirrors

end View

namespace Collection

open View

/-- A collection and a type of its documents agree. What validation accepts has a typed value. The
JSON form of that value is the stripped document without the empty lists at the given places, and is
a document that rejection accepts as it is. -/
def ViewedAs {α : Type} (c : Collection) (d : Decoder α) (encode : α → Json)
    (lists : List Location) : Prop :=
  ∀ policy raw doc, c.validate policy raw = .ok doc → ∃ (page : α) (stripped again : Document),
    d doc.value = .ok page ∧
    c.validate .strip raw = .ok stripped ∧
    (encode page).sorted = stripped.value.dropEmpty lists ∧
    c.validate .reject (encode page).sorted = .ok again ∧
    again.value = (encode page).sorted

variable {α : Type} {c : Collection} {policy : Policy} {raw : Json} {d : Decoder α}
  {encode : α → Json} {lists : List Location} {doc : Document}

theorem exists_validate_strip_of_ok (h : c.validate policy raw = .ok doc) :
    ∃ stripped, c.validate .strip raw = .ok stripped := by
  cases policy with
  | preserve =>
    obtain ⟨stripped, _, hstripped, _⟩ := exists_validate_strip h
    exact ⟨stripped, hstripped⟩
  | strip => exact ⟨doc, h⟩
  | reject => exact ⟨doc, validate_of_reject h .strip⟩

theorem viewedAs_of_mirrors (h : Mirrors c.definitions lists (.object c.schema) d encode) :
    c.ViewedAs d encode lists := by
  intro policy raw doc hdoc
  obtain ⟨_, page, hpage⟩ := h policy raw (conforms_of_validate hdoc)
  obtain ⟨stripped, hstripped⟩ := exists_validate_strip_of_ok hdoc
  obtain ⟨hclean, hsame⟩ := hpage.settled
  have hagain := validate_eq_ok_iff.mpr ⟨hclean, rfl⟩
  refine ⟨page, stripped, _, ?_, hstripped, ?_, hagain, ?_⟩
  · rw [value_of_validate hdoc]
    exact hpage.decoded
  · rw [value_of_validate hstripped]
    exact hpage.encoded
  · rw [value_of_validate hagain]
    exact hsame

end Collection

namespace Site

/-- The collections of the site agree with the types of their pages. -/
theorem collections_viewedAs :
    landing.ViewedAs View.LandingPage.decode View.LandingPage.encode
      [[.key "hero", .key "cta"], [.key "sections"]] ∧
    posts.ViewedAs View.Post.decode View.Post.encode [[.key "tags"]] ∧
    services.ViewedAs View.ServicePage.decode View.ServicePage.encode
      [[.key "features"], [.key "pricing"], [.key "testimonials"], [.key "faq"],
        [.key "cta"]] ∧
    servicesIndex.ViewedAs View.ServicesIndex.decode View.ServicesIndex.encode
      [[.key "cta"]] := by
  refine ⟨?_, ?_, ?_, ?_⟩
  · exact Collection.viewedAs_of_mirrors .landingPage
  · exact Collection.viewedAs_of_mirrors .post
  · exact Collection.viewedAs_of_mirrors .servicePage
  · exact Collection.viewedAs_of_mirrors .servicesIndex

/-- The list of calls may be left out, and goes when it is empty; that of the services stays. -/
theorem collections_viewedAs_empty_lists : ∃ (raw : Json) (doc : Document)
    (page : View.ServicesIndex), servicesIndex.validate .preserve raw = .ok doc ∧
      View.ServicesIndex.decode doc.value = .ok page ∧
      page.encode.sorted = .obj [("description", .str "d"), ("hero", .obj [("heading", .str "h")]),
        ("services", .arr []), ("title", .str "t")] := by
  have hraw : servicesIndex.validate .preserve (.obj [("cta", .arr []), ("description", .str "d"),
      ("extra", .null), ("hero", .obj [("heading", .str "h")]), ("services", .arr []),
      ("title", .str "t")]) = .ok ⟨"servicesIndex", [("cta", .arr []), ("description", .str "d"),
      ("extra", .null), ("hero", .obj [("heading", .str "h")]), ("services", .arr []),
      ("title", .str "t")]⟩ := rfl
  have hstrip : servicesIndex.validate .strip (.obj [("cta", .arr []), ("description", .str "d"),
      ("extra", .null), ("hero", .obj [("heading", .str "h")]), ("services", .arr []),
      ("title", .str "t")]) = .ok ⟨"servicesIndex", [("cta", .arr []), ("description", .str "d"),
      ("hero", .obj [("heading", .str "h")]), ("services", .arr []), ("title", .str "t")]⟩ := rfl
  obtain ⟨page, stripped, _, hpage, hstripped, hencoded, _⟩ :=
    collections_viewedAs.2.2.2 .preserve _ _ hraw
  obtain rfl := Except.ok.inj (hstrip.symm.trans hstripped)
  exact ⟨_, _, page, hraw, hpage, hencoded.trans (by decide)⟩

end Site

end SiteContent
