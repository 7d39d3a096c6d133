import SiteContent.Collection.Site
import SiteContent.Proofs.DataModel
import SiteContent.Proofs.Within

/-! An object of a union shows one case. Payloads of other cases are complaints of their own, an
object that selects no case has no payload looked at, and what validation returns shows one case
again. -/

namespace SiteContent

open Walk

section Conformity

variable {defs : Definitions} {policy : Policy} {v : Json} {k : Kind Node} {es : Dict Json}

theorem shaped_preserve (h : Shaped policy es k) : Shaped .preserve es k :=
  ⟨h.1, nofun⟩

variable (hdefaults : ∀ es, v = .obj es → ∀ f ∈ fieldsOn es k, ∀ d, f.node.default = some d →
    Conforms defs .preserve d f.node.kind)
  (hparts : ∀ w l, Descends v k w l → Conforms defs policy w l →
    Conforms defs .preserve (value defs policy w l).result l)

include hdefaults hparts

theorem conforms_result_record (hv : v = .obj es) (hk : k.Record) (hc : Conforms defs policy v k) :
    Conforms defs .preserve (value defs policy v k).result k := by
  subst hv
  have hshaped := hc.shaped hk
  obtain ⟨r, hr, h⟩ := exists_rebuilt defs policy es hk
  rw [hr]
  refine .of_shaped hk (shaped_preserve (h.shaped hk hshaped)) ?_ ?_
  · intro f hf x hx
    rw [h.fieldsOn_eq hk hshaped] at hf
    rw [h.get?_name hk hf, entered?] at hx
    cases hg : es.get? f.name with
    | none =>
      rw [hg] at hx
      exact hdefaults es rfl f hf x hx
    | some w =>
      rw [hg] at hx
      obtain rfl := Option.some.inj hx
      have hw : Conforms defs policy w f.node.kind := hc.inside (fun _ => hk) (.field hf hg)
      exact hparts w _ (.field hf hg) hw
  · intro f hf hx
    rw [h.fieldsOn_eq hk hshaped] at hf
    rw [h.get?_name hk hf] at hx
    exact hc.omissible hk f hf (entered?_eq_none.mp hx).1

theorem conforms_result_of_parts (hk : k.isKeyed = true → k.Record) (ht : k.target? = none)
    (hc : Conforms defs policy v k) :
    Conforms defs .preserve (value defs policy v k).result k := by
  have hc' := hc
  cases hc with
  | object _ _ _ => exact conforms_result_record hdefaults hparts rfl (hk rfl) hc'
  | oneOf _ _ _ _ _ _ _ => exact conforms_result_record hdefaults hparts rfl (hk rfl) hc'
  | @array vs items nonEmpty hitems hne =>
    rw [result_array]
    refine .array ?_ fun h => by simpa using hne h
    intro x hx
    obtain ⟨w, hw, rfl⟩ := List.mem_map.mp hx
    exact hparts w _ (.item hw) (hitems w hw)
  | any => exact .any
  | reference _ _ => simp [Kind.target?] at ht
  | string hs =>
    rw [result_of_isScalar rfl]
    exact .string hs
  | boolean =>
    rw [result_of_isScalar rfl]
    exact .boolean
  | number =>
    rw [result_of_isScalar rfl]
    exact .number
  | enumeration hs =>
    rw [result_of_isScalar rfl]
    exact .enumeration hs

end Conformity

/-- What is made of a value that conforms does so too, as far as declared keys go: of the defaults
that were put in it is known since the build. -/
theorem SchemaGraph.WellFormed.conforms_result {defs : Definitions} {root : Schema} {path : String}
    {n : Node} {policy : Policy} {v : Json} (h : WellFormed defs root)
    (hn : Sited defs root path n) (hc : Conforms defs policy v n.kind) :
    Conforms defs .preserve (value defs policy v n.kind).result n.kind := by
  refine h.walk_induction (P := fun v k => Conforms defs policy v k →
    Conforms defs .preserve (value defs policy v k).result k) ?_ ?_ hn v hc
  · intro v k l hr hl
    rwa [value_eq_of_resolve hr, conforms_iff_of_forwards (Definitions.follow_eq_kind hr).1,
      conforms_iff_of_forwards (Definitions.follow_eq_kind hr).1]
  · intro v path m hm ht hparts
    refine conforms_result_of_parts ?_ hparts (h.record (.node hm)) ht
    intro es _ f hf d hd
    exact h.conforms_default (hm.part (mem_parts_of_mem_fieldsOn hf)) hd

/-- An object shows one case of a union: its tag names the case, and of all payloads it can only
carry that of the case. -/
structure ShowsCase (u : TaggedUnion Node) (es : Dict Json) (c : Variant Node) : Prop where
  member : c ∈ u.variants
  tagged : es.get? u.tag = some (.str c.tag)
  exclusive : ∀ other ∈ u.variants, other.tag ≠ c.tag → es.get? other.payload.name = none

/-- Why an object selects no case of a union. -/
inductive Untagged (u : TaggedUnion Node) (es : Dict Json) : Cause → Prop
  | absent : es.get? u.tag = none → Untagged u es .missingField
  | foreign {t : String} : es.get? u.tag = some (.str t) → t ∉ u.tags.members →
      Untagged u es (.invalidEnumValue u.tags.members t)
  | noText {v : Json} : es.get? u.tag = some v → (∀ t, v ≠ .str t) →
      Untagged u es (mismatch v "string")

theorem Conforms.exists_showsCase {defs : Definitions} {policy : Policy} {es : Dict Json}
    {u : TaggedUnion Node} (h : Conforms defs policy (.obj es) (.oneOf u)) :
    ∃ c, ShowsCase u es c := by
  cases h with
  | oneOf hc _ htag _ _ hothers _ => exact ⟨_, hc, htag, hothers⟩

namespace Walk

variable {defs : Definitions} {policy : Policy} {es : Dict Json} {members : Dict Walker}
  {u : TaggedUnion Node} {b c : Variant Node}

theorem untagged_or_tagOf? (u : TaggedUnion Node) (es : Dict Json) :
    (∃ cause, Untagged u es cause ∧ (tag u es).diagnostics = [⟨[.key u.tag], cause⟩] ∧
      selected? u es = none) ∨ ∃ t, tagOf? u es = some t := by
  cases hg : es.get? u.tag with
  | none =>
    exact .inl ⟨_, .absent hg, by simp [tag, hg, Walked.report], by simp [selected?, tagOf?, hg]⟩
  | some v =>
    by_cases htext : ∃ t, v = .str t
    · obtain ⟨t, rfl⟩ := htext
      by_cases ht : t ∈ u.tags.members
      · exact .inr ⟨t, tagOf?_eq_some.mpr ⟨hg, ht⟩⟩
      · have hmember : u.tags.isMember t = false := by simpa [Enumeration.isMember] using ht
        exact .inl ⟨_, .foreign hg ht, by simp [tag, hg, hmember, Walked.report],
          by simp [selected?, tagOf?, hg, hmember]⟩
    · have hne : ∀ t, v ≠ .str t := fun t he => htext ⟨t, he⟩
      refine .inl ⟨_, .noText hg hne, ?_, ?_⟩
      · cases v with
        | str t => exact absurd rfl (hne t)
        | _ => simp [tag, hg, Walked.report]
      · cases v with
        | str t => exact absurd rfl (hne t)
        | _ => simp [selected?, tagOf?, hg]

/-- A payload is found where the cases are, not under the common fields nor under the tag. -/
theorem payload_mem_caseSections (hu : u.Lawful) (hb : b ∈ u.variants)
    (h : b.payload.name ∈ (sections es members (.oneOf u)).map (·.1)) :
    b.payload.name ∈ (caseSections u es members).map (·.1) := by
  simp only [sections, List.map_append, List.map_map, List.map_cons, List.mem_append,
    List.mem_cons] at h
  rcases h with h | h | h
  · exact absurd h (hu.payload_notMem_common hb)
  · exact absurd h (hu.payload_ne_tag hb)
  · exact h

theorem within_payload_of_untagged (hu : u.Lawful) (hsel : selected? u es = none)
    (hb : b ∈ u.variants) :
    within [.key b.payload.name] (value defs policy (.obj es) (.oneOf u)).diagnostics = [] := by
  refine within_of_no_section (.oneOf hu) (TaggedUnion.payload_mem_allNames hb) fun hmem => ?_
  have hcases := payload_mem_caseSections hu hb hmem
  simp [caseSections, hsel] at hcases

theorem within_payload_of_selected (hu : u.Lawful) (hsel : selected? u es = some c)
    (hb : b ∈ u.variants) (hne : b.tag ≠ c.tag) :
    within [.key b.payload.name] (value defs policy (.obj es) (.oneOf u)).diagnostics =
      if es.contains b.payload.name then
        [⟨[.key b.payload.name], .forbiddenField u.tag c.tag⟩] else [] := by
  have hc : c ∈ u.variants := (selected?_spec hsel).1
  by_cases hcarried : es.contains b.payload.name = true
  · have hmem : forbiddenSection u c b ∈
        sections es (es.mapValues (value defs policy)) (.oneOf u) := by
      refine List.mem_append_right _ (List.mem_cons_of_mem _ ?_)
      rw [caseSections, hsel]
      refine List.mem_cons_of_mem _ (List.mem_map.mpr ⟨b, List.mem_filter.mpr ⟨hb, ?_⟩, rfl⟩)
      simp [hne, contains_mapValues, hcarried]
    have hwithin : within [.key b.payload.name]
        (value defs policy (.obj es) (.oneOf u)).diagnostics =
          within [.key b.payload.name] (forbiddenSection u c b).2 :=
      within_section (.oneOf hu) hmem
    rw [hwithin, if_pos hcarried]
    exact within_self rfl
  · rw [if_neg hcarried]
    refine within_of_no_section (.oneOf hu) (TaggedUnion.payload_mem_allNames hb) fun hmem => ?_
    have hcases := payload_mem_caseSections hu hb hmem
    rw [caseSections, hsel] at hcases
    simp only [List.map_cons, List.mem_cons, List.map_map, List.mem_map, List.mem_filter] at hcases
    rcases hcases with he | ⟨other, ⟨hother, hkept⟩, he⟩
    · exact hne (congrArg _ (hu.payload_inj hb hc he))
    · obtain rfl := hu.payload_inj hother hb he
      simp [contains_mapValues, hcarried] at hkept

end Walk

/-- What is reported at the tag and at the payloads of an object of a union, seen from the top of
the document. -/
structure ReportsCases (u : TaggedUnion Node) (es : Dict Json) (p : Location)
    (ds : List Diagnostic) : Prop where
  selected : ∀ t ∈ u.tags.members, es.get? u.tag = some (.str t) →
    (∃ a ∈ u.variants, a.tag = t) ∧ ∀ b ∈ u.variants, b.tag ≠ t →
      within (p ++ [.key b.payload.name]) ds =
        if es.contains b.payload.name then
          [⟨p ++ [.key b.payload.name], .forbiddenField u.tag t⟩] else []
  untagged : (∀ t ∈ u.tags.members, es.get? u.tag ≠ some (.str t)) →
    (∃ cause, Untagged u es cause ∧
      within (p ++ [.key u.tag]) ds = [⟨p ++ [.key u.tag], cause⟩]) ∧
    ∀ b ∈ u.variants, within (p ++ [.key b.payload.name]) ds = []

theorem reportsCases_value {defs : Definitions} {policy : Policy} {es : Dict Json}
    {u : TaggedUnion Node} (hu : u.Lawful) :
    ReportsCases u es [] (value defs policy (.obj es) (.oneOf u)).diagnostics := by
  constructor
  case selected =>
    intro t ht htag
    obtain ⟨a, ha, rfl, hsel⟩ := exists_selected hu (tagOf?_eq_some.mpr ⟨htag, ht⟩)
    exact ⟨⟨a, ha, rfl⟩, fun b hb hne => within_payload_of_selected hu hsel hb hne⟩
  case untagged =>
    intro hnone
    rcases untagged_or_tagOf? u es with ⟨cause, hcause, htag, hsel⟩ | ⟨t, ht⟩
    · refine ⟨⟨cause, hcause, ?_⟩, fun b hb => within_payload_of_untagged hu hsel hb⟩
      have hmem : (u.tag, (tag u es).diagnostics) ∈
          sections es (es.mapValues (value defs policy)) (.oneOf u) := tagSection_mem_sections
      have hwithin := within_section (p := []) (.oneOf hu) hmem
      rw [htag] at hwithin
      exact hwithin.trans (within_self rfl)
    · obtain ⟨htag, hmem⟩ := tagOf?_eq_some.mp ht
      exact absurd htag (hnone t hmem)

namespace Collection

variable {c : Collection} {policy : Policy} {raw v : Json} {d : Document} {p : Location}
  {es : Dict Json} {u : TaggedUnion Node}

theorem within_findings {w : Json} {k : Kind Node} (policy : Policy)
    (hl : Located c.definitions raw (.object c.schema) p w k) (q : Location) :
    within (p ++ q) (c.findings policy raw) =
      (within q (value c.definitions policy w k).diagnostics).map (·.underAll p) := by
  rw [findings_eq]
  exact c.wellFormed.within_located c.occurs_root hl

theorem lawful_of_located
    (hl : Located c.definitions raw (.object c.schema) p (.obj es) (.oneOf u)) : u.Lawful := by
  cases c.wellFormed.record (c.occurs_root.located hl) rfl with
  | oneOf hu => exact hu

theorem reportsCases_findings (policy : Policy)
    (hl : Located c.definitions raw (.object c.schema) p (.obj es) (.oneOf u)) :
    ReportsCases u es p (c.findings policy raw) := by
  have hvalue : ReportsCases u es []
      (value c.definitions policy (.obj es) (.oneOf u)).diagnostics :=
    reportsCases_value (lawful_of_located hl)
  constructor
  case selected =>
    intro t ht htag
    obtain ⟨hcase, hothers⟩ := hvalue.selected t ht htag
    refine ⟨hcase, fun b hb hne => ?_⟩
    have hwithin := hothers b hb hne
    rw [List.nil_append] at hwithin
    rw [within_findings policy hl, hwithin]
    split <;> rfl
  case untagged =>
    intro hnone
    obtain ⟨⟨cause, hcause, htag⟩, hpayloads⟩ := hvalue.untagged hnone
    rw [List.nil_append] at htag
    refine ⟨⟨cause, hcause, ?_⟩, fun b hb => ?_⟩
    · rw [within_findings policy hl, htag]
      rfl
    · have hwithin := hpayloads b hb
      rw [List.nil_append] at hwithin
      rw [within_findings policy hl, hwithin]
      rfl

theorem conforms_value_of_validate (h : c.validate policy raw = .ok d) :
    Conforms c.definitions .preserve d.value (.object c.schema) := by
  rw [value_of_validate h]
  have hroot : SchemaGraph.Sited c.definitions c.schema "" (Node.object c.schema) := .root
  exact c.wellFormed.conforms_result hroot (conforms_of_validate h)

theorem exists_conforms_of_validate (h : c.validate policy raw = .ok d) (hv : v ∈ [raw, d.value]) :
    ∃ p : Policy, Conforms c.definitions p v (.object c.schema) := by
  rcases List.mem_pair.mp hv with rfl | rfl
  · exact ⟨policy, conforms_of_validate h⟩
  · exact ⟨.preserve, conforms_value_of_validate h⟩

theorem exists_showsCase_of_validate (h : c.validate policy raw = .ok d) (hv : v ∈ [raw, d.value])
    (hl : Located c.definitions v (.object c.schema) p (.obj es) (.oneOf u)) :
    ∃ a, ShowsCase u es a := by
  obtain ⟨_, hconforms⟩ := exists_conforms_of_validate h hv
  exact (c.wellFormed.conforms_located c.occurs_root hconforms hl).exists_showsCase

theorem exists_error_of_two_payloads {a b : Variant Node}
    (hl : Located c.definitions raw (.object c.schema) p (.obj es) (.oneOf u))
    (ha : a ∈ u.variants) (hb : b ∈ u.variants) (hne : a.tag ≠ b.tag)
    (hcarriesA : es.contains a.payload.name = true)
    (hcarriesB : es.contains b.payload.name = true) :
    ∃ ds, c.validate policy raw = .error ds := by
  cases h : c.validate policy raw with
  | error ds => exact ⟨ds, rfl⟩
  | ok d =>
    obtain ⟨x, hx⟩ := exists_showsCase_of_validate h List.mem_cons_self hl
    have honly : ∀ y ∈ u.variants, es.contains y.payload.name = true → y.tag = x.tag := by
      intro y hy hcarries
      by_contra htag
      simp [Dict.contains, hx.exclusive y hy htag] at hcarries
    exact absurd ((honly a ha hcarriesA).trans (honly b hb hcarriesB).symm) hne

end Collection

namespace Site

variable {defs : Definitions} {policy : Policy} {v w : Json} {c : Variant Node}

/-- A section shows the one component that it names, with something in it. -/
structure ShowsComponent (es : Dict Json) (component : SectionComponent) : Prop where
  named : es.get? "component" = some (.str (Vocabulary.literal component))
  shown : ∃ vs, vs ≠ [] ∧ es.get? (Vocabulary.literal component) = some (.arr vs)
  exclusive : ∀ other : SectionComponent, other ≠ component →
    es.get? (Vocabulary.literal other) = none

theorem eq_sectionCase (hc : c ∈ sectionUnion.variants) :
    ∃ component fragment, c = sectionCase component fragment := by
  simp only [sectionUnion, List.mem_cons, List.not_mem_nil, or_false] at hc
  rcases hc with h | h | h | h | h <;> exact ⟨_, _, h⟩

theorem exists_sectionCase (component : SectionComponent) :
    ∃ fragment, sectionCase component fragment ∈ sectionUnion.variants := by
  cases component with
  | features => exact ⟨Fragment.feature, by simp [sectionUnion]⟩
  | testimonials => exact ⟨Fragment.testimonial, by simp [sectionUnion]⟩
  | pricing => exact ⟨Fragment.pricingPlan, by simp [sectionUnion]⟩
  | faq => exact ⟨Fragment.faqItem, by simp [sectionUnion]⟩
  | cta => exact ⟨Fragment.link, by simp [sectionUnion]⟩

theorem literal_inj {a b : SectionComponent}
    (h : Vocabulary.literal a = Vocabulary.literal b) : a = b := by
  cases a <;> cases b <;> first | rfl | simp [Vocabulary.literal] at h

theorem exists_showsComponent (h : Conforms defs policy v (.oneOf sectionUnion)) :
    ∃ es component, v = .obj es ∧ ShowsComponent es component := by
  cases h with
  | @oneOf es _ c hc _ htag hpresent habsent hothers _ =>
    obtain ⟨component, fragment, rfl⟩ := eq_sectionCase hc
    refine ⟨es, component, rfl, htag, ?_, ?_⟩
    · have hpayload : (sectionCase component fragment).payload ∈
          sectionUnion.common.fields ++ [(sectionCase component fragment).payload] :=
        List.mem_append_right _ (List.mem_singleton_self _)
      cases hg : es.get? (Vocabulary.literal component) with
      | none =>
        -- A payload is required and has no default.
        have ho := habsent _ hpayload hg
        simp [Node.Omissible, sectionCase, listOf, Node.nonEmpty, Node.array, Node.ofKind] at ho
      | some w =>
        have hw := hpresent _ hpayload w hg
        cases hw with
        | array _ hne => exact ⟨_, hne rfl, rfl⟩
    · intro other hne
      obtain ⟨fragment', hmem⟩ := exists_sectionCase other
      exact hothers _ hmem fun he => hne (literal_inj he)

theorem showsComponent_sections (h : Conforms defs policy v (.object landingSchema))
    (hw : v.get? "sections" = some w) :
    ∃ ss, w = .arr ss ∧ ∀ s ∈ ss, ∃ es component, s = .obj es ∧ ShowsComponent es component := by
  cases h with
  | object hpresent _ _ =>
    have hfield : (⟨"sections", (Node.array (.oneOf sectionUnion)).optional⟩ : Field Node) ∈
        landingSchema.fields := by simp [landingSchema]
    have hsections := hpresent _ hfield w hw
    cases hsections with
    | array hitems _ => exact ⟨_, rfl, fun s hs => exists_showsComponent (hitems s hs)⟩

end Site

/-- Unions are exclusive, in every document and in whatever is made of it: payloads of two cases are
refused, with a complaint of its own about each that its tag does not select, and the sections of a
landing page show one component each. -/
theorem unions_exclusive :
    (∀ (c : Collection) (policy : Policy) (raw : Json),
      (∀ (p : Location) (es : Dict Json) (u : TaggedUnion Node),
        Located c.definitions raw (.object c.schema) p (.obj es) (.oneOf u) →
        ReportsCases u es p (c.findings policy raw) ∧
        ∀ a ∈ u.variants, ∀ b ∈ u.variants, a.tag ≠ b.tag →
          es.contains a.payload.name = true → es.contains b.payload.name = true →
          ∃ ds, c.validate policy raw = .error ds) ∧
      ∀ d, c.validate policy raw = .ok d → ∀ v ∈ [raw, d.value],
        ∀ (p : Location) (es : Dict Json) (u : TaggedUnion Node),
        Located c.definitions v (.object c.schema) p (.obj es) (.oneOf u) →
        ∃ a, ShowsCase u es a) ∧
    ∀ policy raw d, Site.landing.validate policy raw = .ok d → ∀ v ∈ [raw, d.value],
      ∀ w, v.get? "sections" = some w → ∃ ss, w = .arr ss ∧
        ∀ s ∈ ss, ∃ es component, s = .obj es ∧ Site.ShowsComponent es component := by
  refine ⟨fun c policy raw => ⟨fun p es u hl => ⟨?_, ?_⟩, ?_⟩, ?_⟩
  · exact Collection.reportsCases_findings policy hl
  · intro a ha b hb hne hcarriesA hcarriesB
    exact Collection.exists_error_of_two_payloads hl ha hb hne hcarriesA hcarriesB
  · intro d h v hv p es u hl
    exact Collection.exists_showsCase_of_validate h hv hl
  · intro policy raw d h v hv w hw
    obtain ⟨_, hconforms⟩ := Collection.exists_conforms_of_validate h hv
    exact Site.showsComponent_sections hconforms hw

/-- A section that asks for a link and brings questions too, and a page of one section. -/
theorem unions_exclusive_sections :
    ∃ (shown : Dict Json) (raw page : Json) (d : Document),
      raw.at? [.key "sections", .index 0] = some (.obj shown) ∧
      (∃ ds, Site.landing.validate .preserve raw = .error ds) ∧
      within [.key "sections", .index 0, .key "faq"] (Site.landing.findings .preserve raw) =
        [⟨[.key "sections", .index 0, .key "faq"], .forbiddenField "component" "cta"⟩] ∧
      Site.landing.validate .strip page = .ok d ∧
      ∃ es component, d.value.at? [.key "sections", .index 0] = some (.obj es) ∧
        Site.ShowsComponent es component := by
  let link : Json := .obj [("text", .str "go"), ("url", .str "/")]
  let shown : Dict Json := [("component", .str "cta"), ("cta", .arr [link]), ("faq", .arr [])]
  let raw : Json := .obj [("sections", .arr [.obj shown])]
  let page (link : Json) : Dict Json :=
    [("description", .str "b"), ("hero", .obj [("heading", .str "h")]),
      ("sections", .arr [.obj [("component", .str "cta"), ("cta", .arr [link]),
        ("description", .str "b"), ("title", .str "a")]]), ("title", .str "a")]
  let completed : Json := .obj [("external", .bool false), ("text", .str "go"), ("url", .str "/")]
  have hl : Located Site.landing.definitions raw (.object Site.landing.schema)
      [.key "sections", .index 0] (.obj shown) (.oneOf Site.sectionUnion) := by
    have hfield : (⟨"sections", (Node.array (.oneOf Site.sectionUnion)).optional⟩ : Field Node) ∈
        fieldsOn [("sections", .arr [.obj shown])] (.object Site.landing.schema) := by
      simp [fieldsOn, Site.landing, Site.landingSchema]
    exact .step (.field hfield rfl) (.step (.item rfl) .here)
  have hcta : Site.sectionCase .cta Fragment.link ∈ Site.sectionUnion.variants := by
    simp [Site.sectionUnion]
  have hfaq : Site.sectionCase .faq Fragment.faqItem ∈ Site.sectionUnion.variants := by
    simp [Site.sectionUnion]
  have hd : Site.landing.validate .strip (.obj (page link)) = .ok ⟨"landing", page completed⟩ := by
    decide +kernel
  obtain ⟨hall, hlanding⟩ := unions_exclusive
  obtain ⟨hreports, htwo⟩ := (hall Site.landing .preserve raw).1 _ _ _ hl
  obtain ⟨_, hothers⟩ := hreports.selected "cta" (by decide) rfl
  obtain ⟨ss, hss, hshows⟩ := hlanding .strip _ _ hd _
    (List.mem_cons_of_mem _ (List.mem_singleton_self _)) _ rfl
  obtain ⟨es, component, hs, hcomponent⟩ := hshows _ (Json.arr.inj hss ▸ List.mem_cons_self)
  have hwithin := hothers _ hfaq (by decide)
  rw [if_pos (by decide)] at hwithin
  have herror := htwo _ hcta _ hfaq (by decide) (by decide) (by decide)
  exact ⟨shown, raw, _, _, rfl, herror, hwithin, hd, es, component, congrArg some hs, hcomponent⟩

end SiteContent
