import SiteContent.Proofs.Building
import SiteContent.Validation.Document

/-! Which documents a collection accepts: those that conform to its schema. What it means to conform
is stated here without the walk that checks it. -/

namespace SiteContent

namespace TaggedUnion

theorem Lawful.variantFor?_eq_some {α : Type} {u : TaggedUnion α} (hu : u.Lawful) {c : Variant α}
    (hc : c ∈ u.variants) : u.variantFor? c.tag = some c :=
  Names.find?_of_nodup hu.tags_distinct hc

end TaggedUnion

/-- A value for this node may be left out. -/
def Node.Omissible (n : Node) : Prop :=
  n.required = false ∨ n.default.isSome

/-- A value is one that a kind asks for. -/
inductive Conforms (defs : Definitions) (policy : Policy) : Json → Kind Node → Prop
  | string {s : String} {nonEmpty : Bool} :
      (nonEmpty = true → ∃ c ∈ s.toList, Text.isBlank c = false) →
      Conforms defs policy (.str s) (.string nonEmpty)
  | boolean {b : Bool} : Conforms defs policy (.bool b) .boolean
  | number {n : Number} : Conforms defs policy (.num n) .number
  | enumeration {s : String} {e : Enumeration} :
      s ∈ e.members → Conforms defs policy (.str s) (.enumeration e)
  | any {v : Json} : Conforms defs policy v .any
  | object {es : Dict Json} {s : Schema} :
      (∀ f ∈ s.fields, ∀ v, es.get? f.name = some v → Conforms defs policy v f.node.kind) →
      (∀ f ∈ s.fields, es.get? f.name = none → f.node.Omissible) →
      (policy = .reject → ∀ key ∈ es.keys, key ∈ s.names) →
      Conforms defs policy (.obj es) (.object s)
  | array {vs : List Json} {items : Node} {nonEmpty : Bool} :
      (∀ v ∈ vs, Conforms defs policy v items.kind) → (nonEmpty = true → vs ≠ []) →
      Conforms defs policy (.arr vs) (.array items nonEmpty)
  | oneOf {es : Dict Json} {u : TaggedUnion Node} {c : Variant Node} :
      c ∈ u.variants → c.tag ∈ u.tags.members → es.get? u.tag = some (.str c.tag) →
      (∀ f ∈ u.common.fields ++ [c.payload], ∀ v,
        es.get? f.name = some v → Conforms defs policy v f.node.kind) →
      (∀ f ∈ u.common.fields ++ [c.payload], es.get? f.name = none → f.node.Omissible) →
      (∀ other ∈ u.variants, other.tag ≠ c.tag → es.get? other.payload.name = none) →
      (policy = .reject → ∀ key ∈ es.keys, key ∈ u.allNames) →
      Conforms defs policy (.obj es) (.oneOf u)
  | reference {v : Json} {target : String} {n : Node} :
      defs.get? target = some n → Conforms defs policy v n.kind →
      Conforms defs policy v (.reference target)

theorem conforms_iff_of_forwards {defs : Definitions} {policy : Policy} {v : Json}
    {k l : Kind Node} (h : Relation.ReflTransGen defs.Forwards k l) :
    Conforms defs policy v k ↔ Conforms defs policy v l := by
  induction h with
  | refl => rfl
  | tail _ hs ih =>
    refine ih.trans ?_
    cases hs with
    | intro hn =>
      refine ⟨fun h => ?_, .reference hn⟩
      cases h with
      | reference hm h =>
        obtain rfl := Option.some.inj (hn.symm.trans hm)
        exact h

namespace Walk

variable {defs : Definitions} {policy : Policy} {es : Dict Json}

theorem diagnostics_all {α : Type} {ws : List (Walked α)} :
    (Walked.all ws).diagnostics = [] ↔ ∀ w ∈ ws, w.diagnostics = [] := by
  simp [Walked.all]

theorem diagnostics_under {α : Type} {s : Step} {w : Walked α} :
    (w.under s).diagnostics = [] ↔ w.diagnostics = [] := by
  simp [Walked.under]

theorem diagnostics_assemble {ws : List (Walked Written)} :
    (assemble ws).diagnostics = [] ↔ ∀ w ∈ ws, w.diagnostics = [] :=
  diagnostics_all

theorem diagnostics_field {f : Field Node} :
    (field (es.mapValues (value defs policy)) f).diagnostics = [] ↔
      (∀ v, es.get? f.name = some v → (value defs policy v f.node.kind).diagnostics = []) ∧
        (es.get? f.name = none → f.node.Omissible) := by
  rw [field, Dict.get?_mapValues]
  cases es.get? f.name with
  | some v => simp [Walked.map, diagnostics_under]
  | none =>
    cases hd : f.node.default with
    | some d => simp [Walked.accept, Node.Omissible, hd]
    | none =>
      by_cases hr : f.node.required = true
      · simp [hr, Walked.report, Node.Omissible, hd]
      · simp [hr, Walked.accept, Node.Omissible]

theorem diagnostics_undeclared {known : String → Bool} :
    (undeclared policy known es).diagnostics = [] ↔
      (policy = .reject → ∀ key ∈ es.keys, known key = true) := by
  cases policy with
  | reject => simp [undeclared, Dict.keys]
  | _ => simp [undeclared, Walked.accept]

theorem tagOf?_eq_some {u : TaggedUnion Node} {t : String} :
    tagOf? u es = some t ↔ es.get? u.tag = some (.str t) ∧ t ∈ u.tags.members := by
  rw [tagOf?]
  cases es.get? u.tag with
  | none => simp
  | some v =>
    cases v with
    | str s =>
      by_cases hs : s ∈ u.tags.members
      · simp only [Enumeration.isMember, List.contains_iff_mem, hs, if_true, Option.some.injEq,
          Json.str.injEq]
        exact ⟨fun h => ⟨h, h ▸ hs⟩, fun h => h.1⟩
      · simp only [Enumeration.isMember, List.contains_iff_mem, hs, if_false, Option.some.injEq,
          Json.str.injEq, reduceCtorEq, false_iff]
        rintro ⟨rfl, ht⟩
        exact hs ht
    | _ => simp

theorem selected?_eq_some {u : TaggedUnion Node} (hu : u.Lawful) {c : Variant Node}
    (hc : c ∈ u.variants) (ht : tagOf? u es = some c.tag) : selected? u es = some c := by
  rw [selected?, ht, Option.bind_some, hu.variantFor?_eq_some hc]

theorem exists_selected {u : TaggedUnion Node} (hu : u.Lawful) {t : String}
    (ht : tagOf? u es = some t) : ∃ c ∈ u.variants, c.tag = t ∧ selected? u es = some c := by
  obtain ⟨_, hmem⟩ := tagOf?_eq_some.mp ht
  obtain ⟨c, hc, rfl⟩ := List.mem_map.mp ((hu.tags_exact t).mpr hmem)
  exact ⟨c, hc, rfl, selected?_eq_some hu hc ht⟩

theorem diagnostics_tag {u : TaggedUnion Node} :
    (tag u es).diagnostics = [] ↔ ∃ t, tagOf? u es = some t := by
  rcases tag_cases u es with ⟨t, ht, he⟩ | ⟨ht, cause, he⟩
  · simp [he, ht, Walked.accept]
  · simp [he, ht, Walked.report]

theorem diagnostics_payloads {u : TaggedUnion Node} {c : Variant Node} :
    (∀ w ∈ payloads u (es.mapValues (value defs policy)) c, w.diagnostics = []) ↔
      (field (es.mapValues (value defs policy)) c.payload).diagnostics = [] ∧
        ∀ other ∈ u.variants, other.tag ≠ c.tag → es.get? other.payload.name = none := by
  simp only [payloads, List.forall_mem_cons, List.forall_mem_map, List.mem_filter, Walked.report,
    Dict.contains, Dict.get?_mapValues, Option.isSome_map, Bool.and_eq_true, decide_eq_true_eq]
  refine and_congr_right fun _ => forall_congr' fun other => ?_
  cases es.get? other.payload.name <;> simp

/-- The keys of an object are those that a kind allows. -/
def Shaped (policy : Policy) (es : Dict Json) (k : Kind Node) : Prop :=
  (∀ u, k = .oneOf u → ∃ t, tagOf? u es = some t ∧
    ∀ c ∈ u.variants, c.tag ≠ t → es.get? c.payload.name = none) ∧
  (policy = .reject → ∀ key ∈ es.keys, key ∈ k.names)

theorem diagnostics_object {s : Schema} :
    (object policy s es (es.mapValues (value defs policy))).diagnostics = [] ↔
      (∀ f ∈ fieldsOn es (.object s),
        (field (es.mapValues (value defs policy)) f).diagnostics = []) ∧
        Shaped policy es (.object s) := by
  simp only [object, diagnostics_assemble, List.forall_mem_append, List.forall_mem_map,
    List.forall_mem_singleton, diagnostics_undeclared, Shape.contains_iff]
  simp [Shaped, fieldsOn, Kind.names]

theorem diagnostics_union {u : TaggedUnion Node} (hu : u.Lawful) :
    (union policy u es (es.mapValues (value defs policy))).diagnostics = [] ↔
      (∀ f ∈ fieldsOn es (.oneOf u),
        (field (es.mapValues (value defs policy)) f).diagnostics = []) ∧
        Shaped policy es (.oneOf u) := by
  simp only [union, diagnostics_assemble, List.forall_mem_append, List.forall_mem_map,
    List.forall_mem_singleton, diagnostics_undeclared, TaggedUnion.knows_iff, diagnostics_tag,
    fieldsOn]
  constructor
  · rintro ⟨⟨⟨hcommon, t, ht⟩, hpayloads⟩, hkeys⟩
    obtain ⟨c, hc, rfl, hsel⟩ := exists_selected hu ht
    rw [← selected?, hsel, Option.map_some, Option.getD_some] at hpayloads
    obtain ⟨hpayload, hothers⟩ := diagnostics_payloads.mp hpayloads
    refine ⟨⟨hcommon, ?_⟩, ?_, hkeys⟩
    · simpa [hsel] using hpayload
    · rintro _ ⟨⟩
      exact ⟨c.tag, ht, hothers⟩
  · rintro ⟨⟨hcommon, hpayload⟩, htag, hkeys⟩
    obtain ⟨t, ht, hothers⟩ := htag u rfl
    obtain ⟨c, hc, rfl, hsel⟩ := exists_selected hu ht
    refine ⟨⟨⟨hcommon, c.tag, ht⟩, ?_⟩, hkeys⟩
    rw [← selected?, hsel, Option.map_some, Option.getD_some]
    refine diagnostics_payloads.mpr ⟨?_, hothers⟩
    simpa [hsel] using hpayload

theorem diagnostics_record {k : Kind Node} (hk : k.Record) :
    (value defs policy (.obj es) k).diagnostics = [] ↔
      (∀ f ∈ fieldsOn es k, (field (es.mapValues (value defs policy)) f).diagnostics = []) ∧
        Shaped policy es k := by
  cases hk with
  | object _ =>
    rw [value_of_target?_eq_none rfl]
    exact diagnostics_object
  | oneOf hu =>
    rw [value_of_target?_eq_none rfl]
    exact diagnostics_union hu

theorem diagnostics_array {vs : List Json} {items : Node} {nonEmpty : Bool} :
    (value defs policy (.arr vs) (.array items nonEmpty)).diagnostics = [] ↔
      (∀ v ∈ vs, (value defs policy v items.kind).diagnostics = []) ∧
        (nonEmpty = true → vs ≠ []) := by
  have hitems : (Walked.all (itemWalks defs policy items vs)).diagnostics = [] ↔
      ∀ v ∈ vs, (value defs policy v items.kind).diagnostics = [] := by
    simp only [diagnostics_all, mem_itemWalks]
    constructor
    · intro h v hv
      obtain ⟨i, hi⟩ := List.mem_iff_getElem?.mp hv
      exact diagnostics_under.mp (h _ ⟨i, v, hi, rfl⟩)
    · rintro h w ⟨i, v, hi, rfl⟩
      exact diagnostics_under.mpr (h v (List.mem_of_getElem? hi))
  rw [value_of_target?_eq_none rfl]
  simp only [answer, Json.elements, array_eq]
  by_cases he : nonEmpty = true ∧ vs = []
  · simp [he]
  · have hne : (nonEmpty && vs.isEmpty) = false := by simpa using he
    simp only [hne, Walked.map, hitems, Bool.false_eq_true, if_false]
    exact ⟨fun h => ⟨h, fun hn hv => he ⟨hn, hv⟩⟩, fun h => h.1⟩

section Agreement

variable {v : Json} {k : Kind Node}

/-- The walk finds nothing in a value exactly when the value conforms. -/
def Agrees (defs : Definitions) (policy : Policy) (v : Json) (k : Kind Node) : Prop :=
  (value defs policy v k).diagnostics = [] ↔ Conforms defs policy v k

theorem diagnostics_fields (hparts : ∀ w l, Descends (.obj es) k w l → Agrees defs policy w l) :
    (∀ f ∈ fieldsOn es k, (field (es.mapValues (value defs policy)) f).diagnostics = []) ↔
      (∀ f ∈ fieldsOn es k, ∀ v, es.get? f.name = some v → Conforms defs policy v f.node.kind) ∧
        ∀ f ∈ fieldsOn es k, es.get? f.name = none → f.node.Omissible := by
  simp only [diagnostics_field, forall_and]
  refine and_congr_left fun _ => forall_congr' fun f => forall_congr' fun hf => ?_
  exact forall_congr' fun w => forall_congr' fun hw => hparts w _ (.field hf hw)

theorem record_agrees (hk : k.Record)
    (hparts : ∀ w l, Descends (.obj es) k w l → Agrees defs policy w l) :
    Agrees defs policy (.obj es) k := by
  rw [Agrees, diagnostics_record hk, diagnostics_fields hparts]
  cases hk with
  | @object s _ =>
    constructor
    · rintro ⟨⟨hpresent, habsent⟩, _, hkeys⟩
      exact .object hpresent habsent hkeys
    · intro h
      cases h with
      | object hpresent habsent hkeys => exact ⟨⟨hpresent, habsent⟩, (fun _ he => by cases he), hkeys⟩
  | @oneOf u hu =>
    have hfields : ∀ {c}, selected? u es = some c →
        fieldsOn es (.oneOf u) = u.common.fields ++ [c.payload] := by
      intro c hsel
      simp [fieldsOn, hsel]
    constructor
    · rintro ⟨⟨hpresent, habsent⟩, htag, hkeys⟩
      obtain ⟨t, ht, hothers⟩ := htag u rfl
      obtain ⟨c, hc, rfl, hsel⟩ := exists_selected hu ht
      rw [hfields hsel] at hpresent habsent
      obtain ⟨hget, hmem⟩ := tagOf?_eq_some.mp ht
      exact .oneOf hc hmem hget hpresent habsent hothers hkeys
    · intro h
      cases h with
      | @oneOf _ _ c hc hmem hget hpresent habsent hothers hkeys =>
        have ht := tagOf?_eq_some.mpr ⟨hget, hmem⟩
        rw [hfields (selected?_eq_some hu hc ht)]
        refine ⟨⟨hpresent, habsent⟩, ?_, hkeys⟩
        rintro _ ⟨⟩
        exact ⟨c.tag, ht, hothers⟩

theorem array_agrees {vs : List Json} {items : Node} {nonEmpty : Bool}
    (hparts : ∀ w l, Descends (.arr vs) (.array items nonEmpty) w l → Agrees defs policy w l) :
    Agrees defs policy (.arr vs) (.array items nonEmpty) := by
  rw [Agrees, diagnostics_array]
  constructor
  · rintro ⟨hitems, hne⟩
    exact .array (fun w hw => (hparts w _ (.item hw)).mp (hitems w hw)) hne
  · intro h
    cases h with
    | array hitems hne => exact ⟨fun w hw => (hparts w _ (.item hw)).mpr (hitems w hw), hne⟩

theorem string_agrees {s : String} {nonEmpty : Bool} :
    Agrees defs policy (.str s) (.string nonEmpty) := by
  have hblank : (nonEmpty && Text.allBlank s) = false ↔
      (nonEmpty = true → ∃ c ∈ s.toList, Text.isBlank c = false) := by
    cases nonEmpty <;> simp [Text.allBlank]
  rw [Agrees, value_of_target?_eq_none rfl]
  constructor
  · intro h
    refine .string (hblank.mp (Bool.eq_false_iff.mpr fun hb => ?_))
    simp [answer, hb, Walked.report] at h
  · intro h
    cases h with
    | string hs => simp [answer, hblank.mpr hs, Walked.accept]

theorem enumeration_agrees {s : String} {e : Enumeration} :
    Agrees defs policy (.str s) (.enumeration e) := by
  have hmem : e.isMember s = true ↔ s ∈ e.members := by simp [Enumeration.isMember]
  rw [Agrees, value_of_target?_eq_none rfl]
  constructor
  · intro h
    refine .enumeration (hmem.mp (Classical.byContradiction fun hs => ?_))
    simp [answer, hs, Walked.report] at h
  · intro h
    cases h with
    | enumeration hs => simp [answer, hmem.mpr hs, Walked.accept]

/-- Whatever the kind, the walk is right about a value when it is about the places below it. -/
theorem agrees_of_parts (hk : k.target? = none) (hobject : ∀ s, k = .object s → s.names.Nodup)
    (hunion : ∀ u, k = .oneOf u → u.Lawful)
    (hparts : ∀ w l, Descends v k w l → Agrees defs policy w l) : Agrees defs policy v k := by
  have hanswer : value defs policy v k = answer policy v (v.elements.map (value defs policy))
      (v.entries.mapValues (value defs policy)) k := value_of_target?_eq_none hk
  have hrefused : ∀ c, answer policy v (v.elements.map (value defs policy))
      (v.entries.mapValues (value defs policy)) k = .report v [] c →
      ¬ Conforms defs policy v k → Agrees defs policy v k := by
    intro c hreport hnot
    refine iff_of_false ?_ hnot
    rw [hanswer, hreport]
    simp [Walked.report]
  cases k with
  | object s =>
    cases v with
    | obj es => exact record_agrees (.object (hobject s rfl)) hparts
    | _ => exact hrefused _ rfl fun h => by cases h
  | oneOf u =>
    cases v with
    | obj es => exact record_agrees (.oneOf (hunion u rfl)) hparts
    | _ => exact hrefused _ rfl fun h => by cases h
  | array items nonEmpty =>
    cases v with
    | arr vs => exact array_agrees hparts
    | _ => exact hrefused _ rfl fun h => by cases h
  | string nonEmpty =>
    cases v with
    | str s => exact string_agrees
    | _ => exact hrefused _ rfl fun h => by cases h
  | enumeration e =>
    cases v with
    | str s => exact enumeration_agrees
    | _ => exact hrefused _ rfl fun h => by cases h
  | boolean =>
    cases v with
    | bool b => exact iff_of_true (hanswer ▸ rfl) .boolean
    | _ => exact hrefused _ rfl fun h => by cases h
  | number =>
    cases v with
    | num n => exact iff_of_true (hanswer ▸ rfl) .number
    | _ => exact hrefused _ rfl fun h => by cases h
  | any =>
    rw [Agrees, value_of_target?_eq_none rfl]
    cases v <;> exact iff_of_true rfl .any
  | reference t => simp [Kind.target?] at hk

end Agreement

end Walk

theorem SchemaGraph.WellFormed.agrees {defs : Definitions} {root : Schema} {path : String}
    {n : Node} (h : WellFormed defs root) (hn : Sited defs root path n) (policy : Policy)
    (v : Json) : Walk.Agrees defs policy v n.kind := by
  refine h.walk_induction (P := Walk.Agrees defs policy) ?_ ?_ hn v
  · intro v k l hr hl
    rwa [Walk.Agrees, Walk.value_eq_of_resolve hr,
      conforms_iff_of_forwards (Definitions.follow_eq_kind hr).1]
  · intro v path m hm ht hbelow
    exact Walk.agrees_of_parts ht (fun s hs => h.fields_distinct _ m s hm hs)
      (fun u hu => h.unions_lawful _ m u hm hu) hbelow

namespace Collection

variable {c : Collection} {policy : Policy} {raw : Json}

theorem validate_eq_ok_iff {d : Document} : c.validate policy raw = .ok d ↔
    (c.walk policy raw).diagnostics = [] ∧ d = ⟨c.name, (c.walk policy raw).result.entries⟩ := by
  rw [validate]
  cases (c.walk policy raw).diagnostics with
  | nil => simp [eq_comm]
  | cons e es => simp

theorem wellFormed (c : Collection) : SchemaGraph.WellFormed c.definitions c.schema :=
  Check.wellFormed_of_graph_ok c.checked

/-- A collection accepts exactly the documents that conform to its schema. -/
theorem validate_ok_iff_conforms (c : Collection) (policy : Policy) (raw : Json) :
    (∃ d, c.validate policy raw = .ok d) ↔
      Conforms c.definitions policy raw (.object c.schema) := by
  have hagrees : Walk.Agrees c.definitions policy raw (.object c.schema) :=
    c.wellFormed.agrees .root policy raw
  refine Iff.trans ?_ hagrees
  simp only [validate_eq_ok_iff, exists_and_left, exists_eq, and_true]
  rfl

end Collection

end SiteContent
