import SiteContent.Proofs.Strays

/-! What is wrong with the value at one place, said of the value and the kind it is held against and
not of the walk. A validation reports the faults of the raw document's places, and nothing else. -/

namespace SiteContent

open Walk

/-- A value that is held against a kind has a fault, in itself or at one of its keys. -/
inductive Fault (policy : Policy) : Json → Kind Node → Location → Cause → Prop
  | mismatch {v : Json} {k : Kind Node} :
      k ≠ .any → k.target? = none → v.typeName ≠ k.expected →
      Fault policy v k [] (.typeMismatch k.expected v.typeName)
  | foreign {s : String} {e : Enumeration} :
      s ∉ e.members →
      Fault policy (.str s) (.enumeration e) [] (.invalidEnumValue e.members s)
  | blank {s : String} :
      (∀ c ∈ s.toList, Text.isBlank c = true) → Fault policy (.str s) (.string true) [] .emptyField
  | noElements {items : Node} : Fault policy (.arr []) (.array items true) [] .emptyField
  | missing {es : Dict Json} {k : Kind Node} {f : Field Node} :
      f ∈ fieldsOn es k → es.get? f.name = none → f.node.required = true →
      f.node.default = none → Fault policy (.obj es) k [.key f.name] .missingField
  | untagged {es : Dict Json} {u : TaggedUnion Node} :
      es.get? u.tag = none → Fault policy (.obj es) (.oneOf u) [.key u.tag] .missingField
  | forbidden {es : Dict Json} {u : TaggedUnion Node} {c other : Variant Node} {v : Json} :
      c ∈ u.variants → es.get? u.tag = some (.str c.tag) → selected? u es = some c →
      other ∈ u.variants → other.tag ≠ c.tag → es.get? other.payload.name = some v →
      Fault policy (.obj es) (.oneOf u) [.key other.payload.name] (.forbiddenField u.tag c.tag)
  | undeclared {es : Dict Json} {k : Kind Node} {key : String} {v : Json} :
      policy = .reject → k.isKeyed = true → key ∉ k.names → es.get? key = some v →
      Fault policy (.obj es) k [.key key] .unknownField

namespace Walk

variable {defs : Definitions} {policy : Policy} {v w : Json} {k l : Kind Node} {es : Dict Json}
  {s : Step} {p : Location} {d : Diagnostic}

theorem diagnostics_any : (value defs policy v .any).diagnostics = [] := by
  rw [value_of_target?_eq_none rfl]
  cases v <;> rfl

/-- A tag that is present is walked like an enumeration of the tags. -/
theorem diagnostics_tag_eq (defs : Definitions) (policy : Policy) {u : TaggedUnion Node}
    (h : es.get? u.tag = some v) :
    (tag u es).diagnostics =
      (value defs policy v (.enumeration u.tags)).diagnostics.map (·.under (.key u.tag)) := by
  rw [tag, h, value_of_target?_eq_none rfl]
  cases v with
  | str t =>
    simp only [answer]
    split <;> rfl
  | _ => rfl

theorem mem_diagnostics_field {f : Field Node} :
    d ∈ (field (es.mapValues (value defs policy)) f).diagnostics ↔
      (∃ w e, es.get? f.name = some w ∧ e ∈ (value defs policy w f.node.kind).diagnostics ∧
        e.under (.key f.name) = d) ∨
      es.get? f.name = none ∧ f.node.required = true ∧ f.node.default = none ∧
        d = ⟨[.key f.name], .missingField⟩ := by
  rw [field, Dict.get?_mapValues]
  cases es.get? f.name with
  | some w => simp [Walked.map, Walked.under]
  | none =>
    cases f.node.default with
    | some v => simp [Walked.accept]
    | none => by_cases hr : f.node.required = true <;> simp [hr, Walked.accept, Walked.report]

theorem mem_diagnostics_undeclared {known : String → Bool} :
    d ∈ (undeclared policy known es).diagnostics ↔
      policy = .reject ∧ ∃ key v, es.get? key = some v ∧ known key = false ∧
        d = ⟨[.key key], .unknownField⟩ := by
  cases policy with
  | reject =>
    simp only [undeclared, List.mem_map, List.mem_filter, true_and]
    constructor
    · rintro ⟨⟨key, v⟩, ⟨he, hkey⟩, rfl⟩
      obtain ⟨w, hw⟩ := Option.isSome_iff_exists.mp (Dict.isSome_get?_of_mem he)
      exact ⟨key, w, hw, by simpa using hkey, rfl⟩
    · rintro ⟨key, v, hv, hkey, rfl⟩
      exact ⟨(key, v), ⟨Dict.mem_of_get?_eq_some hv, by simpa using hkey⟩, rfl⟩
  | _ => simp [undeclared, Walked.accept]

theorem mem_diagnostics_assemble {ws : List (Walked Written)} :
    d ∈ (assemble ws).diagnostics ↔ ∃ w ∈ ws, d ∈ w.diagnostics :=
  List.mem_flatMap

theorem selected?_spec {u : TaggedUnion Node} {c : Variant Node} (h : selected? u es = some c) :
    c ∈ u.variants ∧ es.get? u.tag = some (.str c.tag) := by
  obtain ⟨t, ht, hc⟩ := Option.bind_eq_some_iff.mp h
  obtain rfl : c.tag = t := by simpa using List.find?_some hc
  exact ⟨List.mem_of_find?_eq_some hc, (tagOf?_eq_some.mp ht).1⟩

theorem mem_diagnostics_object {s : Schema} :
    d ∈ (value defs policy (.obj es) (.object s)).diagnostics ↔
      (∃ f ∈ s.fields, d ∈ (field (es.mapValues (value defs policy)) f).diagnostics) ∨
        d ∈ (undeclared policy s.contains es).diagnostics := by
  rw [value_of_target?_eq_none rfl]
  simp only [answer, object, Json.entries, mem_diagnostics_assemble, List.mem_append, List.mem_map,
    List.mem_singleton, or_and_right, exists_or, exists_eq_left, exists_exists_and_eq_and]

theorem mem_diagnostics_payloads {u : TaggedUnion Node} {c : Variant Node} :
    (∃ w ∈ payloads u (es.mapValues (value defs policy)) c, d ∈ w.diagnostics) ↔
      d ∈ (field (es.mapValues (value defs policy)) c.payload).diagnostics ∨
        ∃ other ∈ u.variants, other.tag ≠ c.tag ∧ (es.get? other.payload.name).isSome ∧
          d = ⟨[.key other.payload.name], .forbiddenField u.tag c.tag⟩ := by
  simp only [payloads, List.mem_cons, List.mem_map, List.mem_filter, or_and_right, exists_or,
    exists_eq_left, exists_exists_and_eq_and, contains_mapValues, Bool.and_eq_true,
    decide_eq_true_eq]
  simp only [Dict.contains, Walked.report, List.mem_singleton, and_assoc]

theorem mem_diagnostics_union {u : TaggedUnion Node} :
    d ∈ (value defs policy (.obj es) (.oneOf u)).diagnostics ↔
      (∃ f ∈ fieldsOn es (.oneOf u),
        d ∈ (field (es.mapValues (value defs policy)) f).diagnostics) ∨
      d ∈ (tag u es).diagnostics ∨
      (∃ c, selected? u es = some c ∧ ∃ other ∈ u.variants, other.tag ≠ c.tag ∧
        (es.get? other.payload.name).isSome ∧
          d = ⟨[.key other.payload.name], .forbiddenField u.tag c.tag⟩) ∨
      d ∈ (undeclared policy u.knows es).diagnostics := by
  rw [value_of_target?_eq_none rfl]
  simp only [answer, union, Json.entries, mem_diagnostics_assemble, List.mem_append, List.mem_map,
    List.mem_singleton, or_and_right, exists_or, exists_eq_left, exists_exists_and_eq_and]
  rw [← selected?]
  cases hc : selected? u es with
  | none => simp [fieldsOn, hc, or_assoc]
  | some c =>
    simp only [Option.map_some, Option.getD_some, mem_diagnostics_payloads, fieldsOn, hc,
      Option.toList_some, List.map_singleton, List.mem_append, List.mem_singleton, or_and_right,
      exists_or, exists_eq_left, Option.some.injEq, exists_eq_left']
    exact iff_of_eq (by ac_rfl)

theorem mem_diagnostics_array {vs : List Json} {items : Node} {nonEmpty : Bool} :
    d ∈ (value defs policy (.arr vs) (.array items nonEmpty)).diagnostics ↔
      (nonEmpty = true ∧ vs = [] ∧ d = ⟨[], .emptyField⟩) ∨
      ∃ i w e, vs[i]? = some w ∧ e ∈ (value defs policy w items.kind).diagnostics ∧
        e.under (.index i) = d := by
  have hitems : d ∈ (Walked.all (itemWalks defs policy items vs)).diagnostics ↔
      ∃ i w e, vs[i]? = some w ∧ e ∈ (value defs policy w items.kind).diagnostics ∧
        e.under (.index i) = d := by
    simp only [Walked.all, List.mem_flatMap, mem_itemWalks]
    constructor
    · rintro ⟨x, ⟨i, w, hw, rfl⟩, hd⟩
      obtain ⟨e, he, rfl⟩ := List.mem_map.mp hd
      exact ⟨i, w, e, hw, he, rfl⟩
    · rintro ⟨i, w, e, hw, he, rfl⟩
      exact ⟨_, ⟨i, w, hw, rfl⟩, List.mem_map.mpr ⟨e, he, rfl⟩⟩
  rw [value_of_target?_eq_none rfl]
  simp only [answer, Json.elements, array_eq]
  by_cases he : nonEmpty = true ∧ vs = []
  · obtain ⟨rfl, rfl⟩ := he
    simp [itemWalks, Walked.all, Walked.map]
  · have hne : (nonEmpty && vs.isEmpty) = false := by simpa using he
    simp only [hne, Bool.false_eq_true, if_false, ← hitems, Walked.map]
    refine ⟨.inr, ?_⟩
    rintro (⟨h, h', _⟩ | h)
    · exact absurd ⟨h, h'⟩ he
    · exact h

theorem mem_diagnostics_of_field {f : Field Node} (hf : f ∈ fieldsOn es k)
    (hd : d ∈ (field (es.mapValues (value defs policy)) f).diagnostics) :
    d ∈ (value defs policy (.obj es) k).diagnostics := by
  cases k with
  | object s => exact mem_diagnostics_object.mpr (.inl ⟨f, hf, hd⟩)
  | oneOf u => exact mem_diagnostics_union.mpr (.inl ⟨f, hf, hd⟩)
  | _ => simp [fieldsOn] at hf

theorem mem_diagnostics_of_undeclared {key : String} (hp : policy = .reject)
    (hk : k.isKeyed = true) (hkey : key ∉ k.names) (hv : es.get? key = some v) :
    (⟨[.key key], .unknownField⟩ : Diagnostic) ∈ (value defs policy (.obj es) k).diagnostics := by
  have hmem : ∀ known : String → Bool, known key = false →
      (⟨[.key key], .unknownField⟩ : Diagnostic) ∈ (undeclared policy known es).diagnostics :=
    fun known h => mem_diagnostics_undeclared.mpr ⟨hp, key, v, hv, h, rfl⟩
  cases k with
  | object s =>
    refine mem_diagnostics_object.mpr (.inr (hmem _ ?_))
    exact Bool.eq_false_iff.mpr fun hc => hkey (Shape.contains_iff.mp hc)
  | oneOf u =>
    refine mem_diagnostics_union.mpr (.inr (.inr (.inr (hmem _ ?_))))
    exact Bool.eq_false_iff.mpr fun hc => hkey (TaggedUnion.knows_iff.mp hc)
  | _ => simp [Kind.isKeyed] at hk

theorem answer_of_typeName_ne (hany : k ≠ .any) (hk : k.target? = none)
    (hne : v.typeName ≠ k.expected) (elements : List Walker) (members : Dict Walker) :
    answer policy v elements members k = .report v [] (mismatch v k.expected) := by
  cases k with
  | any => exact absurd rfl hany
  | reference t => simp [Kind.target?] at hk
  | boolean =>
    cases v with
    | bool _ => exact absurd rfl hne
    | _ => rfl
  | number =>
    cases v with
    | num _ => exact absurd rfl hne
    | _ => rfl
  | array _ _ =>
    cases v with
    | arr _ => exact absurd rfl hne
    | _ => rfl
  | object _ | oneOf _ =>
    cases v with
    | obj _ => exact absurd rfl hne
    | _ => rfl
  | string _ | enumeration _ =>
    cases v with
    | str _ => exact absurd rfl hne
    | _ => rfl

/-- What is reported inside a part is reported, a step further down. -/
theorem Inside.mem_diagnostics (hi : Inside v k s w l)
    (hd : d ∈ (value defs policy w l).diagnostics) :
    d.under s ∈ (value defs policy v k).diagnostics := by
  cases hi with
  | field hf hv =>
    exact mem_diagnostics_of_field hf (mem_diagnostics_field.mpr (.inl ⟨w, d, hv, hd, rfl⟩))
  | tag hv =>
    refine mem_diagnostics_union.mpr (.inr (.inl ?_))
    rw [diagnostics_tag_eq defs policy hv]
    exact List.mem_map.mpr ⟨d, hd, rfl⟩
  | item hv => exact mem_diagnostics_array.mpr (.inr ⟨_, w, d, hv, hd, rfl⟩)
  | entry _ => simp [diagnostics_any] at hd
  | element _ => simp [diagnostics_any] at hd

end Walk

variable {defs : Definitions} {policy : Policy} {v w : Json} {k l : Kind Node} {es : Dict Json}
  {p : Location} {cause : Cause} {d : Diagnostic}

theorem Fault.mem_diagnostics (h : Fault policy v k p cause) :
    (⟨p, cause⟩ : Diagnostic) ∈ (value defs policy v k).diagnostics := by
  cases h with
  | mismatch hany hk hne =>
    rw [value_of_target?_eq_none hk, answer_of_typeName_ne hany hk hne]
    exact List.mem_singleton_self _
  | foreign hs =>
    rw [value_of_target?_eq_none rfl]
    simp [answer, Enumeration.isMember, hs, Walked.report]
  | blank hs =>
    have hblank : Text.allBlank _ = true := List.all_eq_true.mpr hs
    rw [value_of_target?_eq_none rfl]
    simp [answer, hblank, Walked.report]
  | noElements => exact mem_diagnostics_array.mpr (.inl ⟨rfl, rfl, rfl⟩)
  | missing hf hg hr hd =>
    exact mem_diagnostics_of_field hf (mem_diagnostics_field.mpr (.inr ⟨hg, hr, hd, rfl⟩))
  | untagged hg =>
    refine mem_diagnostics_union.mpr (.inr (.inl ?_))
    rw [tag, hg]
    exact List.mem_singleton_self _
  | forbidden _ _ hsel hother hne hv =>
    exact mem_diagnostics_union.mpr
      (.inr (.inr (.inl ⟨_, hsel, _, hother, hne, Option.isSome_of_mem hv, rfl⟩)))
  | undeclared hp hk hkey hv => exact mem_diagnostics_of_undeclared hp hk hkey hv

/-- A diagnostic of a value is about the value itself, or about a part of it. -/
def Traced (defs : Definitions) (policy : Policy) (v : Json) (k : Kind Node) (d : Diagnostic) :
    Prop :=
  Fault policy v k d.location d.cause ∨
    ∃ s w l e, Inside v k s w l ∧ e ∈ (value defs policy w l).diagnostics ∧ e.under s = d

theorem traced_of_mem_field {f : Field Node} (hf : f ∈ fieldsOn es k)
    (hd : d ∈ (field (es.mapValues (value defs policy)) f).diagnostics) :
    Traced defs policy (.obj es) k d := by
  rcases mem_diagnostics_field.mp hd with ⟨w, e, hw, he, rfl⟩ | ⟨hg, hr, hn, rfl⟩
  · exact .inr ⟨_, w, _, e, .field hf hw, he, rfl⟩
  · exact .inl (.missing hf hg hr hn)

theorem traced_of_mem_undeclared {known : String → Bool} (hk : k.isKeyed = true)
    (hknown : ∀ key, known key = false → key ∉ k.names)
    (hd : d ∈ (undeclared policy known es).diagnostics) : Traced defs policy (.obj es) k d := by
  obtain ⟨hp, key, w, hw, hkey, rfl⟩ := mem_diagnostics_undeclared.mp hd
  exact .inl (.undeclared hp hk (hknown key hkey) hw)

theorem traced_of_mem_tag {u : TaggedUnion Node} (hd : d ∈ (tag u es).diagnostics) :
    Traced defs policy (.obj es) (.oneOf u) d := by
  cases hg : es.get? u.tag with
  | none =>
    rw [tag, hg] at hd
    obtain rfl := List.mem_singleton.mp hd
    exact .inl (.untagged hg)
  | some w =>
    rw [diagnostics_tag_eq defs policy hg] at hd
    obtain ⟨e, he, rfl⟩ := List.mem_map.mp hd
    exact .inr ⟨_, w, _, e, .tag hg, he, rfl⟩

theorem traced_object {s : Schema}
    (hd : d ∈ (value defs policy (.obj es) (.object s)).diagnostics) :
    Traced defs policy (.obj es) (.object s) d := by
  rcases mem_diagnostics_object.mp hd with ⟨f, hf, hd⟩ | hd
  · exact traced_of_mem_field hf hd
  · have hknown : ∀ key, s.contains key = false → key ∉ s.names :=
      fun key hkey hmem => Bool.eq_false_iff.mp hkey (Shape.contains_iff.mpr hmem)
    exact traced_of_mem_undeclared rfl hknown hd

theorem traced_union {u : TaggedUnion Node}
    (hd : d ∈ (value defs policy (.obj es) (.oneOf u)).diagnostics) :
    Traced defs policy (.obj es) (.oneOf u) d := by
  rcases mem_diagnostics_union.mp hd with ⟨f, hf, hd⟩ | hd | ⟨c, hsel, other, ho, hne, hv, rfl⟩ | hd
  · exact traced_of_mem_field hf hd
  · exact traced_of_mem_tag hd
  · obtain ⟨w, hw⟩ := Option.isSome_iff_exists.mp hv
    obtain ⟨hc, htag⟩ := selected?_spec hsel
    exact .inl (.forbidden hc htag hsel ho hne hw)
  · have hknown : ∀ key, u.knows key = false → key ∉ u.allNames :=
      fun key hkey hmem => Bool.eq_false_iff.mp hkey (TaggedUnion.knows_iff.mpr hmem)
    exact traced_of_mem_undeclared rfl hknown hd

theorem traced_of_mem_diagnostics (hk : k.target? = none)
    (hd : d ∈ (value defs policy v k).diagnostics) : Traced defs policy v k d := by
  by_cases hany : k = .any
  · rw [hany, diagnostics_any] at hd
    cases hd
  by_cases htype : v.typeName = k.expected
  case neg =>
    rw [value_of_target?_eq_none hk, answer_of_typeName_ne hany hk htype] at hd
    obtain rfl := List.mem_singleton.mp hd
    exact .inl (.mismatch hany hk htype)
  -- From here on the value is of the type that the kind asks for.
  cases k with
  | any => exact absurd rfl hany
  | reference t => simp [Kind.target?] at hk
  | object s =>
    cases v with
    | obj es => exact traced_object hd
    | _ => simp [Json.typeName, Kind.expected] at htype
  | oneOf u =>
    cases v with
    | obj es => exact traced_union hd
    | _ => simp [Json.typeName, Kind.expected] at htype
  | array items nonEmpty =>
    cases v with
    | arr vs =>
      rcases mem_diagnostics_array.mp hd with ⟨rfl, rfl, rfl⟩ | ⟨i, w, e, hw, he, rfl⟩
      · exact .inl .noElements
      · exact .inr ⟨_, w, _, e, .item hw, he, rfl⟩
    | _ => simp [Json.typeName, Kind.expected] at htype
  | string nonEmpty =>
    cases v with
    | str s =>
      rw [value_of_target?_eq_none rfl] at hd
      simp only [answer] at hd
      split at hd
      · rename_i hblank
        obtain rfl := List.mem_singleton.mp hd
        obtain ⟨rfl, hs⟩ := Bool.and_eq_true_iff.mp hblank
        exact .inl (.blank (List.all_eq_true.mp hs))
      · cases hd
    | _ => simp [Json.typeName, Kind.expected] at htype
  | enumeration e =>
    cases v with
    | str s =>
      rw [value_of_target?_eq_none rfl] at hd
      simp only [answer] at hd
      split at hd
      · cases hd
      · rename_i hs
        obtain rfl := List.mem_singleton.mp hd
        exact .inl (.foreign (by simpa [Enumeration.isMember] using hs))
    | _ => simp [Json.typeName, Kind.expected] at htype
  | boolean =>
    cases v with
    | bool b =>
      rw [value_of_target?_eq_none rfl] at hd
      cases hd
    | _ => simp [Json.typeName, Kind.expected] at htype
  | number =>
    cases v with
    | num n =>
      rw [value_of_target?_eq_none rfl] at hd
      cases hd
    | _ => simp [Json.typeName, Kind.expected] at htype

theorem Walk.Inside.mem_parts {s : Step} (hi : Inside v k s w l) : w ∈ v.parts := by
  cases hi with
  | field _ hv => exact Json.mem_parts_of_get? hv
  | tag hv => exact Json.mem_parts_of_get? hv
  | item hv => exact Json.mem_parts_of_mem (List.mem_of_getElem? hv)
  | entry hv => exact Json.mem_parts_of_get? hv
  | element hv => exact Json.mem_parts_of_mem (List.mem_of_getElem? hv)

theorem Walk.Located.of_forwards {m : Kind Node} (hl : Located defs v l p w m)
    (hf : Relation.ReflTransGen defs.Forwards k l) : Located defs v k p w m := by
  induction hf using Relation.ReflTransGen.head_induction_on with
  | refl => exact hl
  | head hs _ ih => exact .forward hs ih

theorem exists_fault_of_mem_diagnostics (hd : d ∈ (value defs policy v k).diagnostics) :
    ∃ q r w l, d.location = q ++ r ∧ Located defs v k q w l ∧ Fault policy w l r d.cause := by
  induction v using Json.parts_induction generalizing k d with
  | h v ih =>
    cases hr : defs.resolve k with
    | gap g =>
      rw [value_eq, resolved, hr] at hd
      cases hd
    | kind k' =>
      rw [value_eq_of_resolve hr] at hd
      obtain ⟨hforwards, hk⟩ := Definitions.follow_eq_kind hr
      obtain ⟨q, r, w, l, hlocation, hl, hfault⟩ :
          ∃ q r w l, d.location = q ++ r ∧ Located defs v k' q w l ∧
            Fault policy w l r d.cause := by
        rcases traced_of_mem_diagnostics hk hd with hfault | ⟨s, x, m, e, hi, he, rfl⟩
        · exact ⟨[], d.location, v, k', rfl, .here, hfault⟩
        · obtain ⟨q, r, w, l, hlocation, hl, hfault⟩ := ih x hi.mem_parts he
          exact ⟨s :: q, r, w, l, congrArg (s :: ·) hlocation, .step hi hl, hfault⟩
      exact ⟨q, r, w, l, hlocation, hl.of_forwards hforwards, hfault⟩

namespace SchemaGraph

variable {root : Schema} {q : Location}

theorem WellFormed.value_of_occurs_forwards (h : WellFormed defs root) (ho : Occurs defs root k)
    (hf : defs.Forwards k l) (policy : Policy) (v : Json) :
    value defs policy v k = value defs policy v l := by
  cases ho with
  | node hn => exact h.value_of_forwards hn hf policy v
  | tag => cases hf
  | any => cases hf

theorem WellFormed.mem_diagnostics_of_located (h : WellFormed defs root)
    (ho : Occurs defs root k) (hl : Located defs v k q w l)
    (hd : d ∈ (value defs policy w l).diagnostics) :
    (⟨q ++ d.location, d.cause⟩ : Diagnostic) ∈ (value defs policy v k).diagnostics := by
  induction hl with
  | here => exact hd
  | forward hf _ ih =>
    rw [h.value_of_occurs_forwards ho hf]
    exact ih (ho.forwards hf) hd
  | step hi _ ih => exact hi.mem_diagnostics (ih (ho.inside hi) hd)

end SchemaGraph

/-- The findings are the faults of the places of the raw document: each of them is true of what the
document holds there, and none is left out. -/
theorem Collection.mem_findings_iff_fault (c : Collection) (policy : Policy) (raw : Json)
    (d : Diagnostic) :
    d ∈ c.findings policy raw ↔ ∃ q r v k, d.location = q ++ r ∧ raw.at? q = some v ∧
      Located c.definitions raw (.object c.schema) q v k ∧ Fault policy v k r d.cause := by
  rw [findings_eq]
  constructor
  · intro hd
    obtain ⟨q, r, v, k, hlocation, hl, hfault⟩ := exists_fault_of_mem_diagnostics hd
    exact ⟨q, r, v, k, hlocation, hl.at?, hl, hfault⟩
  · rintro ⟨q, r, v, k, hlocation, _, hl, hfault⟩
    obtain ⟨p, cause⟩ := d
    obtain rfl : p = q ++ r := hlocation
    exact c.wellFormed.mem_diagnostics_of_located c.occurs_root hl hfault.mem_diagnostics

end SiteContent
