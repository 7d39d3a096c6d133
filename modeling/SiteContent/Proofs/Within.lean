import SiteContent.Proofs.Locality
import SiteContent.Proofs.ReportOrder

/-! What is found at a place of a document and below it: what the value there has, held against the
kind of its place. -/

namespace SiteContent

/-- The diagnostics that are located at a location or below it. -/
def within (p : Location) (ds : List Diagnostic) : List Diagnostic :=
  ds.filter fun d => p <+: d.location

/-- The same finding, seen from the top of a location. -/
def Diagnostic.underAll (p : Location) (d : Diagnostic) : Diagnostic :=
  { d with location := p ++ d.location }

variable {p : Location} {s : Step} {ds : List Diagnostic}

theorem mem_within {d : Diagnostic} : d ∈ within p ds ↔ d ∈ ds ∧ p <+: d.location := by
  simp [within]

theorem within_append (ds ds' : List Diagnostic) :
    within p (ds ++ ds') = within p ds ++ within p ds' :=
  List.filter_append ..

theorem within_under : within (s :: p) (ds.map (·.under s)) = (within p ds).map (·.under s) := by
  simp only [within, List.filter_map]
  congr 2
  funext d
  simp [Diagnostic.under, List.cons_prefix_cons]

theorem within_self {d : Diagnostic} (h : d.location = p) : within p [d] = [d] := by
  simp [within, h]

section Parts

variable {α : Type} {as : List α} {found : α → List Diagnostic} (step : α → Step)

theorem within_flatMap_of_notMem (hbelow : ∀ a ∈ as, ∀ d ∈ found a, ∃ q, d.location = step a :: q)
    (h : s ∉ as.map step) : within (s :: p) (as.flatMap found) = [] := by
  rw [List.eq_nil_iff_forall_not_mem]
  intro d hd
  obtain ⟨hd, hprefix⟩ := mem_within.mp hd
  obtain ⟨a, ha, hd⟩ := List.mem_flatMap.mp hd
  obtain ⟨q, hq⟩ := hbelow a ha d hd
  rw [hq, List.cons_prefix_cons] at hprefix
  exact h (List.mem_map.mpr ⟨a, ha, hprefix.1.symm⟩)

/-- What parts find, each below a step of its own, can be told apart. -/
theorem within_flatMap_of_mem {a : α}
    (hbelow : ∀ a ∈ as, ∀ d ∈ found a, ∃ q, d.location = step a :: q)
    (hsteps : (as.map step).Nodup) (ha : a ∈ as) :
    within (step a :: p) (as.flatMap found) = within (step a :: p) (found a) := by
  obtain ⟨before, after, rfl⟩ := List.append_of_mem ha
  rw [List.map_append, List.map_cons, List.nodup_middle, List.nodup_cons, List.mem_append,
    not_or] at hsteps
  obtain ⟨⟨hbefore, hafter⟩, _⟩ := hsteps
  have hleft : within (step a :: p) (before.flatMap found) = [] :=
    within_flatMap_of_notMem step (fun b hb => hbelow b (List.mem_append_left _ hb)) hbefore
  have hright : within (step a :: p) (after.flatMap found) = [] :=
    within_flatMap_of_notMem step
      (fun b hb => hbelow b (List.mem_append_right _ (List.mem_cons_of_mem _ hb))) hafter
  rw [List.flatMap_append, List.flatMap_cons, within_append, within_append, hleft, hright,
    List.nil_append, List.append_nil]

end Parts

namespace Walk

variable {defs : Definitions} {policy : Policy} {v w : Json} {k l : Kind Node} {es : Dict Json}
  {members : Dict Walker} {f : Field Node} {name : String} {x : String × List Diagnostic}

theorem location_of_mem_field {d : Diagnostic} (hd : d ∈ (field members f).diagnostics) :
    ∃ q, d.location = .key f.name :: q := by
  rw [field] at hd
  cases hw : members.get? f.name with
  | some walker =>
    simp only [hw, Walked.map, Walked.under] at hd
    obtain ⟨e, _, rfl⟩ := List.mem_map.mp hd
    exact ⟨e.location, rfl⟩
  | none =>
    cases hdefault : f.node.default with
    | some v => simp [hw, hdefault, Walked.accept] at hd
    | none =>
      simp only [hw, hdefault] at hd
      split at hd
      · obtain rfl := List.mem_singleton.mp hd
        exact ⟨[], rfl⟩
      · simp [Walked.accept] at hd

theorem location_of_mem_tag {u : TaggedUnion Node} {d : Diagnostic}
    (hd : d ∈ (tag u es).diagnostics) : ∃ q, d.location = .key u.tag :: q := by
  rcases tag_cases u es with ⟨t, _, he⟩ | ⟨_, cause, he⟩
  · simp [he, Walked.accept] at hd
  · rw [he] at hd
    obtain rfl := List.mem_singleton.mp hd
    exact ⟨[], rfl⟩

theorem location_of_mem_sections (hx : x ∈ sections es members k) {d : Diagnostic} (hd : d ∈ x.2) :
    ∃ q, d.location = .key x.1 :: q := by
  cases k with
  | object s =>
    obtain ⟨f, _, rfl⟩ := List.mem_map.mp hx
    exact location_of_mem_field hd
  | oneOf u =>
    rcases List.mem_append.mp hx with hx | hx
    · obtain ⟨f, _, rfl⟩ := List.mem_map.mp hx
      exact location_of_mem_field hd
    rcases List.mem_cons.mp hx with rfl | hx
    · exact location_of_mem_tag hd
    rw [caseSections] at hx
    cases hsel : selected? u es with
    | none => simp [hsel] at hx
    | some c =>
      rw [hsel] at hx
      rcases List.mem_cons.mp hx with rfl | hx
      · exact location_of_mem_field hd
      · obtain ⟨other, _, rfl⟩ := List.mem_map.mp hx
        obtain rfl := List.mem_singleton.mp hd
        exact ⟨[], rfl⟩
  | _ => simp [sections] at hx

theorem fieldSection_mem_sections (hf : f ∈ fieldsOn es k) :
    fieldSection members f ∈ sections es members k := by
  cases k with
  | object s => exact List.mem_map.mpr ⟨f, hf, rfl⟩
  | oneOf u =>
    rcases List.mem_append.mp hf with hf | hf
    · exact List.mem_append_left _ (List.mem_map.mpr ⟨f, hf, rfl⟩)
    · obtain ⟨c, hc, rfl⟩ := List.mem_map.mp hf
      have hsel : selected? u es = some c := Option.mem_toList.mp hc
      have hcase : fieldSection members c.payload ∈ caseSections u es members := by
        rw [caseSections, hsel]
        exact List.mem_cons_self
      exact List.mem_append_right _ (List.mem_cons_of_mem _ hcase)
  | _ => simp [fieldsOn] at hf

theorem tagSection_mem_sections {u : TaggedUnion Node} :
    (u.tag, (tag u es).diagnostics) ∈ sections es members (.oneOf u) :=
  List.mem_append_right _ List.mem_cons_self

/-- A name that a kind gives is looked for among the sections alone. -/
theorem within_record (hk : k.Record) (hname : name ∈ k.names) :
    within (.key name :: p) (value defs policy (.obj es) k).diagnostics =
      within (.key name :: p)
        ((sections es (es.mapValues (value defs policy)) k).flatMap (·.2)) := by
  have hundeclared : ∀ known : String → Bool, (known name = true) →
      within (.key name :: p) (undeclared policy known es).diagnostics = [] := by
    intro known hknown
    rw [List.eq_nil_iff_forall_not_mem]
    intro d hd
    obtain ⟨hd, hprefix⟩ := mem_within.mp hd
    obtain ⟨_, key, _, _, hkey, rfl⟩ := mem_diagnostics_undeclared.mp hd
    obtain ⟨rfl, _⟩ : name = key ∧ p = [] := by simpa [List.cons_prefix_cons] using hprefix
    simp [hknown] at hkey
  cases hk with
  | @object s _ =>
    rw [value_of_target?_eq_none rfl, answer, diagnostics_object_eq, within_append,
      hundeclared _ (Shape.contains_iff.mpr hname), List.append_nil]
    rfl
  | @oneOf u _ =>
    rw [value_of_target?_eq_none rfl, answer, diagnostics_union_eq, within_append,
      hundeclared _ (TaggedUnion.knows_iff.mpr hname), List.append_nil]
    rfl

theorem names_sections_subset (hk : k.Record) :
    (sections es members k).map (·.1) ⊆ k.names :=
  fun _ h => (perm_orderedNames hk es).subset (names_sections_sublist.subset h)

theorem within_section (hk : k.Record)
    (hx : x ∈ sections es (es.mapValues (value defs policy)) k) :
    within (.key x.1 :: p) (value defs policy (.obj es) k).diagnostics =
      within (.key x.1 :: p) x.2 := by
  have hnames : ((sections es (es.mapValues (value defs policy)) k).map (·.1)).Nodup :=
    names_sections_sublist.nodup ((perm_orderedNames hk es).nodup_iff.mpr (names_nodup hk))
  have hsteps : ((sections es (es.mapValues (value defs policy)) k).map
      fun y => Step.key y.1).Nodup := by
    have hmap := hnames.map (f := Step.key) fun _ _ => Step.key.inj
    rwa [List.map_map] at hmap
  rw [within_record hk (names_sections_subset hk (List.mem_map.mpr ⟨x, hx, rfl⟩))]
  exact within_flatMap_of_mem (fun y => Step.key y.1)
    (fun y hy d hd => location_of_mem_sections hy hd) hsteps hx

theorem within_of_no_section (hk : k.Record) (hname : name ∈ k.names)
    (h : name ∉ (sections es (es.mapValues (value defs policy)) k).map (·.1)) :
    within (.key name :: p) (value defs policy (.obj es) k).diagnostics = [] := by
  rw [within_record hk hname]
  refine within_flatMap_of_notMem (fun y => Step.key y.1)
    (fun y hy d hd => location_of_mem_sections hy hd) fun hmem => h ?_
  obtain ⟨y, hy, he⟩ := List.mem_map.mp hmem
  exact List.mem_map.mpr ⟨y, hy, Step.key.inj he⟩

theorem within_item {vs : List Json} {items : Node} {nonEmpty : Bool} {i : Nat}
    (hw : vs[i]? = some w) :
    within (.index i :: p) (value defs policy (.arr vs) (.array items nonEmpty)).diagnostics =
      (within p (value defs policy w items.kind).diagnostics).map (·.under (.index i)) := by
  have hne : vs.isEmpty = false := by
    cases vs with
    | nil => simp at hw
    | cons _ _ => rfl
  have hitems : (value defs policy (.arr vs) (.array items nonEmpty)).diagnostics =
      vs.zipIdx.flatMap fun y =>
        (value defs policy y.1 items.kind).diagnostics.map (·.under (.index y.2)) := by
    rw [value_of_target?_eq_none rfl]
    simp only [answer, Json.elements, array_eq, hne, Bool.and_false, Bool.false_eq_true, if_false,
      Walked.map, Walked.all, itemWalks, List.flatMap_map, Walked.under]
  have hsteps : (vs.zipIdx.map fun y => Step.index y.2).Nodup := by
    have hindices : (vs.zipIdx.map (·.2)).Nodup := by
      rw [List.zipIdx_map_snd]
      exact List.nodup_range'
    have hmap := hindices.map (f := Step.index) fun _ _ => Step.index.inj
    rwa [List.map_map] at hmap
  have hmem : (w, i) ∈ vs.zipIdx := List.mem_zipIdx_iff_getElem?.mpr hw
  rw [hitems, within_flatMap_of_mem (fun y => Step.index y.2) (a := (w, i)) ?_ hsteps hmem]
  · exact within_under
  · intro y _ d hd
    obtain ⟨e, _, rfl⟩ := List.mem_map.mp hd
    exact ⟨e.location, rfl⟩

/-- What is found below one step is what the value there has. -/
theorem Inside.within (hi : Inside v k s w l) (hk : k.isKeyed = true → k.Record) :
    within (s :: p) (value defs policy v k).diagnostics =
      (within p (value defs policy w l).diagnostics).map (·.under s) := by
  cases hi with
  | @field es k f _ hf hw =>
    have hrecord := hk (isKeyed_of_mem_fieldsOn hf)
    have hmem : fieldSection (es.mapValues (value defs policy)) f ∈
        sections es (es.mapValues (value defs policy)) k := fieldSection_mem_sections hf
    have hsection := within_section (p := p) hrecord hmem
    have hfield : (fieldSection (es.mapValues (value defs policy)) f).2 =
        (value defs policy w f.node.kind).diagnostics.map (·.under (.key f.name)) := by
      simp only [fieldSection, Walk.field, Dict.get?_mapValues, hw, Option.map_some, Walked.map,
        Walked.under]
    rw [hfield] at hsection
    exact hsection.trans within_under
  | @tag es u _ hw =>
    have hmem : (u.tag, (Walk.tag u es).diagnostics) ∈
        sections es (es.mapValues (value defs policy)) (.oneOf u) := tagSection_mem_sections
    have hsection := within_section (p := p) (hk rfl) hmem
    rw [diagnostics_tag_eq defs policy hw] at hsection
    exact hsection.trans within_under
  | item hw => exact within_item hw
  | entry _ => rw [diagnostics_any, diagnostics_any]; rfl
  | element _ => rw [diagnostics_any, diagnostics_any]; rfl

end Walk

namespace SchemaGraph

open Walk

variable {defs : Definitions} {root : Schema} {policy : Policy} {v w : Json} {k l : Kind Node}
  {q : Location}

/-- What is found at a place or below it is what the value there has, and nothing else. -/
theorem WellFormed.within_located (h : WellFormed defs root) (ho : Occurs defs root k)
    (hl : Located defs v k p w l) :
    within (p ++ q) (value defs policy v k).diagnostics =
      (within q (value defs policy w l).diagnostics).map (·.underAll p) := by
  induction hl with
  | here => simp [Diagnostic.underAll]
  | forward hf _ ih =>
    rw [h.value_of_occurs_forwards ho hf]
    exact ih (ho.forwards hf)
  | step hi _ ih =>
    rw [List.cons_append, hi.within (h.record ho), ih (ho.inside hi), List.map_map]
    rfl

end SchemaGraph

end SiteContent
