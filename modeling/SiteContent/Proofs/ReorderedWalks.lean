import SiteContent.Proofs.Reordering
import SiteContent.Proofs.ReportOrder

/-! Walks along schemas that differ in the order of fields and cases. One finds what the other
finds, in another order, and both make the same value. -/

namespace SiteContent

/-- Two walks that make the same and find the same, in any order. -/
structure Walked.Permuted {α : Type} (w w' : Walked α) : Prop where
  result : w.result = w'.result
  diagnostics : w.diagnostics.Perm w'.diagnostics

namespace Walked.Permuted

variable {α β : Type} {w w' : Walked α}

theorem refl (w : Walked α) : w.Permuted w :=
  ⟨rfl, .refl _⟩

theorem map (h : w.Permuted w') (f : α → β) : (w.map f).Permuted (w'.map f) :=
  ⟨congrArg f h.result, h.diagnostics⟩

theorem under (h : w.Permuted w') (s : Step) : (w.under s).Permuted (w'.under s) :=
  ⟨h.result, h.diagnostics.map _⟩

end Walked.Permuted

namespace Walk

/-- Walks side by side that write the same entries and find the same, in any order. -/
structure Rearranged (ws ws' : List (Walked Written)) : Prop where
  result : (ws.flatMap (·.result)).Perm (ws'.flatMap (·.result))
  diagnostics : (ws.flatMap (·.diagnostics)).Perm (ws'.flatMap (·.diagnostics))

namespace Rearranged

variable {ws ws' xs xs' : List (Walked Written)}

theorem refl (ws : List (Walked Written)) : Rearranged ws ws :=
  ⟨.refl _, .refl _⟩

theorem append (h : Rearranged ws ws') (h' : Rearranged xs xs') :
    Rearranged (ws ++ xs) (ws' ++ xs') := by
  constructor
  case result =>
    rw [List.flatMap_append, List.flatMap_append]
    exact h.result.append h'.result
  case diagnostics =>
    rw [List.flatMap_append, List.flatMap_append]
    exact h.diagnostics.append h'.diagnostics

theorem of_paired {α : Type} {R : α → α → Prop} {as bs : List α} {f g : α → Walked Written}
    (h : Paired R as bs) (hfg : ∀ a b, R a b → (f a).Permuted (g b)) :
    Rearranged (as.map f) (bs.map g) := by
  constructor
  case result =>
    rw [List.flatMap_map, List.flatMap_map]
    exact h.perm_flatMap fun a b hab => (hfg a b hab).result ▸ .refl _
  case diagnostics =>
    rw [List.flatMap_map, List.flatMap_map]
    exact h.perm_flatMap fun a b hab => (hfg a b hab).diagnostics

theorem singleton {w w' : Walked Written} (h : w.Permuted w') : Rearranged [w] [w'] := by
  constructor
  case result => simp [h.result]
  case diagnostics => simpa using h.diagnostics

/-- As long as no key is written twice, an object is the same in whatever order it is written. -/
theorem assemble (h : Rearranged ws ws') (hkeys : (Dict.keys (ws.flatMap (·.result))).Nodup)
    (last : Walked Written) :
    (Walk.assemble (ws ++ [last])).Permuted (Walk.assemble (ws' ++ [last])) := by
  constructor
  case result =>
    have hwritten : ∀ ws : List (Walked Written), (Walk.assemble (ws ++ [last])).result =
        .obj (Dict.ofList (ws.flatMap (·.result) ++ last.result)) := by
      intro ws
      simp [Walk.assemble, Walked.all, Walked.map, List.flatMap_def]
    rw [hwritten, hwritten, Dict.ofList_append_congr (Dict.ofList_perm h.result hkeys)]
  case diagnostics =>
    rw [diagnostics_assemble_append, diagnostics_assemble_append]
    exact h.diagnostics.append_right _

end Rearranged

variable {defs defs' : Definitions} {policy : Policy} {v : Json} {es : Dict Json}
  {k k' : Kind Node} {u u' : TaggedUnion Node}

theorem permuted_field {f g : Field Node} (h : f.Reordered g)
    (hwalk : ∀ w, es.get? f.name = some w →
      (value defs policy w f.node.kind).Permuted (value defs' policy w g.node.kind)) :
    (field (es.mapValues (value defs policy)) f).Permuted
      (field (es.mapValues (value defs' policy)) g) := by
  obtain ⟨hname, ⟨hrequired, hdefault, _⟩, _⟩ := h
  rw [field, field, Dict.get?_mapValues, Dict.get?_mapValues, ← hname, ← hrequired, ← hdefault]
  cases hw : es.get? f.name with
  | some w => exact ((hwalk w hw).under _).map _
  | none => cases f.node.default <;> exact .refl _

theorem rearranged_fields {fs fs' : List (Field Node)} (h : Paired Field.Reordered fs fs')
    (hwalk : ∀ f ∈ fs, ∀ w, es.get? f.name = some w → ∀ l, f.node.kind.Reordered l →
      (value defs policy w f.node.kind).Permuted (value defs' policy w l)) :
    Rearranged (fs.map (field (es.mapValues (value defs policy))))
      (fs'.map (field (es.mapValues (value defs' policy)))) := by
  refine .of_paired (h.imp fun f hf g _ hfg => ?_) fun _ _ => id
  exact permuted_field hfg fun w hw => hwalk f hf w hw _ hfg.node.kind

theorem permuted_object {s s' : Schema} (hs : s.names.Nodup)
    (h : Paired Field.Reordered s.fields s'.fields)
    (hwalk : ∀ f ∈ s.fields, ∀ w, es.get? f.name = some w → ∀ l, f.node.kind.Reordered l →
      (value defs policy w f.node.kind).Permuted (value defs' policy w l)) :
    (object policy s es (es.mapValues (value defs policy))).Permuted
      (object policy s' es (es.mapValues (value defs' policy))) := by
  have hnames : s.names.Perm s'.names := h.perm_map fun _ _ hfg => hfg.name
  have hknown : s.contains = s'.contains := by
    funext name
    rw [Bool.eq_iff_iff, Shape.contains_iff, Shape.contains_iff, hnames.mem_iff]
  have hkeys : (Dict.keys (writtenFields defs policy es s.fields)).Nodup :=
    (keys_writtenFields_sublist _).nodup hs
  rw [object, object, ← hknown]
  refine (rearranged_fields h hwalk).assemble ?_ _
  rwa [List.flatMap_map]

/-- Both unions select the same case, or none. -/
theorem selected?_reordered (hu : u.Lawful) (hu' : u'.Lawful) (htag : u.tag = u'.tag)
    (htags : u.tags = u'.tags) (hcases : Paired Variant.Reordered u.variants u'.variants) :
    (selected? u es = none ∧ selected? u' es = none) ∨
      ∃ c c', selected? u es = some c ∧ selected? u' es = some c' ∧ c.Reordered c' := by
  have htagOf : tagOf? u es = tagOf? u' es := by rw [tagOf?, tagOf?, htag, htags]
  cases ht : tagOf? u es with
  | none => exact .inl ⟨by rw [selected?, ht]; rfl, by rw [selected?, ← htagOf, ht]; rfl⟩
  | some t =>
    obtain ⟨c, hc, rfl, hsel⟩ := exists_selected hu ht
    obtain ⟨c', hc', hre⟩ := hcases.exists_right hc
    refine .inr ⟨c, c', hsel, selected?_eq_some hu' hc' ?_, hre⟩
    rw [← htagOf, ht, hre.tag]

theorem rearranged_payloads {c c' : Variant Node} (htag : u.tag = u'.tag)
    (hcases : Paired Variant.Reordered u.variants u'.variants) (hc : c.Reordered c')
    (hwalk : ∀ w, es.get? c.payload.name = some w →
      (value defs policy w c.payload.node.kind).Permuted
        (value defs' policy w c'.payload.node.kind)) :
    Rearranged (payloads u (es.mapValues (value defs policy)) c)
      (payloads u' (es.mapValues (value defs' policy)) c') := by
  have hforbidden : Paired Variant.Reordered
      (u.variants.filter fun v => v.tag ≠ c.tag &&
        (es.mapValues (value defs policy)).contains v.payload.name)
      (u'.variants.filter fun v => v.tag ≠ c'.tag &&
        (es.mapValues (value defs' policy)).contains v.payload.name) := by
    refine hcases.filter fun a b hab => ?_
    rw [contains_mapValues, contains_mapValues, hab.tag, hab.payload.name, hc.tag]
  refine (Rearranged.singleton (permuted_field hc.payload hwalk)).append
    (.of_paired hforbidden fun a b hab => ?_)
  rw [htag, hc.tag, hab.payload.name]
  exact .refl _

theorem flatMap_result_payloads {c : Variant Node} :
    (payloads u (es.mapValues (value defs policy)) c).flatMap (·.result) =
      writtenFields defs policy es [c.payload] := by
  have hnone : ∀ vs : List (Variant Node), (vs.map fun v => (Walked.report []
      [.key v.payload.name] (.forbiddenField u.tag c.tag) : Walked Written)).flatMap (·.result) =
        [] := by
    intro vs
    simp [List.flatMap_map, Walked.report]
  rw [payloads, List.flatMap_cons, hnone, List.append_nil, writtenFields, List.flatMap_singleton]

/-- The declared part of an object of a union. -/
def declaredParts (defs : Definitions) (policy : Policy) (es : Dict Json) (u : TaggedUnion Node) :
    List (Walked Written) :=
  u.common.fields.map (field (es.mapValues (value defs policy))) ++ [tag u es] ++
    ((selected? u es).map (payloads u (es.mapValues (value defs policy)))).getD []

theorem union_eq : union policy u es (es.mapValues (value defs policy)) =
    assemble (declaredParts defs policy es u ++ [undeclared policy u.knows es]) :=
  rfl

theorem nodup_keys_declaredParts (hu : u.Lawful) :
    (Dict.keys ((declaredParts defs policy es u).flatMap (·.result))).Nodup := by
  have hnames : (u.common.names ++
      u.tag :: (selected? u es).toList.map (·.payload.name)).Nodup := by
    have hfields : (fieldsOn es (.oneOf u)).map (·.name) =
        u.common.names ++ (selected? u es).toList.map (·.payload.name) := by
      rw [fieldsOn, List.map_append, List.map_map]
      rfl
    have hdistinct : ((fieldsOn es (.oneOf u)).map (·.name)).Nodup := fieldsOn_distinct (.oneOf hu)
    rw [List.nodup_middle, ← hfields]
    refine List.nodup_cons.mpr ⟨fun hmem => ?_, hdistinct⟩
    obtain ⟨f, hf, hname⟩ := List.mem_map.mp hmem
    exact name_ne_tag (.oneOf hu) hf hname
  have htag : (Dict.keys (tag u es).result).Sublist [u.tag] := by
    rcases tag_cases u es with ⟨t, _, he⟩ | ⟨_, cause, he⟩
    · rw [he]
      exact .refl _
    · rw [he]
      exact List.nil_sublist _
  have hpayload : (Dict.keys ((((selected? u es).map
      (payloads u (es.mapValues (value defs policy)))).getD []).flatMap (·.result))).Sublist
        ((selected? u es).toList.map (·.payload.name)) := by
    cases selected? u es with
    | none => exact List.nil_sublist _
    | some c =>
      rw [Option.map_some, Option.getD_some, flatMap_result_payloads]
      exact keys_writtenFields_sublist [c.payload]
  refine List.Sublist.nodup ?_ hnames
  rw [declaredParts, List.flatMap_append, List.flatMap_append, List.flatMap_map,
    List.flatMap_singleton, Dict.keys, List.map_append, List.map_append, List.append_assoc]
  exact (keys_writtenFields_sublist _).append (htag.append hpayload)

theorem permuted_union (hu : u.Lawful) (htag : u.tag = u'.tag) (htags : u.tags = u'.tags)
    (hfields : Paired Field.Reordered u.common.fields u'.common.fields)
    (hcases : Paired Variant.Reordered u.variants u'.variants)
    (hwalk : ∀ f ∈ fieldsOn es (.oneOf u), ∀ w, es.get? f.name = some w →
      ∀ l, f.node.kind.Reordered l →
        (value defs policy w f.node.kind).Permuted (value defs' policy w l)) :
    (union policy u es (es.mapValues (value defs policy))).Permuted
      (union policy u' es (es.mapValues (value defs' policy))) := by
  have hu' : u'.Lawful := hu.of_paired htag htags hfields hcases
  have hknown : u.knows = u'.knows := by
    funext name
    rw [Bool.eq_iff_iff, TaggedUnion.knows_iff, TaggedUnion.knows_iff,
      (TaggedUnion.perm_allNames htag hfields hcases).mem_iff]
  have hsame : tag u es = tag u' es := by rw [tag, tag, htag, htags]
  have hcommon := rearranged_fields hfields fun f hf => hwalk f (List.mem_append_left _ hf)
  have hparts : Rearranged (declaredParts defs policy es u) (declaredParts defs' policy es u') := by
    rw [declaredParts, declaredParts, hsame]
    refine (hcommon.append (.refl _)).append ?_
    rcases selected?_reordered hu hu' htag htags hcases with ⟨hnone, hnone'⟩ | ⟨c, c', hc, hc', hre⟩
    · rw [hnone, hnone']
      exact .refl _
    · have hfield : c.payload ∈ fieldsOn es (.oneOf u) := by simp [fieldsOn, hc]
      rw [hc, hc']
      exact rearranged_payloads htag hcases hre fun w hw =>
        hwalk _ hfield w hw _ hre.payload.node.kind
  rw [union_eq, union_eq, ← hknown]
  exact hparts.assemble (nodup_keys_declaredParts hu) _

theorem permuted_array {vs : List Json} {items items' : Node} {nonEmpty : Bool}
    (hwalk : ∀ w ∈ vs,
      (value defs policy w items.kind).Permuted (value defs' policy w items'.kind)) :
    (array items nonEmpty (vs.map (value defs policy))).Permuted
      (array items' nonEmpty (vs.map (value defs' policy))) := by
  have hitems : ∀ x ∈ vs.zipIdx,
      ((value defs policy x.1 items.kind).under (.index x.2)).Permuted
        ((value defs' policy x.1 items'.kind).under (.index x.2)) := by
    intro x hx
    exact (hwalk x.1 (List.fst_mem_of_mem_zipIdx hx)).under _
  have hinside : ((Walked.all (itemWalks defs policy items vs)).map Json.arr).Permuted
      ((Walked.all (itemWalks defs' policy items' vs)).map Json.arr) := by
    refine Walked.Permuted.map ?_ _
    constructor
    case result =>
      simp only [Walked.all, itemWalks, List.map_map]
      exact List.map_congr_left fun x hx => (hitems x hx).result
    case diagnostics =>
      simp only [Walked.all, itemWalks, List.flatMap_map]
      exact .flatMap_left _ fun x hx => (hitems x hx).diagnostics
  rw [array_eq, array_eq]
  dsimp only
  split
  · exact ⟨hinside.result, hinside.diagnostics.cons _⟩
  · exact hinside

theorem value_of_isLeaf (hk : k.isLeaf = true) (ht : k.target? = none) :
    value defs policy v k = value defs' policy v k := by
  rw [value_of_target?_eq_none ht, value_of_target?_eq_none ht]
  cases k with
  | object _ | array _ _ | oneOf _ => simp [Kind.isLeaf] at hk
  | reference _ => simp [Kind.target?] at ht
  | _ => cases v <;> rfl

theorem permuted_of_parts (hk : k.isKeyed = true → k.Record) (ht : k.target? = none)
    (hre : k.Reordered k')
    (hwalk : ∀ w l, Descends v k w l → ∀ l', l.Reordered l' →
      (value defs policy w l).Permuted (value defs' policy w l')) :
    (value defs policy v k).Permuted (value defs' policy v k') := by
  cases hre.matched with
  | leaf hleaf =>
    rw [value_of_isLeaf hleaf ht]
    exact .refl _
  | array hitems =>
    rw [value_of_target?_eq_none rfl, value_of_target?_eq_none rfl]
    cases v with
    | arr vs => exact permuted_array fun w hw => hwalk w _ (.item hw) _ hitems.kind
    | _ => exact .refl _
  | object hfields =>
    rw [value_of_target?_eq_none rfl, value_of_target?_eq_none rfl]
    cases v with
    | obj es =>
      cases hk rfl with
      | object hs => exact permuted_object hs hfields fun f hf w hw => hwalk w _ (.field hf hw)
    | _ => exact .refl _
  | oneOf htag htags hfields hcases =>
    rw [value_of_target?_eq_none rfl, value_of_target?_eq_none rfl]
    cases v with
    | obj es =>
      cases hk rfl with
      | oneOf hu =>
        exact permuted_union hu htag htags hfields hcases fun f hf w hw => hwalk w _ (.field hf hw)
    | _ => exact .refl _

end Walk

/-- The walk along a well-formed graph does not mind the order of fields and cases, but for the
order of what it finds. -/
theorem SchemaGraph.WellFormed.permuted {defs defs' : Definitions} {root : Schema} {path : String}
    {n : Node} {k' : Kind Node} (h : WellFormed defs root) (hdefs : defs.Reordered defs')
    (hn : Sited defs root path n) (hre : n.kind.Reordered k') (policy : Policy) (v : Json) :
    (Walk.value defs policy v n.kind).Permuted (Walk.value defs' policy v k') := by
  refine h.walk_induction (P := fun v k => ∀ k', k.Reordered k' →
    (Walk.value defs policy v k).Permuted (Walk.value defs' policy v k')) ?_ ?_ hn v k' hre
  · intro v k l hr hl k' hre
    obtain ⟨l', hr', hre'⟩ := hdefs.resolve_eq_kind hre hr
    rw [Walk.value_eq_of_resolve hr, Walk.value_eq_of_resolve hr']
    exact hl l' hre'
  · intro v path m hm ht hbelow k' hre
    exact Walk.permuted_of_parts (h.record (.node hm)) ht hre hbelow

end SiteContent
