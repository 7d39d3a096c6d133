import Mathlib.Data.List.Nodup
import SiteContent.Proofs.Conformance
import SiteContent.Proofs.SortedDict

/-! What a walk makes of an object: under the name of a field the walked value or the default, and
beside the fields what is kept as it is. -/

namespace SiteContent

namespace TaggedUnion

variable {α : Type} {u : TaggedUnion α} {a b : Variant α}

theorem payload_mem_allNames (ha : a ∈ u.variants) : a.payload.name ∈ u.allNames :=
  List.mem_cons_of_mem _ (List.mem_append_right _ (List.mem_map.mpr ⟨a, ha, rfl⟩))

theorem Lawful.payload_ne_tag (hu : u.Lawful) (ha : a ∈ u.variants) :
    a.payload.name ≠ u.tag := by
  intro he
  have hmem : a.payload.name ∈ u.variants.map (·.payload.name) := List.mem_map.mpr ⟨a, ha, rfl⟩
  exact (List.nodup_cons.mp hu.names_distinct).1 (he ▸ List.mem_append_right _ hmem)

theorem Lawful.payload_notMem_common (hu : u.Lawful) (ha : a ∈ u.variants) :
    a.payload.name ∉ u.common.names := by
  intro hcommon
  have hmem : a.payload.name ∈ u.variants.map (·.payload.name) := List.mem_map.mpr ⟨a, ha, rfl⟩
  obtain ⟨_, _, hdisjoint⟩ := List.nodup_append.mp (List.nodup_cons.mp hu.names_distinct).2
  exact hdisjoint _ hcommon _ hmem rfl

theorem Lawful.payload_inj (hu : u.Lawful) (ha : a ∈ u.variants) (hb : b ∈ u.variants)
    (h : a.payload.name = b.payload.name) : a = b := by
  obtain ⟨_, hpayloads, _⟩ := List.nodup_append.mp (List.nodup_cons.mp hu.names_distinct).2
  exact List.inj_on_of_nodup_map hpayloads ha hb h

end TaggedUnion

namespace Walk

variable {defs : Definitions} {policy : Policy} {es r : Dict Json} {k : Kind Node} {f : Field Node}
  {key : String} {x : Json}

/-- What a rebuilt object holds for a field. -/
def entered? (defs : Definitions) (policy : Policy) (es : Dict Json) (f : Field Node) :
    Option Json :=
  match es.get? f.name with
  | some v => some (value defs policy v f.node.kind).result
  | none => f.node.default

theorem entered?_eq_none : entered? defs policy es f = none ↔
    es.get? f.name = none ∧ f.node.default = none := by
  rw [entered?]
  cases es.get? f.name <;> simp

/-- The entries beside the fields, which an object of a kind keeps as they are. -/
inductive Kept (policy : Policy) (es : Dict Json) : Kind Node → String → Json → Prop
  | undeclared {k : Kind Node} {key : String} {x : Json} : policy = .preserve → key ∉ k.names →
      (key, x) ∈ es → Kept policy es k key x
  | tag {u : TaggedUnion Node} {t : String} :
      tagOf? u es = some t → Kept policy es (.oneOf u) u.tag (.str t)

/-- All that is written into the object that is rebuilt along a kind. -/
def Writes (defs : Definitions) (policy : Policy) (es : Dict Json) (k : Kind Node) (key : String)
    (x : Json) : Prop :=
  (∃ f ∈ fieldsOn es k, key = f.name ∧ entered? defs policy es f = some x) ∨
    Kept policy es k key x

theorem mem_result_field : (key, x) ∈ (field (es.mapValues (value defs policy)) f).result ↔
    key = f.name ∧ entered? defs policy es f = some x := by
  rw [field, entered?, Dict.get?_mapValues]
  cases es.get? f.name with
  | some v => simp [Walked.map, Walked.under, eq_comm]
  | none =>
    cases f.node.default with
    | some d => simp [Walked.accept, eq_comm]
    | none => by_cases hr : f.node.required = true <;> simp [hr, Walked.accept, Walked.report]

/-- What is written for the fields of an object. -/
def writtenFields (defs : Definitions) (policy : Policy) (es : Dict Json)
    (fs : List (Field Node)) : Written :=
  fs.flatMap fun f => (field (es.mapValues (value defs policy)) f).result

theorem keys_writtenFields_sublist (fs : List (Field Node)) :
    (Dict.keys (writtenFields defs policy es fs)).Sublist (fs.map (·.name)) := by
  induction fs with
  | nil => exact .slnil
  | cons f fs ih =>
    have hfield : (Dict.keys (field (es.mapValues (value defs policy)) f).result).Sublist
        [f.name] := by
      rw [field, Dict.get?_mapValues]
      cases es.get? f.name with
      | some v => exact .refl _
      | none =>
        cases f.node.default with
        | some d => exact .refl _
        | none =>
          by_cases hr : f.node.required = true
          · simp [hr, Walked.report, Dict.keys]
          · simp [hr, Walked.accept, Dict.keys]
    rw [writtenFields, List.flatMap_cons, Dict.keys, List.map_append]
    exact hfield.append ih

theorem mem_result_undeclared {known : String → Bool}
    (hknown : ∀ key, known key = true ↔ key ∈ k.names) :
    (key, x) ∈ (undeclared policy known es).result ↔
      policy = .preserve ∧ key ∉ k.names ∧ (key, x) ∈ es := by
  cases policy with
  | preserve => simp [undeclared, Walked.accept, ← hknown, and_comm]
  | _ => simp [undeclared, Walked.accept]

theorem mem_result_tag {u : TaggedUnion Node} :
    (key, x) ∈ (tag u es).result ↔ ∃ t, tagOf? u es = some t ∧ key = u.tag ∧ x = .str t := by
  rcases tag_cases u es with ⟨t, ht, he⟩ | ⟨ht, cause, he⟩
  · simp [he, ht, Walked.accept]
  · simp [he, ht, Walked.report]

theorem mem_result_payloads {u : TaggedUnion Node} {members : Dict Walker} {c : Variant Node} :
    (∃ w ∈ payloads u members c, (key, x) ∈ w.result) ↔
      (key, x) ∈ (field members c.payload).result := by
  constructor
  · rintro ⟨w, hw, hx⟩
    rcases List.mem_cons.mp hw with rfl | hw
    · exact hx
    · obtain ⟨v, _, rfl⟩ := List.mem_map.mp hw
      simp [Walked.report] at hx
  · exact fun hx => ⟨_, List.mem_cons_self, hx⟩

theorem mem_assemble {ws : List (Walked Written)} {e : String × Json} :
    e ∈ (Walked.all ws).result.flatten ↔ ∃ w ∈ ws, e ∈ w.result := by
  simp [Walked.all, List.mem_flatten]

theorem exists_result_object {s : Schema} : ∃ written,
    (object policy s es (es.mapValues (value defs policy))).result = .obj (Dict.ofList written) ∧
      ∀ key x, (key, x) ∈ written ↔ Writes defs policy es (.object s) key x := by
  have hknown : ∀ key, s.contains key = true ↔ key ∈ (Kind.object s).names :=
    fun _ => Shape.contains_iff
  refine ⟨_, rfl, fun key x => mem_assemble.trans ?_⟩
  simp only [List.mem_append, List.mem_singleton, or_and_right, exists_or, exists_eq_left,
    mem_result_undeclared hknown]
  refine or_congr ?_ ⟨fun h => .undeclared h.1 h.2.1 h.2.2, fun h => ?_⟩
  · simp only [List.mem_map, exists_exists_and_eq_and, mem_result_field]
    rfl
  · cases h with
    | undeclared hp hkey hx => exact ⟨hp, hkey, hx⟩

theorem exists_result_union {u : TaggedUnion Node} : ∃ written,
    (union policy u es (es.mapValues (value defs policy))).result = .obj (Dict.ofList written) ∧
      ∀ key x, (key, x) ∈ written ↔ Writes defs policy es (.oneOf u) key x := by
  have hknown : ∀ key, u.knows key = true ↔ key ∈ (Kind.oneOf u).names :=
    fun _ => TaggedUnion.knows_iff
  have hpayloads : ∀ {key x},
      (∃ w ∈ ((selected? u es).map (payloads u (es.mapValues (value defs policy)))).getD [],
        (key, x) ∈ w.result) ↔
      ∃ f ∈ (selected? u es).toList.map (·.payload),
        key = f.name ∧ entered? defs policy es f = some x := by
    intro key x
    cases selected? u es with
    | none => simp
    | some c => simp [mem_result_payloads, mem_result_field]
  refine ⟨_, rfl, fun key x => mem_assemble.trans ?_⟩
  simp only [List.mem_append, List.mem_singleton, or_and_right, exists_or, exists_eq_left,
    mem_result_undeclared hknown, mem_result_tag]
  rw [← selected?, hpayloads]
  simp only [List.mem_map, exists_exists_and_eq_and, mem_result_field]
  constructor
  · rintro (((⟨f, hf, he⟩ | ⟨t, ht, rfl, rfl⟩) | ⟨c, hc, he⟩) | ⟨hp, hkey, hx⟩)
    · exact .inl ⟨f, List.mem_append_left _ hf, he⟩
    · exact .inr (.tag ht)
    · exact .inl ⟨c.payload, List.mem_append_right _ (List.mem_map.mpr ⟨c, hc, rfl⟩), he⟩
    · exact .inr (.undeclared hp hkey hx)
  · rintro (⟨f, hf, he⟩ | hkept)
    · rcases List.mem_append.mp hf with hf | hf
      · exact .inl (.inl (.inl ⟨f, hf, he⟩))
      · obtain ⟨c, hc, rfl⟩ := List.mem_map.mp hf
        exact .inl (.inr ⟨c, hc, he⟩)
    · cases hkept with
      | undeclared hp hkey hx => exact .inr ⟨hp, hkey, hx⟩
      | tag ht => exact .inl (.inl (.inr ⟨_, ht, rfl, rfl⟩))

/-- An object holds what is written into it; of several values under one key it holds one. -/
structure Rebuilt (defs : Definitions) (policy : Policy) (es : Dict Json) (k : Kind Node)
    (r : Dict Json) : Prop where
  sorted : r.Sorted
  written : ∀ key x, r.get? key = some x → Writes defs policy es k key x
  found : ∀ key x, Writes defs policy es k key x →
    (∀ y, Writes defs policy es k key y → y = x) → r.get? key = some x

theorem rebuilt_ofList {written : List (String × Json)}
    (h : ∀ key x, (key, x) ∈ written ↔ Writes defs policy es k key x) :
    Rebuilt defs policy es k (Dict.ofList written) where
  sorted := Dict.sorted_ofList written
  written key x hx := (h key x).mp (Dict.mem_of_get?_ofList hx)
  found key x hx hu :=
    Dict.get?_ofList_of_unique ((h key x).mpr hx) fun y hy => hu y ((h key y).mp hy)

theorem exists_rebuilt (defs : Definitions) (policy : Policy) (es : Dict Json) (hk : k.Record) :
    ∃ r, (value defs policy (.obj es) k).result = .obj r ∧ Rebuilt defs policy es k r := by
  cases hk with
  | object _ =>
    obtain ⟨written, hw, hmem⟩ := exists_result_object
    rw [value_of_target?_eq_none rfl]
    exact ⟨_, hw, rebuilt_ofList hmem⟩
  | oneOf _ =>
    obtain ⟨written, hw, hmem⟩ := exists_result_union
    rw [value_of_target?_eq_none rfl]
    exact ⟨_, hw, rebuilt_ofList hmem⟩

theorem names_sublist {u : TaggedUnion Node} : ((fieldsOn es (.oneOf u)).map (·.name)).Sublist
    (u.common.names ++ u.variants.map (·.payload.name)) := by
  simp only [fieldsOn, List.map_append, List.map_map]
  refine (List.Sublist.refl _).append ?_
  cases hsel : selected? u es with
  | none => exact List.nil_sublist _
  | some c =>
    obtain ⟨t, _, ht⟩ := Option.bind_eq_some_iff.mp hsel
    exact List.singleton_sublist.mpr (List.mem_map.mpr ⟨c, List.mem_of_find?_eq_some ht, rfl⟩)

theorem name_mem_names (hf : f ∈ fieldsOn es k) : f.name ∈ k.names := by
  have hname : f.name ∈ (fieldsOn es k).map (·.name) := List.mem_map.mpr ⟨f, hf, rfl⟩
  cases k with
  | object _ => exact hname
  | oneOf _ => exact List.mem_cons_of_mem _ (names_sublist.subset hname)
  | _ => simp [fieldsOn] at hf

theorem fieldsOn_distinct (hk : k.Record) : ((fieldsOn es k).map (·.name)).Nodup := by
  cases hk with
  | object hs => exact hs
  | oneOf hu => exact (List.nodup_cons.mp hu.names_distinct).2.sublist names_sublist

theorem name_ne_tag {u : TaggedUnion Node} (hk : (Kind.oneOf u).Record)
    (hf : f ∈ fieldsOn es (.oneOf u)) : f.name ≠ u.tag := by
  cases hk with
  | oneOf hu =>
    have hmem := names_sublist.subset (List.mem_map.mpr ⟨f, hf, rfl⟩)
    exact fun he => (List.nodup_cons.mp hu.names_distinct).1 (he ▸ hmem)

theorem Kept.ne_name (hk : k.Record) (h : Kept policy es k key x) {other : Dict Json}
    (hf : f ∈ fieldsOn other k) : key ≠ f.name := by
  rintro rfl
  have hname : f.name ∈ (fieldsOn other k).map (·.name) := List.mem_map.mpr ⟨f, hf, rfl⟩
  cases hk with
  | object _ =>
    cases h with
    | undeclared _ hkey _ => exact hkey hname
  | oneOf hu =>
    have hmem := names_sublist.subset hname
    generalize hkey : f.name = key at h hmem
    cases h with
    | undeclared _ hkey _ => exact hkey (List.mem_cons_of_mem _ hmem)
    | tag _ => exact (List.nodup_cons.mp hu.names_distinct).1 hmem

namespace Rebuilt

theorem get?_name (h : Rebuilt defs policy es k r) (hk : k.Record) (hf : f ∈ fieldsOn es k) :
    r.get? f.name = entered? defs policy es f := by
  have hwrites : ∀ {x}, Writes defs policy es k f.name x ↔ entered? defs policy es f = some x := by
    intro x
    constructor
    · rintro (⟨g, hg, hname, hx⟩ | hkept)
      · obtain rfl := List.inj_on_of_nodup_map (fieldsOn_distinct hk) hf hg hname
        exact hx
      · exact absurd rfl (hkept.ne_name hk hf)
    · exact fun hx => .inl ⟨f, hf, rfl, hx⟩
  cases he : entered? defs policy es f with
  | none =>
    refine Option.eq_none_iff_forall_ne_some.mpr fun x hx => ?_
    have := hwrites.mp (h.written _ x hx)
    simp [he] at this
  | some x =>
    refine h.found _ x (hwrites.mpr he) fun y hy => ?_
    exact Option.some.inj ((hwrites.mp hy).symm.trans he)

theorem kept_of_get? (h : Rebuilt defs policy es k r) (hx : r.get? key = some x)
    (hkey : ∀ f ∈ fieldsOn es k, key ≠ f.name) : Kept policy es k key x := by
  rcases h.written key x hx with ⟨f, hf, rfl, _⟩ | hkept
  · exact absurd rfl (hkey f hf)
  · exact hkept

theorem tagOf? {u : TaggedUnion Node} {t : String} (h : Rebuilt defs policy es (.oneOf u) r)
    (hu : u.Lawful) (ht : tagOf? u es = some t) : tagOf? u r = some t := by
  refine tagOf?_eq_some.mpr ⟨?_, (tagOf?_eq_some.mp ht).2⟩
  refine h.found _ _ (.inr (.tag ht)) fun y hy => ?_
  rcases hy with ⟨f, hf, hname, _⟩ | hkept
  · exact absurd hname ((Kept.tag ht : Kept policy es _ _ _).ne_name (.oneOf hu) hf)
  · generalize hkey : u.tag = key at hkept
    cases hkept with
    | undeclared _ hnot _ => exact absurd (hkey ▸ List.mem_cons_self) hnot
    | tag ht' => rw [Option.some.inj (ht.symm.trans ht')]

theorem fieldsOn_eq (h : Rebuilt defs policy es k r) (hk : k.Record) (hs : Shaped policy es k) :
    fieldsOn r k = fieldsOn es k := by
  cases hk with
  | object _ => rfl
  | oneOf hu =>
    obtain ⟨t, ht, _⟩ := hs.1 _ rfl
    rw [fieldsOn, fieldsOn, selected?, selected?, ht, h.tagOf? hu ht]

theorem kept (h : Rebuilt defs policy es k r) (hk : k.Record) (hx : r.get? key = some x)
    (hkept : Kept policy es k key x) : Kept policy r k key x := by
  cases hkept with
  | undeclared hp hkey _ => exact .undeclared hp hkey (Dict.mem_of_get?_eq_some hx)
  | tag ht =>
    cases hk with
    | oneOf hu => exact .tag (h.tagOf? hu ht)

theorem mem_of_kept (hkept : Kept policy r k key x) : (key, x) ∈ r := by
  cases hkept with
  | undeclared _ _ hx => exact hx
  | tag ht => exact Dict.mem_of_get?_eq_some (tagOf?_eq_some.mp ht).1

theorem get?_other_payload {u : TaggedUnion Node} {t : String} {c : Variant Node}
    (h : Rebuilt defs policy es (.oneOf u) r) (hu : u.Lawful) (ht : Walk.tagOf? u es = some t)
    (hc : c ∈ u.variants) (hne : c.tag ≠ t) : r.get? c.payload.name = none := by
  refine Option.eq_none_iff_forall_ne_some.mpr fun x hx => ?_
  rcases h.written _ x hx with ⟨f, hf, hname, _⟩ | hkept
  · obtain ⟨s, hs, rfl, hsel⟩ := exists_selected hu ht
    simp only [fieldsOn, hsel, Option.toList_some, List.map_cons, List.map_nil] at hf
    rcases List.mem_append.mp hf with hf | hf
    · exact hu.payload_notMem_common hc (hname ▸ List.mem_map.mpr ⟨f, hf, rfl⟩)
    · obtain rfl := List.mem_singleton.mp hf
      exact hne (congrArg _ (hu.payload_inj hc hs hname))
  · have hdeclared := TaggedUnion.payload_mem_allNames hc
    have htag := hu.payload_ne_tag hc
    generalize c.payload.name = key at hkept hdeclared htag
    cases hkept with
    | undeclared _ hnot _ => exact hnot hdeclared
    | tag _ => exact htag rfl

theorem shaped (h : Rebuilt defs policy es k r) (hk : k.Record) (hs : Shaped policy es k) :
    Shaped policy r k := by
  constructor
  · rintro u rfl
    obtain ⟨t, ht, _⟩ := hs.1 u rfl
    cases hk with
    | oneOf hu => exact ⟨t, h.tagOf? hu ht, fun c hc hne => h.get?_other_payload hu ht hc hne⟩
  · intro hp key hkey
    obtain ⟨x, hx⟩ := Option.isSome_iff_exists.mp (Dict.isSome_get?_iff.mpr hkey)
    rcases h.written key x hx with ⟨f, hf, rfl, _⟩ | hkept
    · exact name_mem_names hf
    · cases hkept with
      | undeclared hp' _ _ => simp [hp] at hp'
      | tag _ => exact List.mem_cons_self

theorem diagnostics_iff (h : Rebuilt defs policy es k r) (hk : k.Record)
    (hd : (value defs policy (.obj es) k).diagnostics = []) :
    (value defs policy (.obj r) k).diagnostics = [] ↔ ∀ f ∈ fieldsOn es k, ∀ x,
      entered? defs policy es f = some x → (value defs policy x f.node.kind).diagnostics = [] := by
  obtain ⟨hfields, hs⟩ := (diagnostics_record hk).mp hd
  simp only [diagnostics_record hk, h.shaped hk hs, and_true, h.fieldsOn_eq hk hs,
    diagnostics_field]
  refine forall_congr' fun f => forall_congr' fun hf => ?_
  rw [h.get?_name hk hf]
  refine and_iff_left fun he => ?_
  exact (diagnostics_field.mp (hfields f hf)).2 (entered?_eq_none.mp he).1

theorem result_iff (h : Rebuilt defs policy es k r) (hk : k.Record) (hs : Shaped policy es k) :
    (value defs policy (.obj r) k).result = .obj r ↔ ∀ f ∈ fieldsOn es k, ∀ x,
      entered? defs policy es f = some x → (value defs policy x f.node.kind).result = x := by
  obtain ⟨r', hr', h'⟩ := exists_rebuilt defs policy r hk
  have hfields := h.fieldsOn_eq hk hs
  rw [hr']
  constructor
  · rintro he f hf x hx
    obtain rfl := Json.obj.inj he
    have hname := h'.get?_name hk (hfields ▸ hf)
    rw [entered?, h.get?_name hk hf, hx] at hname
    exact (Option.some.inj hname).symm
  · intro hall
    -- Beside the fields the second walk keeps what the first has kept, so the fields decide.
    refine congrArg _ (h'.sorted.ext h.sorted fun key => ?_)
    by_cases hkey : ∃ f ∈ fieldsOn es k, key = f.name
    · obtain ⟨f, hf, rfl⟩ := hkey
      rw [h'.get?_name hk (hfields ▸ hf), entered?, h.get?_name hk hf]
      cases he : entered? defs policy es f with
      | none => exact (entered?_eq_none.mp he).2
      | some x => exact congrArg some (hall f hf x he)
    · simp only [not_exists, not_and] at hkey
      cases hg : r.get? key with
      | none =>
        refine Option.eq_none_iff_forall_ne_some.mpr fun x hx => ?_
        have hmem := mem_of_kept (h'.kept_of_get? hx (hfields ▸ hkey))
        rw [h.sorted.get?_of_mem hmem] at hg
        cases hg
      | some x =>
        have hkept := h.kept hk hg (h.kept_of_get? hg hkey)
        refine h'.found key x (.inr hkept) fun y hy => ?_
        rcases hy with ⟨f, hf, hname, _⟩ | hy
        · exact absurd hname (hkey f (hfields ▸ hf))
        · rw [h.sorted.get?_of_mem (mem_of_kept hy)] at hg
          exact Option.some.inj hg

end Rebuilt

end Walk

end SiteContent
