import SiteContent.Proofs.FieldViews

/-! Records of typed values beside objects and unions. A record agrees with the schema of an object
when its fields, in order, agree with those of the schema. The parts of a record are written in the
order of its fields and those of a stripped object stand in order of keys, so that they are compared
key by key. -/

namespace SiteContent

namespace Json

/-- The entries of the fields that are there. -/
def written (ps : List (String × Option Json)) : Dict Json :=
  ps.flatMap fun p => entryOfOption p.1 id p.2

@[simp] theorem written_nil : written [] = [] :=
  rfl

@[simp] theorem written_cons (p : String × Option Json) (ps : List (String × Option Json)) :
    written (p :: ps) = entryOfOption p.1 id p.2 ++ written ps :=
  List.flatMap_cons ..

theorem keys_written_sublist (ps : List (String × Option Json)) :
    (written ps).keys.Sublist (ps.map (·.1)) := by
  induction ps with
  | nil => exact .slnil
  | cons p ps ih =>
    obtain ⟨name, o⟩ := p
    rw [written_cons, Dict.keys, List.map_append]
    cases o with
    | none => exact ih.cons _
    | some v => exact ih.cons_cons _

theorem get?_written {ps : List (String × Option Json)} (h : (ps.map (·.1)).Nodup) {name : String}
    {o : Option Json} (hp : (name, o) ∈ ps) : (written ps).get? name = o := by
  induction ps with
  | nil => simp at hp
  | cons p ps ih =>
    obtain ⟨hnew, hps⟩ := List.nodup_cons.mp h
    rw [written_cons, Dict.get?_append, get?_entryOfOption]
    rcases List.mem_cons.mp hp with rfl | hp
    · have hrest : (written ps).get? name = none :=
        Dict.get?_eq_none_iff.mpr fun hmem => hnew ((keys_written_sublist ps).subset hmem)
      simp [hrest]
    · have hne : p.1 ≠ name := fun he => hnew (List.mem_map.mpr ⟨_, hp, he.symm⟩)
      simp [hne, ih hps hp]

theorem get?_written_of_not_mem {ps : List (String × Option Json)} {name : String}
    (h : name ∉ ps.map (·.1)) : (written ps).get? name = none :=
  Dict.get?_eq_none_iff.mpr fun hmem => h ((keys_written_sublist ps).subset hmem)

/-- Sorting keeps the values under their keys, when no key stands twice. -/
theorem get?_sorted {es : Dict Json} (h : es.keys.Nodup) (key : String) :
    (Dict.ofList (es.mapValues sorted)).get? key = (es.get? key).map sorted := by
  have hkeys : (es.mapValues sorted).keys = es.keys := by simp [Dict.keys, Dict.mapValues]
  rw [← Dict.get?_mapValues]
  cases hg : Dict.get? (es.mapValues sorted) key with
  | none =>
    refine Option.eq_none_iff_forall_ne_some.mpr fun x hx => ?_
    exact Dict.get?_eq_none_iff.mp hg (List.mem_map.mpr ⟨_, Dict.mem_of_get?_ofList hx, rfl⟩)
  | some x =>
    refine Dict.get?_ofList_of_unique (Dict.mem_of_get?_eq_some hg) fun y hy => ?_
    have hmem := Dict.mem_of_get?_eq_some hg
    have hnodup : ((es.mapValues sorted).map (·.1)).Nodup := by rwa [← hkeys] at h
    exact congrArg Prod.snd (List.inj_on_of_nodup_map hnodup hy hmem rfl)

end Json

namespace View

open Walk
open Location (below)
open Json (written)

section Records

variable {α γ : Type} {defs : Definitions} {policy : Policy} {lists : List Location}
  {k : Kind Node} {es r : Dict Json} {d : Decoder α} {encode : α → Json} {a : α}

theorem map_name_eq {fs : List (Field Node)} {gs : List FieldView}
    (h : FieldsMirror defs lists fs gs) :
    gs.map (·.name) = fs.map (·.name) := by
  induction h with
  | nil => rfl
  | cons hfield _ ih => exact congrArg₂ List.cons hfield.1 ih

theorem exists_values {fs : List (Field Node)} {gs : List FieldView}
    (h : FieldsMirror defs lists fs gs)
    (hs : ∀ f ∈ fs, Supplied defs policy es r f) {x : Record (Maker γ gs)} {m : Maker γ gs}
    (hx : x.read r = .ok m) : ∃ as : Values gs, (chain gs x).read r = .ok (make gs m as) ∧
      ∀ f ∈ fs, ∃ o, (f.name, o) ∈ parts gs as ∧ Shown defs lists es f o := by
  induction h with
  | nil => exact ⟨(), hx, by simp⟩
  | @cons f g fs gs hfield _ ih =>
    obtain ⟨hf, hfs⟩ := List.forall_mem_cons.mp hs
    obtain ⟨a, ha, hshown⟩ := hfield.2 policy es r hf
    obtain ⟨as, has, hall⟩ := ih hfs (Record.read_seq hx ha)
    refine ⟨(a, as), has, List.forall_mem_cons.mpr ⟨?_, fun f hf => ?_⟩⟩
    · exact ⟨g.entry? a, hfield.1 ▸ List.mem_cons_self, hshown⟩
    · obtain ⟨o, ho, hf⟩ := hall f hf
      exact ⟨o, List.mem_cons_of_mem _ ho, hf⟩

/-- The parts of a record are those of an object: each field, and the tag of a union. -/
structure Covers (defs : Definitions) (lists : List Location) (es : Dict Json) (k : Kind Node)
    (ps : List (String × Option Json)) : Prop where
  distinct : (ps.map (·.1)).Nodup
  fields : ∀ f ∈ fieldsOn es k, ∃ o, (f.name, o) ∈ ps ∧ Shown defs lists es f o
  tag : ∀ u t, k = .oneOf u → tagOf? u es = some t → (u.tag, some (.str t)) ∈ ps
  names : ∀ name ∈ ps.map (·.1), (∀ f ∈ fieldsOn es k, name ≠ f.name) →
    ∃ u, k = .oneOf u ∧ name = u.tag

theorem Covers.object {s : Schema} {ps : List (String × Option Json)} (hs : s.names.Nodup)
    (hnames : ps.map (·.1) = s.names)
    (hshown : ∀ f ∈ s.fields, ∃ o, (f.name, o) ∈ ps ∧ Shown defs lists es f o) :
    Covers defs lists es (.object s) ps := by
  refine ⟨hnames ▸ hs, hshown, nofun, fun name hname hne => ?_⟩
  obtain ⟨f, hf, rfl⟩ := List.mem_map.mp (hnames ▸ hname)
  exact absurd rfl (hne f hf)

theorem fieldsOn_of_tagOf? {u : TaggedUnion Node} {c : Variant Node} (hu : u.Lawful)
    (hc : c ∈ u.variants) (ht : tagOf? u es = some c.tag) :
    fieldsOn es (.oneOf u) = u.common.fields ++ [c.payload] := by
  simp [fieldsOn, selected?_eq_some hu hc ht]

theorem Covers.oneOf {u : TaggedUnion Node} {c : Variant Node} {ps : List (String × Option Json)}
    {o : Option Json} (hu : u.Lawful) (hc : c ∈ u.variants) (ht : tagOf? u es = some c.tag)
    (hnames : ps.map (·.1) = u.common.names)
    (hshown : ∀ f ∈ u.common.fields, ∃ o, (f.name, o) ∈ ps ∧ Shown defs lists es f o)
    (hpayload : Shown defs lists es c.payload o) :
    Covers defs lists es (.oneOf u)
      (ps ++ [(u.tag, some (.str c.tag)), (c.payload.name, o)]) := by
  have hfields := fieldsOn_of_tagOf? hu hc ht
  have hdistinct : (u.tag :: (u.common.names ++ [c.payload.name])).Nodup := by
    refine hu.names_distinct.sublist (((List.Sublist.refl _).append ?_).cons_cons _)
    exact List.singleton_sublist.mpr (List.mem_map.mpr ⟨c, hc, rfl⟩)
  refine ⟨?_, ?_, ?_, ?_⟩
  · rw [List.map_append, hnames]
    exact List.perm_middle.nodup_iff.mpr hdistinct
  · rw [hfields]
    refine List.forall_mem_append.mpr ⟨fun f hf => ?_, List.forall_mem_singleton.mpr ?_⟩
    · obtain ⟨p, hp, hf⟩ := hshown f hf
      exact ⟨p, List.mem_append_left _ hp, hf⟩
    · exact ⟨o, by simp, hpayload⟩
  · rintro _ t ⟨⟩ ht'
    obtain rfl := Option.some.inj (ht.symm.trans ht')
    simp
  · intro name hname hne
    rw [hfields] at hne
    rw [List.map_append, hnames] at hname
    rcases List.mem_append.mp hname with hname | hname
    · obtain ⟨f, hf, rfl⟩ := List.mem_map.mp hname
      exact absurd rfl (hne f (List.mem_append_left _ hf))
    · have hother : name ≠ c.payload.name := hne c.payload (by simp)
      exact ⟨u, rfl, by simpa [hother] using hname⟩

theorem Covers.sorted_written {ps : List (String × Option Json)} (h : Covers defs lists es k ps)
    (hk : k.Record) (hs : Shaped policy es k) (hr : Rebuilt defs .strip es k r)
    (htag : ∀ u, k = .oneOf u → below u.tag lists = []) :
    (Json.obj (written ps)).sorted = (Json.obj r).dropEmpty lists := by
  rw [Json.sorted_obj, Json.dropEmpty_obj]
  refine congrArg Json.obj ((Dict.sorted_ofList _).ext (Json.sorted_pruneEntries hr.sorted)
    fun key => ?_)
  rw [Json.get?_sorted (h.distinct.sublist (Json.keys_written_sublist ps))]
  by_cases hkey : ∃ f ∈ fieldsOn es k, key = f.name
  · obtain ⟨f, hf, rfl⟩ := hkey
    obtain ⟨o, ho, hshown⟩ := h.fields f hf
    rw [Json.get?_written h.distinct ho, hshown.left, hr.get?_trimmed_name hk hf]
  · simp only [not_exists, not_and] at hkey
    -- Beside the fields both sides hold the tag of a union and nothing else.
    by_cases hmem : key ∈ ps.map (·.1)
    · obtain ⟨u, rfl, rfl⟩ := h.names key hmem hkey
      obtain ⟨t, ht, _⟩ := hs.1 u rfl
      rw [Json.get?_written h.distinct (h.tag u t rfl ht)]
      have hnames : u.tag ∈ (Kind.oneOf u).names := List.mem_cons_self
      exact ((hr.get?_trimmed_declared hk htag hnames hkey).mpr ⟨u, t, rfl, rfl, ht, rfl⟩).symm
    · rw [Json.get?_written_of_not_mem hmem]
      refine Eq.symm (Option.eq_none_iff_forall_ne_some.mpr fun x hx => ?_)
      by_cases hnames : key ∈ k.names
      · obtain ⟨u, t, hu, rfl, ht, _⟩ := (hr.get?_trimmed_declared hk htag hnames hkey).mp hx
        exact hmem (List.mem_map.mpr ⟨_, h.tag u t hu ht, rfl⟩)
      · rw [hr.get?_trimmed_undeclared hnames] at hx
        cases hx

theorem Covers.typed {ps : List (String × Option Json)} (h : Covers defs lists es k ps)
    (hk : k.Record) (hs : Shaped policy es k)
    (htag : ∀ u, k = .oneOf u → below u.tag lists = [])
    (hdecode : d (value defs policy (.obj es) k).result = .ok a)
    (hencode : encode a = .obj (written ps)) :
    Typed defs policy lists (.obj es) k d encode a := by
  obtain ⟨r, hr, hrebuilt⟩ := exists_rebuilt defs .strip es hk
  have hencoded : (encode a).sorted = (value defs .strip (.obj es) k).result.dropEmpty lists := by
    rw [hencode, hr, h.sorted_written hk hs hrebuilt htag]
  refine ⟨hdecode, hencoded, ?_⟩
  rw [hencoded, hr]
  refine hrebuilt.settled_trimmed hk hs htag fun f hf => ?_
  obtain ⟨o, _, hshown⟩ := h.fields f hf
  rw [← hshown.left]
  refine ⟨fun x hx => ?_, fun hn => hshown.absent (Option.map_eq_none_iff.mp hn)⟩
  obtain ⟨v, hv, rfl⟩ := Option.map_eq_some_iff.mp hx
  exact hshown.settled v hv

namespace Mirrors

/-- Fields are compared in their order: that of the schema is that of the record. -/
theorem object {s : Schema} {gs : List FieldView} (d : Decoder α) (encode : α → Json)
    (h : FieldsMirror defs lists s.fields gs) (m : Maker α gs)
    (hs : s.names.Nodup) {name : String} (hdecode : d = (chain gs (pure m)).decode name)
    (hencode : ∀ as, encode (make gs m as) = .obj (written (parts gs as))) :
    Mirrors defs lists (.object s) d encode := by
  intro policy v hv
  have hk : (Kind.object s).Record := .object hs
  cases hv with
  | @object es _ hpresent habsent hkeys =>
    obtain ⟨r, hr, hrebuilt⟩ := exists_rebuilt defs policy es hk
    obtain ⟨as, has, hshown⟩ := exists_values h
      (fun f hf => ⟨hpresent f hf, habsent f hf, hrebuilt.get?_name hk hf⟩) Record.read_pure
    have hcovers := Covers.object hs ((map_fst_parts gs as).trans (map_name_eq h)) hshown
    refine ⟨by simp [hr], _, hcovers.typed hk ⟨nofun, hkeys⟩ nofun ?_ (hencode as)⟩
    rw [hr, hdecode]
    exact Record.decode_obj has

/-- A case of a union agrees with a case of a type: its body is read from the payload, and written
behind the tag. -/
def OfCase (defs : Definitions) {β : Type} (u : TaggedUnion Node) (gs : List FieldView)
    (m : Maker (β → α) gs) (d : Decoder α) (encode : α → Json) (c : Variant Node) : Prop :=
  ∃ (g : FieldView) (body : g.type → β), FieldView.Mirrors defs [] c.payload g ∧
    (∀ r f x, (chain gs (pure m)).read r = .ok f → Dict.get? r u.tag = some (.str c.tag) →
      g.record.read r = .ok x → d (.obj r) = .ok (f (body x))) ∧
    ∀ as x, encode (make gs m as (body x)) =
      .obj (written (parts gs as ++ [(u.tag, some (.str c.tag)), (g.name, g.entry? x)]))

theorem oneOf {u : TaggedUnion Node} {β : Type} {gs : List FieldView} (d : Decoder α)
    (encode : α → Json) (h : FieldsMirror defs [] u.common.fields gs)
    (m : Maker (β → α) gs)
    (hcases : ∀ c ∈ u.variants, OfCase defs u gs m d encode c) (hu : u.Lawful) :
    Mirrors defs [] (.oneOf u) d encode := by
  intro policy v hv
  have hk : (Kind.oneOf u).Record := .oneOf hu
  cases hv with
  | @oneOf es _ c hc hmem hget hpresent habsent hothers hkeys =>
    have ht : tagOf? u es = some c.tag := tagOf?_eq_some.mpr ⟨hget, hmem⟩
    obtain ⟨g, body, hg, hread, hencode⟩ := hcases c hc
    obtain ⟨r, hr, hrebuilt⟩ := exists_rebuilt defs policy es hk
    have hsupplied : ∀ f ∈ u.common.fields ++ [c.payload], Supplied defs policy es r f :=
      fun f hf => ⟨hpresent f hf, habsent f hf,
        hrebuilt.get?_name hk (fieldsOn_of_tagOf? hu hc ht ▸ hf)⟩
    obtain ⟨hcommon, hpayload⟩ := List.forall_mem_append.mp hsupplied
    obtain ⟨as, has, hshown⟩ := exists_values h hcommon (Record.read_pure (a := m))
    obtain ⟨x, hx, hpart⟩ := hg.2 policy es r (hpayload _ List.mem_cons_self)
    have hcovers := Covers.oneOf hu hc ht ((map_fst_parts gs as).trans (map_name_eq h)) hshown hpart
    rw [← hg.1] at hcovers
    refine ⟨by simp [hr], _, hcovers.typed hk ⟨?_, hkeys⟩ (fun _ _ => rfl) ?_ (hencode as x)⟩
    · rintro _ ⟨⟩
      exact ⟨c.tag, ht, hothers⟩
    · rw [hr]
      exact hread r _ x has (tagOf?_eq_some.mp (hrebuilt.tagOf? hu ht)).1 hx

end Mirrors

end Records

end View

end SiteContent
