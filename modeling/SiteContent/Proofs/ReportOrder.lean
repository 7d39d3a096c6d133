import Mathlib.Data.List.Nodup
import Mathlib.Data.List.Perm.Basic
import SiteContent.Proofs.AuthoredContent
import SiteContent.Proofs.Faults

/-! In which order a validation reports. Places are compared where they part: by the order in which
a schema names the keys, which is not the order of the keys in the document. -/

namespace SiteContent

namespace Walk

open Relation

/-- The cases of a union as an object makes them come: the selected one, then the others. -/
def caseOrder (u : TaggedUnion Node) (es : Dict Json) : List (Variant Node) :=
  match selected? u es with
  | some c => c :: u.variants.filter fun v => v.tag ≠ c.tag
  | none => u.variants

def orderedNames (es : Dict Json) : Kind Node → List String
  | .object s => s.names
  | .oneOf u => u.common.names ++ u.tag :: (caseOrder u es).map (·.payload.name)
  | _ => []

/-- One step out of a value comes before another. Keys that are not declared come last, in the order
of texts. -/
inductive StepBefore : Json → Kind Node → Step → Step → Prop
  | index {vs : List Json} {items : Node} {nonEmpty : Bool} {i j : Nat} :
      i < j → StepBefore (.arr vs) (.array items nonEmpty) (.index i) (.index j)
  | declared {es : Dict Json} {k : Kind Node} {a b : String} :
      a ∈ orderedNames es k → (orderedNames es k).idxOf a < (orderedNames es k).idxOf b →
      StepBefore (.obj es) k (.key a) (.key b)
  | undeclared {es : Dict Json} {k : Kind Node} {a b : String} :
      k.isKeyed = true → a ∉ orderedNames es k → b ∉ orderedNames es k → a < b →
      StepBefore (.obj es) k (.key a) (.key b)

/-- One location comes before another: their first steps that differ are in order, seen from the
place where they part. -/
inductive Precedes (defs : Definitions) : Json → Kind Node → Location → Location → Prop
  | forward {v : Json} {k l : Kind Node} {p q : Location} :
      defs.Forwards k l → Precedes defs v l p q → Precedes defs v k p q
  | here {v : Json} {k : Kind Node} {s t : Step} {p q : Location} :
      StepBefore v k s t → Precedes defs v k (s :: p) (t :: q)
  | inside {v w : Json} {k l : Kind Node} {s : Step} {p q : Location} :
      Inside v k s w l → Precedes defs w l p q → Precedes defs v k (s :: p) (s :: q)

variable {defs : Definitions} {policy : Policy} {v w x : Json} {k l m : Kind Node} {s t : Step}
  {p q r : Location} {es : Dict Json} {u : TaggedUnion Node}

section Order

theorem StepBefore.ne (h : StepBefore v k s t) : s ≠ t := by
  rintro rfl
  cases h with
  | index hij => exact Nat.lt_irrefl _ hij
  | declared _ hab => exact Nat.lt_irrefl _ hab
  | undeclared _ _ _ hab => exact String.lt_irrefl _ hab

theorem StepBefore.trans {t' : Step} (h : StepBefore v k s t) (h' : StepBefore v k t t') :
    StepBefore v k s t' := by
  cases h with
  | index hij =>
    cases h' with
    | index hjk => exact .index (hij.trans hjk)
  | declared ha hab =>
    cases h' with
    | declared _ hbc => exact .declared ha (hab.trans hbc)
    | undeclared _ hb hc _ =>
      refine .declared ha (hab.trans_eq ?_)
      rw [List.idxOf_eq_length_iff.mpr hb, List.idxOf_eq_length_iff.mpr hc]
  | undeclared hk ha hb hab =>
    cases h' with
    | declared hb' _ => exact absurd hb' hb
    | undeclared _ _ hc hbc => exact .undeclared hk ha hc (String.lt_trans hab hbc)

theorem not_stepBefore_of_forwards (hf : defs.Forwards k l) : ¬ StepBefore v k s t := by
  intro h
  cases hf with
  | intro _ =>
    cases h with
    | declared ha _ => simp [orderedNames] at ha
    | undeclared hk _ _ _ => simp [Kind.isKeyed] at hk

theorem not_inside_of_forwards (hf : defs.Forwards k l) : ¬ Inside v k s w m := by
  intro h
  cases hf with
  | intro _ =>
    cases h with
    | field hf _ => simp [fieldsOn] at hf

theorem Precedes.not_prefix (h : Precedes defs v k p q) : ¬ p <+: q ∧ ¬ q <+: p := by
  induction h with
  | forward _ _ ih => exact ih
  | here hs =>
    simp only [List.cons_prefix_cons, not_and]
    exact ⟨fun he => absurd he hs.ne, fun he => absurd he.symm hs.ne⟩
  | inside _ _ ih => simpa [List.cons_prefix_cons] using ih

theorem Precedes.ne (h : Precedes defs v k p q) : p ≠ q := by
  rintro rfl
  exact h.not_prefix.1 (List.prefix_refl p)

theorem Precedes.of_forwards (hf : ReflTransGen defs.Forwards k l) (h : Precedes defs v l p q) :
    Precedes defs v k p q := by
  induction hf using ReflTransGen.head_induction_on with
  | refl => exact h
  | head hs _ ih => exact .forward hs ih

theorem Inside.unique (hi : Inside v k s w l) (hi' : Inside v k s x m)
    (hk : k.isKeyed = true → k.Record) : w = x ∧ l = m := by
  refine ⟨Option.some.inj (hi.child?.symm.trans hi'.child?), ?_⟩
  generalize hs : s = s' at hi'
  cases hi with
  | field hf _ =>
    cases hi' with
    | field hg _ =>
      have hrecord := hk (isKeyed_of_mem_fieldsOn hf)
      rw [List.inj_on_of_nodup_map (fieldsOn_distinct hrecord) hf hg (Step.key.inj hs)]
    | tag _ => exact absurd (Step.key.inj hs) (name_ne_tag (hk rfl) hf)
    | entry _ => simp [fieldsOn] at hf
  | tag _ =>
    cases hi' with
    | field hg _ => exact absurd (Step.key.inj hs).symm (name_ne_tag (hk rfl) hg)
    | tag _ => rfl
  | item _ =>
    cases hi' with
    | item _ => rfl
  | entry _ =>
    cases hi' with
    | field hg _ => simp [fieldsOn] at hg
    | entry _ => rfl
  | element _ =>
    cases hi' with
    | element _ => rfl

end Order

section Sections

variable {c : Variant Node} {ds : List Diagnostic} {f : Field Node} {members : Dict Walker}
  {known : String → Bool} {name : String}

theorem perm_caseOrder (hu : u.Lawful) (es : Dict Json) : (caseOrder u es).Perm u.variants := by
  rw [caseOrder]
  cases hsel : selected? u es with
  | none => exact .refl _
  | some c =>
    -- Tags are distinct: what goes out by the tag of the selected case is that case alone.
    have hc : c ∈ u.variants := (selected?_spec hsel).1
    have hsame : ∀ v ∈ u.variants, v.tag = c.tag → v = c :=
      fun v hv he => List.inj_on_of_nodup_map hu.tags_distinct hv hc he
    have hnd : u.variants.Nodup := .of_map _ hu.tags_distinct
    have hnd' : (c :: u.variants.filter fun v => v.tag ≠ c.tag).Nodup :=
      List.nodup_cons.mpr ⟨by simp, hnd.filter _⟩
    refine (List.perm_ext_iff_of_nodup hnd' hnd).mpr fun v => ?_
    simp only [List.mem_cons, List.mem_filter, decide_eq_true_eq]
    constructor
    · rintro (rfl | ⟨hv, _⟩)
      · exact hc
      · exact hv
    · intro hv
      by_cases he : v.tag = c.tag
      · exact .inl (hsame v hv he)
      · exact .inr ⟨hv, he⟩

theorem names_nodup (hk : k.Record) : k.names.Nodup := by
  cases hk with
  | object hs => exact hs
  | oneOf hu => exact hu.names_distinct

theorem perm_orderedNames (hk : k.Record) (es : Dict Json) : (orderedNames es k).Perm k.names := by
  cases hk with
  | object _ => exact .refl _
  | @oneOf u hu =>
    have hpayloads := (perm_caseOrder hu es).map (·.payload.name)
    exact ((hpayloads.cons u.tag).append_left _).trans List.perm_middle

/-- What is found under a name that a kind gives. -/
def fieldSection (members : Dict Walker) (f : Field Node) : String × List Diagnostic :=
  (f.name, (field members f).diagnostics)

def forbiddenSection (u : TaggedUnion Node) (c v : Variant Node) : String × List Diagnostic :=
  (v.payload.name, [⟨[.key v.payload.name], .forbiddenField u.tag c.tag⟩])

def caseSections (u : TaggedUnion Node) (es : Dict Json) (members : Dict Walker) :
    List (String × List Diagnostic) :=
  match selected? u es with
  | some c =>
    fieldSection members c.payload ::
      (u.variants.filter fun v => v.tag ≠ c.tag && members.contains v.payload.name).map
        (forbiddenSection u c)
  | none => []

def sections (es : Dict Json) (members : Dict Walker) : Kind Node → List (String × List Diagnostic)
  | .object s => s.fields.map (fieldSection members)
  | .oneOf u =>
    u.common.fields.map (fieldSection members) ++
      (u.tag, (tag u es).diagnostics) :: caseSections u es members
  | _ => []

theorem diagnostics_object_eq {s : Schema} : (object policy s es members).diagnostics =
    (sections es members (.object s)).flatMap (·.2) ++
      (undeclared policy s.contains es).diagnostics := by
  simp only [object, sections, fieldSection, diagnostics_assemble_append, diagnostics_assemble_map,
    diagnostics_assemble_singleton, List.flatMap_map]

theorem diagnostics_union_eq : (union policy u es members).diagnostics =
    (sections es members (.oneOf u)).flatMap (·.2) ++
      (undeclared policy u.knows es).diagnostics := by
  have hcases : (assemble (((selected? u es).map (payloads u members)).getD [])).diagnostics =
      (caseSections u es members).flatMap (·.2) := by
    rw [caseSections]
    cases selected? u es with
    | none => rfl
    | some c =>
      simp only [Option.map_some, Option.getD_some, payloads, diagnostics_assemble_cons,
        diagnostics_assemble_map, List.flatMap_cons, List.flatMap_map, fieldSection,
        forbiddenSection, Walked.report]
  simp only [union, sections, fieldSection, diagnostics_assemble_append, diagnostics_assemble_map,
    diagnostics_assemble_singleton, List.flatMap_append, List.flatMap_cons, List.flatMap_map,
    List.append_assoc]
  rw [← selected?, hcases]

theorem names_sections_sublist :
    ((sections es members k).map (·.1)).Sublist (orderedNames es k) := by
  cases k with
  | object s =>
    simp only [sections, List.map_map]
    exact .refl _
  | oneOf u =>
    have hcases : ((caseSections u es members).map (·.1)).Sublist
        ((caseOrder u es).map (·.payload.name)) := by
      rw [caseSections, caseOrder]
      cases selected? u es with
      | none => exact List.nil_sublist _
      | some c =>
        simp only [List.map_cons, List.map_map, ← List.filter_filter]
        exact ((List.filter_sublist.filter _).map _).cons_cons _
    simp only [sections, List.map_append, List.map_map, List.map_cons]
    exact (hcases.cons_cons u.tag).append_left _
  | _ => exact List.nil_sublist _

def InOrder (defs : Definitions) (v : Json) (k : Kind Node) (ds : List Diagnostic) : Prop :=
  ds.Pairwise fun d e => Precedes defs v k d.location e.location

structure SectionOf (defs : Definitions) (es : Dict Json) (k : Kind Node) (name : String)
    (ds : List Diagnostic) : Prop where
  below : ∀ d ∈ ds, ∃ p, d.location = .key name :: p
  inOrder : InOrder defs (.obj es) k ds

theorem InOrder.under (hi : Inside v k s w l) (h : InOrder defs w l ds) :
    InOrder defs v k (ds.map (·.under s)) :=
  List.pairwise_map.mpr (h.imp fun hde => .inside hi hde)

theorem sectionOf_singleton {cause : Cause} : SectionOf defs es k name [⟨[.key name], cause⟩] := by
  constructor
  case below => simp
  case inOrder => exact List.pairwise_singleton _ _

theorem sectionOf_nil : SectionOf defs es k name [] := by
  constructor
  case below => simp
  case inOrder => exact .nil

theorem sectionOf_field (hf : f ∈ fieldsOn es k) (h : ∀ w, es.get? f.name = some w →
      InOrder defs w f.node.kind (value defs policy w f.node.kind).diagnostics) :
    SectionOf defs es k f.name (field (es.mapValues (value defs policy)) f).diagnostics := by
  rw [field, Dict.get?_mapValues]
  cases hw : es.get? f.name with
  | some w =>
    constructor
    case below => simp [Walked.map, Walked.under, Diagnostic.under]
    case inOrder => exact (h w hw).under (.field hf hw)
  | none =>
    cases f.node.default with
    | some d => exact sectionOf_nil
    | none =>
      by_cases hr : f.node.required = true
      · simp only [Option.map_none, hr, if_true]
        exact sectionOf_singleton
      · simp only [Option.map_none, hr]
        exact sectionOf_nil

theorem sectionOf_tag : SectionOf defs es (.oneOf u) u.tag (tag u es).diagnostics := by
  rcases tag_cases u es with ⟨t, _, he⟩ | ⟨_, cause, he⟩
  · rw [he]
    exact sectionOf_nil
  · rw [he]
    exact sectionOf_singleton

theorem sectionOf_of_mem_sections {x : String × List Diagnostic}
    (h : ∀ f ∈ fieldsOn es k, ∀ w, es.get? f.name = some w →
      InOrder defs w f.node.kind (value defs policy w f.node.kind).diagnostics)
    (hx : x ∈ sections es (es.mapValues (value defs policy)) k) :
    SectionOf defs es k x.1 x.2 := by
  cases k with
  | object s =>
    obtain ⟨f, hf, rfl⟩ := List.mem_map.mp hx
    exact sectionOf_field hf (h f hf)
  | oneOf u =>
    rcases List.mem_append.mp hx with hx | hx
    · obtain ⟨f, hf, rfl⟩ := List.mem_map.mp hx
      have hf' : f ∈ fieldsOn es (.oneOf u) := List.mem_append_left _ hf
      exact sectionOf_field hf' (h f hf')
    rcases List.mem_cons.mp hx with rfl | hx
    · exact sectionOf_tag
    rw [caseSections] at hx
    cases hsel : selected? u es with
    | none => simp [hsel] at hx
    | some c =>
      rw [hsel] at hx
      rcases List.mem_cons.mp hx with rfl | hx
      · have hc : c.payload ∈ fieldsOn es (.oneOf u) := by simp [fieldsOn, hsel]
        exact sectionOf_field hc (h _ hc)
      · obtain ⟨v, _, rfl⟩ := List.mem_map.mp hx
        exact sectionOf_singleton
  | _ => simp [sections] at hx

theorem idxOf_lt_of_nodup {names : List String} (h : names.Nodup) :
    names.Pairwise fun a b => names.idxOf a < names.idxOf b := by
  refine List.pairwise_iff_getElem.mpr fun i j hi hj hij => ?_
  rw [h.idxOf_getElem i hi, h.idxOf_getElem j hj]
  exact hij

theorem inOrder_sections {parts : List (String × List Diagnostic)} (hk : k.Record)
    (hnames : (parts.map (·.1)).Sublist (orderedNames es k))
    (hparts : ∀ x ∈ parts, SectionOf defs es k x.1 x.2) :
    InOrder defs (.obj es) k (parts.flatMap (·.2)) := by
  have hdistinct : (orderedNames es k).Nodup :=
    (perm_orderedNames hk es).nodup_iff.mpr (names_nodup hk)
  have hnumbered := (idxOf_lt_of_nodup hdistinct).sublist hnames
  rw [List.pairwise_map] at hnumbered
  refine List.pairwise_flatMap.mpr ⟨fun x hx => (hparts x hx).inOrder, ?_⟩
  refine hnumbered.imp_of_mem fun {x y} hx hy hxy d hd e he => ?_
  obtain ⟨p, hp⟩ := (hparts x hx).below d hd
  obtain ⟨q, hq⟩ := (hparts y hy).below e he
  rw [hp, hq]
  exact .here (.declared (hnames.subset (List.mem_map.mpr ⟨x, hx, rfl⟩)) hxy)

theorem inOrder_undeclared (hkeyed : k.isKeyed = true) (hes : Dict.Sorted es)
    (hknown : ∀ key, known key = false → key ∉ orderedNames es k) :
    InOrder defs (.obj es) k (undeclared policy known es).diagnostics := by
  cases policy with
  | reject =>
    refine List.pairwise_map.mpr ((List.Pairwise.filter _ hes).imp_of_mem fun {x y} hx hy hxy => ?_)
    have hunknown : ∀ e ∈ es.filter (fun e => !known e.1), e.1 ∉ orderedNames es k :=
      fun e he => hknown e.1 (by simpa using (List.mem_filter.mp he).2)
    exact .here (.undeclared hkeyed (hunknown x hx) (hunknown y hy) hxy)
  | _ => exact .nil

/-- In an object the declared names come first, then the other keys. -/
theorem inOrder_record (hk : k.Record) (hkeyed : k.isKeyed = true) (hes : Dict.Sorted es)
    (hknown : ∀ key, known key = false → key ∉ k.names)
    (h : ∀ f ∈ fieldsOn es k, ∀ w, es.get? f.name = some w →
      InOrder defs w f.node.kind (value defs policy w f.node.kind).diagnostics) :
    InOrder defs (.obj es) k ((sections es (es.mapValues (value defs policy)) k).flatMap (·.2) ++
      (undeclared policy known es).diagnostics) := by
  have hnames : ((sections es (es.mapValues (value defs policy)) k).map (·.1)).Sublist
      (orderedNames es k) := names_sections_sublist
  have hparts := fun x hx => sectionOf_of_mem_sections (x := x) h hx
  have hknown' : ∀ key, known key = false → key ∉ orderedNames es k :=
    fun key hkey hmem => hknown key hkey ((perm_orderedNames hk es).mem_iff.mp hmem)
  refine List.pairwise_append.mpr
    ⟨inOrder_sections hk hnames hparts, inOrder_undeclared hkeyed hes hknown', ?_⟩
  intro d hd e he
  obtain ⟨x, hx, hd⟩ := List.mem_flatMap.mp hd
  obtain ⟨p, hp⟩ := (hparts x hx).below d hd
  obtain ⟨_, key, _, _, hkey, rfl⟩ := mem_diagnostics_undeclared.mp he
  have hdeclared : x.1 ∈ orderedNames es k := hnames.subset (List.mem_map.mpr ⟨x, hx, rfl⟩)
  rw [hp]
  refine .here (.declared hdeclared ?_)
  rw [List.idxOf_eq_length_iff.mpr (hknown' key hkey)]
  exact List.idxOf_lt_length_iff.mpr hdeclared

theorem inOrder_object {s : Schema} (hs : s.names.Nodup) (hes : Dict.Sorted es)
    (h : ∀ f ∈ s.fields, ∀ w, es.get? f.name = some w →
      InOrder defs w f.node.kind (value defs policy w f.node.kind).diagnostics) :
    InOrder defs (.obj es) (.object s)
      (object policy s es (es.mapValues (value defs policy))).diagnostics := by
  have hknown : ∀ key, s.contains key = false → key ∉ s.names :=
    fun key hkey hmem => Bool.eq_false_iff.mp hkey (Shape.contains_iff.mpr hmem)
  rw [diagnostics_object_eq]
  exact inOrder_record (.object hs) rfl hes hknown h

theorem inOrder_union (hu : u.Lawful) (hes : Dict.Sorted es)
    (h : ∀ f ∈ fieldsOn es (.oneOf u), ∀ w, es.get? f.name = some w →
      InOrder defs w f.node.kind (value defs policy w f.node.kind).diagnostics) :
    InOrder defs (.obj es) (.oneOf u)
      (union policy u es (es.mapValues (value defs policy))).diagnostics := by
  have hknown : ∀ key, u.knows key = false → key ∉ u.allNames :=
    fun key hkey hmem => Bool.eq_false_iff.mp hkey (TaggedUnion.knows_iff.mpr hmem)
  rw [diagnostics_union_eq]
  exact inOrder_record (.oneOf hu) rfl hes hknown h

theorem inOrder_array {vs : List Json} {items : Node} {nonEmpty : Bool}
    (h : ∀ w ∈ vs, InOrder defs w items.kind (value defs policy w items.kind).diagnostics) :
    InOrder defs (.arr vs) (.array items nonEmpty)
      (array items nonEmpty (vs.map (value defs policy))).diagnostics := by
  have hitems : InOrder defs (.arr vs) (.array items nonEmpty)
      (Walked.all (itemWalks defs policy items vs)).diagnostics := by
    have hindices : vs.zipIdx.Pairwise fun x y => x.2 < y.2 := by
      have hrange : (vs.zipIdx.map (·.2)).Pairwise (· < ·) := by
        rw [List.zipIdx_map_snd]
        exact List.pairwise_lt_range'
      exact List.pairwise_map.mp hrange
    simp only [Walked.all, itemWalks, List.flatMap_map]
    refine List.pairwise_flatMap.mpr ⟨fun x hx => ?_, hindices.imp fun hxy d hd e he => ?_⟩
    · have hitem : vs[x.2]? = some x.1 := List.mem_zipIdx_iff_getElem?.mp hx
      exact (h x.1 (List.mem_of_getElem? hitem)).under (.item hitem)
    · obtain ⟨d, _, rfl⟩ := List.mem_map.mp hd
      obtain ⟨e, _, rfl⟩ := List.mem_map.mp he
      exact .here (.index hxy)
  rw [array_eq]
  dsimp only
  split
  · rename_i hempty
    obtain ⟨_, hvs⟩ := Bool.and_eq_true_iff.mp hempty
    obtain rfl := List.isEmpty_iff.mp hvs
    exact List.pairwise_singleton _ _
  · exact hitems

theorem diagnostics_answer_scalar {elements : List Walker} (hv : v.isScalar = true) :
    (answer policy v elements members k).diagnostics = [] ∨
      ∃ d, (answer policy v elements members k).diagnostics = [d] := by
  cases v with
  | arr vs => cases hv
  | obj es => cases hv
  | str s =>
    cases k with
    | string nonEmpty =>
      simp only [answer]
      split
      · exact .inr ⟨_, rfl⟩
      · exact .inl rfl
    | enumeration e =>
      simp only [answer]
      split
      · exact .inl rfl
      · exact .inr ⟨_, rfl⟩
    | any => exact .inl rfl
    | _ => exact .inr ⟨_, rfl⟩
  | bool b =>
    cases k with
    | boolean | any => exact .inl rfl
    | _ => exact .inr ⟨_, rfl⟩
  | num n =>
    cases k with
    | number | any => exact .inl rfl
    | _ => exact .inr ⟨_, rfl⟩
  | null =>
    cases k with
    | any => exact .inl rfl
    | _ => exact .inr ⟨_, rfl⟩

theorem inOrder_of_parts (hk : k.isKeyed = true → k.Record) (ht : k.target? = none)
    (hv : v.Canonical)
    (h : ∀ w l, Descends v k w l → InOrder defs w l (value defs policy w l).diagnostics) :
    InOrder defs v k (value defs policy v k).diagnostics := by
  have hone : ∀ d, InOrder defs v k [d] := List.pairwise_singleton _
  rw [value_of_target?_eq_none ht]
  by_cases hscalar : v.isScalar = true
  · rcases diagnostics_answer_scalar hscalar with he | ⟨d, he⟩
    · rw [he]
      exact .nil
    · rw [he]
      exact hone d
  cases v with
  | obj es =>
    cases k with
    | object s =>
      cases hk rfl with
      | object hs => exact inOrder_object hs hv.1 fun f hf w hw => h w _ (.field hf hw)
    | oneOf u =>
      cases hk rfl with
      | oneOf hu => exact inOrder_union hu hv.1 fun f hf w hw => h w _ (.field hf hw)
    | any => exact .nil
    | _ => exact hone _
  | arr vs =>
    cases k with
    | array items nonEmpty => exact inOrder_array fun w hw => h w _ (.item hw)
    | any => exact .nil
    | _ => exact hone _
  | _ => exact absurd rfl hscalar

end Sections

end Walk

open Walk

namespace SchemaGraph

variable {defs : Definitions} {root : Schema} {policy : Policy} {v : Json} {k : Kind Node}
  {p q r : Location}

theorem WellFormed.precedes_trans (h : WellFormed defs root) (ho : Occurs defs root k)
    (hpq : Precedes defs v k p q) (hqr : Precedes defs v k q r) : Precedes defs v k p r := by
  induction hpq generalizing r with
  | forward hf _ ih =>
    -- No step leads out of a reference, so the other comparison passes it too.
    cases hqr with
    | forward hf' hqr =>
      cases hf with
      | intro hn =>
        cases hf' with
        | intro hn' =>
          obtain rfl := Option.some.inj (hn.symm.trans hn')
          exact .forward (.intro hn) (ih (ho.forwards (.intro hn)) hqr)
    | here hs => exact absurd hs (not_stepBefore_of_forwards hf)
    | inside hi _ => exact absurd hi (not_inside_of_forwards hf)
  | here hs =>
    cases hqr with
    | forward hf _ => exact absurd hs (not_stepBefore_of_forwards hf)
    | here ht => exact .here (hs.trans ht)
    | inside _ _ => exact .here hs
  | inside hi _ ih =>
    cases hqr with
    | forward hf _ => exact absurd hi (not_inside_of_forwards hf)
    | here ht => exact .here ht
    | inside hi' hqr =>
      obtain ⟨rfl, rfl⟩ := hi.unique hi' (h.record ho)
      exact .inside hi (ih (ho.inside hi) hqr)

theorem WellFormed.inOrder (h : WellFormed defs root) {path : String} {n : Node}
    (hn : Sited defs root path n) (hv : v.Canonical) :
    InOrder defs v n.kind (value defs policy v n.kind).diagnostics := by
  have hall : v.Canonical → InOrder defs v n.kind (value defs policy v n.kind).diagnostics := by
    refine h.walk_induction (P := fun v k => v.Canonical →
      InOrder defs v k (value defs policy v k).diagnostics) ?_ ?_ hn v
    · intro v k l hr hl hv
      obtain ⟨hf, _⟩ := Definitions.follow_eq_kind hr
      rw [value_eq_of_resolve hr]
      exact (hl hv).imp fun hde => hde.of_forwards hf
    · intro v path m hm ht hbelow hv
      refine inOrder_of_parts (h.record (.node hm)) ht hv fun w l hd => ?_
      obtain ⟨s, hi⟩ := hd.exists_inside
      exact hbelow w l hd (hi.canonical hv)
  exact hall hv

end SchemaGraph

end SiteContent
