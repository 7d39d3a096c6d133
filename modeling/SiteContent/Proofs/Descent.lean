import Mathlib.Logic.Basic
import SiteContent.Proofs.Forwarding

/-! How a walk goes down: the places inside a value that it comes to, each with the kind that it
holds the place against. Whether a walk has an end is a question about these steps. -/

namespace SiteContent

namespace Json

def elements : Json → List Json
  | .arr vs => vs
  | _ => []

/-- The values that stand directly inside a value. -/
def parts (v : Json) : List Json :=
  v.elements ++ v.entries.map (·.2)

theorem sizeOf_lt_of_mem_parts {v w : Json} (h : w ∈ v.parts) : sizeOf w < sizeOf v := by
  cases v with
  | arr vs =>
    have hw : w ∈ vs := by simpa [parts, elements, entries] using h
    have := List.sizeOf_lt_of_mem hw
    simp only [arr.sizeOf_spec]
    omega
  | obj es =>
    have hw : w ∈ es.map (·.2) := by simpa [parts, elements, entries] using h
    obtain ⟨⟨key, _⟩, he, rfl⟩ := List.mem_map.mp hw
    have hlt := List.sizeOf_lt_of_mem he
    simp only [obj.sizeOf_spec, Prod.mk.sizeOf_spec] at hlt ⊢
    omega
  | _ => simp [parts, elements, entries] at h

theorem parts_induction {P : Json → Prop} (h : ∀ v, (∀ w ∈ v.parts, P w) → P v) (v : Json) : P v :=
  h v fun w _ => parts_induction h w
termination_by sizeOf v
decreasing_by exact sizeOf_lt_of_mem_parts ‹_›

theorem mem_parts_of_get? {es : Dict Json} {key : String} {v : Json}
    (h : Dict.get? es key = some v) : v ∈ (Json.obj es).parts :=
  List.mem_append_right _ (List.mem_map.mpr ⟨_, Dict.mem_of_get?_eq_some h, rfl⟩)

theorem mem_parts_of_mem {vs : List Json} {v : Json} (h : v ∈ vs) : v ∈ (Json.arr vs).parts :=
  List.mem_append_left _ h

end Json

namespace Walk

open Relation

def selected? (u : TaggedUnion Node) (es : Dict Json) : Option (Variant Node) :=
  (tagOf? u es).bind u.variantFor?

/-- The fields that a kind looks for in an object. -/
def fieldsOn (es : Dict Json) : Kind Node → List (Field Node)
  | .object s => s.fields
  | .oneOf u => u.common.fields ++ (selected? u es).toList.map (·.payload)
  | _ => []

/-- One step down from a value held against a kind that is no reference. -/
inductive Descends : Json → Kind Node → Json → Kind Node → Prop
  | field {es : Dict Json} {k : Kind Node} {f : Field Node} {v : Json} :
      f ∈ fieldsOn es k → Dict.get? es f.name = some v → Descends (.obj es) k v f.node.kind
  | item {vs : List Json} {items : Node} {nonEmpty : Bool} {v : Json} :
      v ∈ vs → Descends (.arr vs) (.array items nonEmpty) v items.kind

theorem Descends.mem_parts {v w : Json} {k l : Kind Node} (h : Descends v k w l) : w ∈ v.parts := by
  cases h with
  | field _ hv => exact Json.mem_parts_of_get? hv
  | item hv => exact Json.mem_parts_of_mem hv

/-- What the walk of a value along a kind is called for: the same value along the kind that a
reference stands for, or a part along the kind of its place. -/
inductive Calls (defs : Definitions) : Json × Kind Node → Json × Kind Node → Prop
  | forward {v : Json} {k l : Kind Node} : defs.Forwards k l → Calls defs (v, l) (v, k)
  | descend {v w : Json} {k l : Kind Node} : Descends v k w l → Calls defs (w, l) (v, k)

/-- A walk that follows every reference, with no bound on how many, comes to an end. -/
def Finishes (defs : Definitions) (v : Json) (k : Kind Node) : Prop :=
  Acc (Calls defs) (v, k)

variable {defs : Definitions} {policy : Policy} {v w : Json} {k k' l : Kind Node}

theorem Finishes.of_calls (h : Finishes defs v k)
    (hc : ReflTransGen (Calls defs) (w, l) (v, k)) : Finishes defs w l := by
  rcases reflTransGen_iff_eq_or_transGen.mp hc with he | ht
  · obtain ⟨rfl, rfl⟩ := Prod.mk.inj he
    exact h
  · exact h.inv_of_transGen ht

theorem calls_of_forwards (hf : ReflTransGen defs.Forwards k l) :
    ReflTransGen (Calls defs) (v, l) (v, k) :=
  hf.swap.lift (Prod.mk v) fun _ _ hs => .forward hs

theorem not_finishes_of_loop (hf : TransGen defs.Forwards k k) : ¬ Finishes defs v k := by
  intro h
  have ht : Acc (TransGen (Calls defs)) (v, k) := h.transGen
  generalize hx : (v, k) = x at ht
  induction ht with
  | intro x _ ih =>
    subst hx
    exact ih _ (hf.swap.lift (Prod.mk v) fun _ _ hs => .forward hs) rfl

theorem value_eq (defs : Definitions) (policy : Policy) (v : Json) (k : Kind Node) :
    value defs policy v k = resolved defs policy v (v.elements.map (value defs policy))
      (v.entries.mapValues (value defs policy)) k := by
  cases v <;> simp [value, Json.elements, Json.entries, elements_eq_map, members_eq_mapValues,
    Dict.mapValues]

theorem value_of_resolve (h : defs.resolve k = .kind k') :
    value defs policy v k = answer policy v (v.elements.map (value defs policy))
      (v.entries.mapValues (value defs policy)) k' := by
  rw [value_eq, resolved, h]

theorem value_of_target?_eq_none (h : k.target? = none) :
    value defs policy v k = answer policy v (v.elements.map (value defs policy))
      (v.entries.mapValues (value defs policy)) k :=
  value_of_resolve (Definitions.follow_of_target?_eq_none h)

theorem value_eq_of_resolve (h : defs.resolve k = .kind k') :
    value defs policy v k = value defs policy v k' := by
  rw [value_of_resolve h, value_of_target?_eq_none (Definitions.follow_eq_kind h).2]

theorem tag_cases (u : TaggedUnion Node) (es : Dict Json) :
    (∃ t, tagOf? u es = some t ∧ tag u es = .accept [(u.tag, .str t)]) ∨
      tagOf? u es = none ∧ ∃ cause, tag u es = .report [] [.key u.tag] cause := by
  rw [tag, tagOf?]
  cases es.get? u.tag with
  | none => exact .inr ⟨rfl, _, rfl⟩
  | some v =>
    cases v with
    | str s =>
      by_cases hs : u.tags.isMember s = true
      · exact .inl ⟨s, if_pos hs, if_pos hs⟩
      · exact .inr ⟨if_neg hs, _, if_neg hs⟩
    | _ => exact .inr ⟨rfl, _, rfl⟩

def itemWalks (defs : Definitions) (policy : Policy) (items : Node) (vs : List Json) :
    List (Walked Json) :=
  vs.zipIdx.map fun (v, i) => (value defs policy v items.kind).under (.index i)

theorem mem_itemWalks {items : Node} {vs : List Json} {x : Walked Json} :
    x ∈ itemWalks defs policy items vs ↔
      ∃ i v, vs[i]? = some v ∧ x = (value defs policy v items.kind).under (.index i) := by
  simp only [itemWalks, List.mem_map, Prod.exists, List.mem_zipIdx_iff_getElem?]
  constructor
  · rintro ⟨v, i, hv, rfl⟩
    exact ⟨i, v, hv, rfl⟩
  · rintro ⟨i, v, hv, rfl⟩
    exact ⟨v, i, hv, rfl⟩

theorem array_eq {items : Node} {nonEmpty : Bool} {vs : List Json} :
    array items nonEmpty (vs.map (value defs policy)) =
      let inside := (Walked.all (itemWalks defs policy items vs)).map Json.arr
      if nonEmpty && vs.isEmpty then
        { inside with diagnostics := ⟨[], .emptyField⟩ :: inside.diagnostics }
      else inside := by
  simp only [array, itemWalks, List.zipIdx_map, List.map_map, List.isEmpty_map]
  rfl

section Scalars

variable {elements : List Walker} {members : Dict Walker} (harr : ∀ vs, v ≠ .arr vs)
  (hobj : ∀ es, v ≠ .obj es)
include harr hobj

theorem exists_answer_scalar : ∃ ds, answer policy v elements members k = ⟨v, ds, []⟩ := by
  cases v with
  | arr vs => exact absurd rfl (harr vs)
  | obj es => exact absurd rfl (hobj es)
  | str s =>
    cases k with
    | string nonEmpty => simp only [answer]; split <;> exact ⟨_, rfl⟩
    | enumeration e => simp only [answer]; split <;> exact ⟨_, rfl⟩
    | _ => exact ⟨_, rfl⟩
  | _ => cases k <;> exact ⟨_, rfl⟩

theorem gaps_answer_scalar : (answer policy v elements members k).gaps = [] := by
  obtain ⟨ds, hds⟩ := exists_answer_scalar harr hobj
  rw [hds]

theorem result_answer_scalar : (answer policy v elements members k).result = v := by
  obtain ⟨ds, hds⟩ := exists_answer_scalar harr hobj
  rw [hds]

end Scalars

section Gaps

variable {es : Dict Json} {g : Gap}

theorem mem_gaps_all {α : Type} {ws : List (Walked α)} :
    g ∈ (Walked.all ws).gaps ↔ ∃ w ∈ ws, g ∈ w.gaps := by
  simp [Walked.all, List.mem_flatMap]

theorem mem_gaps_field {f : Field Node} :
    g ∈ (field (es.mapValues (value defs policy)) f).gaps ↔
      ∃ v, es.get? f.name = some v ∧ g ∈ (value defs policy v f.node.kind).gaps := by
  rw [field, Dict.get?_mapValues]
  cases es.get? f.name with
  | some v => simp [Walked.map, Walked.under]
  | none =>
    cases f.node.default with
    | some d => simp [Walked.accept]
    | none => by_cases hr : f.node.required = true <;> simp [hr, Walked.accept, Walked.report]

theorem gaps_undeclared (known : String → Bool) : (undeclared policy known es).gaps = [] := by
  cases policy <;> rfl

theorem gaps_tag (u : TaggedUnion Node) : (tag u es).gaps = [] := by
  rcases tag_cases u es with ⟨t, _, he⟩ | ⟨_, cause, he⟩
  · rw [he, Walked.accept]
  · rw [he, Walked.report]

theorem mem_gaps_payloads {u : TaggedUnion Node} {members : Dict Walker} {c : Variant Node} :
    (∃ w ∈ payloads u members c, g ∈ w.gaps) ↔ g ∈ (field members c.payload).gaps := by
  constructor
  · rintro ⟨w, hw, hg⟩
    rcases List.mem_cons.mp hw with rfl | hw
    · exact hg
    · obtain ⟨v, _, rfl⟩ := List.mem_map.mp hw
      simp [Walked.report] at hg
  · exact fun hg => ⟨_, List.mem_cons_self, hg⟩

theorem mem_gaps_object {s : Schema} :
    g ∈ (object policy s es (es.mapValues (value defs policy))).gaps ↔
      ∃ f ∈ s.fields, g ∈ (field (es.mapValues (value defs policy)) f).gaps := by
  simp [object, assemble, Walked.map, mem_gaps_all, or_and_right, exists_or, gaps_undeclared]

theorem mem_gaps_union {u : TaggedUnion Node} :
    g ∈ (union policy u es (es.mapValues (value defs policy))).gaps ↔
      ∃ f ∈ fieldsOn es (.oneOf u), g ∈ (field (es.mapValues (value defs policy)) f).gaps := by
  simp only [union, assemble, Walked.map, mem_gaps_all, fieldsOn, selected?]
  cases (tagOf? u es).bind u.variantFor? with
  | none => simp [or_and_right, exists_or, gaps_undeclared, gaps_tag]
  | some c =>
    simp [or_and_right, exists_or, gaps_undeclared, gaps_tag, mem_gaps_payloads]

theorem mem_gaps_array {vs : List Json} {items : Node} {nonEmpty : Bool} :
    g ∈ (array items nonEmpty (vs.map (value defs policy))).gaps ↔
      ∃ v ∈ vs, g ∈ (value defs policy v items.kind).gaps := by
  have h : (array items nonEmpty (vs.map (value defs policy))).gaps =
      (Walked.all (itemWalks defs policy items vs)).gaps := by
    rw [array_eq]
    split <;> rfl
  simp only [h, mem_gaps_all, mem_itemWalks]
  constructor
  · rintro ⟨w, ⟨i, v, hv, rfl⟩, hg⟩
    exact ⟨v, List.mem_of_getElem? hv, hg⟩
  · rintro ⟨v, hv, hg⟩
    obtain ⟨i, hi⟩ := List.mem_iff_getElem?.mp hv
    exact ⟨_, ⟨i, v, hi, rfl⟩, hg⟩

theorem mem_gaps_iff (h : defs.resolve k = .kind k') :
    g ∈ (value defs policy v k).gaps ↔
      ∃ w l, Descends v k' w l ∧ g ∈ (value defs policy w l).gaps := by
  have hfield : ∀ es : Dict Json, (∃ f ∈ fieldsOn es k',
      g ∈ (field (es.mapValues (value defs policy)) f).gaps) ↔
        ∃ w l, Descends (.obj es) k' w l ∧ g ∈ (value defs policy w l).gaps := by
    intro es
    simp only [mem_gaps_field]
    constructor
    · rintro ⟨f, hf, w, hw, hg⟩
      exact ⟨w, f.node.kind, .field hf hw, hg⟩
    · rintro ⟨w, l, hd, hg⟩
      cases hd with
      | field hf hw => exact ⟨_, hf, w, hw, hg⟩
  rw [value_of_resolve h]
  cases v with
  | obj es =>
    rw [← hfield es]
    cases k' with
    | object s => exact mem_gaps_object
    | oneOf u => exact mem_gaps_union
    | _ => simp [answer, Walked.accept, Walked.report, fieldsOn]
  | arr vs =>
    cases k' with
    | array items nonEmpty =>
      refine mem_gaps_array.trans ⟨?_, ?_⟩
      · rintro ⟨w, hw, hg⟩
        exact ⟨w, items.kind, .item hw, hg⟩
      · rintro ⟨w, l, hd, hg⟩
        cases hd with
        | item hw => exact ⟨w, hw, hg⟩
    | _ =>
      constructor
      · intro hg
        simp [answer, Walked.accept, Walked.report] at hg
      · rintro ⟨_, _, hd, _⟩
        cases hd
  | _ =>
    constructor
    · intro hg
      simp [gaps_answer_scalar] at hg
    · rintro ⟨_, _, hd, _⟩
      cases hd

theorem gaps_of_resolve_gap (h : defs.resolve k = .gap g) :
    (value defs policy v k).gaps = [g] := by
  rw [value_eq, resolved, h]

end Gaps

section Endings

theorem calls_reference_iff {t : String} {x : Json × Kind Node} :
    Calls defs x (v, .reference t) ↔ ∃ n, defs.get? t = some n ∧ x = (v, n.kind) := by
  constructor
  · intro hc
    cases hc with
    | forward hf =>
      cases hf with
      | intro hn => exact ⟨_, hn, rfl⟩
    | descend hd =>
      cases hd with
      | field hf _ => simp [fieldsOn] at hf
  · rintro ⟨n, hn, rfl⟩
    exact .forward (.intro hn)

theorem calls_iff_descends (hk : k.target? = none) :
    Calls defs (w, l) (v, k) ↔ Descends v k w l := by
  constructor
  · intro hc
    cases hc with
    | forward hf =>
      cases hf with
      | intro _ => simp [Kind.target?] at hk
    | descend hd => exact hd
  · exact .descend

theorem finishes_unresolved {t : String} (ht : defs.get? t = none) :
    Finishes defs v (.reference t) := by
  refine ⟨_, fun x hx => ?_⟩
  obtain ⟨n, hn, _⟩ := calls_reference_iff.mp hx
  simp [ht] at hn

theorem finishes_iff_of_forwards (hf : ReflTransGen defs.Forwards k l) :
    Finishes defs v k ↔ Finishes defs v l := by
  constructor
  · exact fun h => h.of_calls (calls_of_forwards hf)
  · intro h
    induction hf using ReflTransGen.head_induction_on with
    | refl => exact h
    | head hs _ ih =>
      cases hs with
      | intro hn =>
        refine ⟨_, fun x hx => ?_⟩
        obtain ⟨m, hm, rfl⟩ := calls_reference_iff.mp hx
        rw [hn] at hm
        obtain rfl := Option.some.inj hm
        exact ih

theorem finishes_iff_descends (hk : k.target? = none) :
    Finishes defs v k ↔ ∀ w l, Descends v k w l → Finishes defs w l := by
  constructor
  · exact fun h w l hd => h.inv (.descend hd)
  · intro h
    refine ⟨_, fun x hx => ?_⟩
    obtain ⟨w, l⟩ := x
    exact h w l ((calls_iff_descends hk).mp hx)

/-- Fuel for references runs out in exactly the walks that have no end without it. -/
theorem exists_endless_gap_iff (policy : Policy) :
    (∃ t, Gap.endless t ∈ (value defs policy v k).gaps) ↔ ¬ Finishes defs v k := by
  induction v using Json.parts_induction generalizing k with
  | h v ih =>
    cases hr : defs.resolve k with
    | gap g =>
      rw [gaps_of_resolve_gap hr]
      cases g with
      | unresolved t =>
        obtain ⟨hf, ht⟩ := Definitions.follow_eq_unresolved hr
        simpa [finishes_iff_of_forwards hf] using finishes_unresolved ht
      | endless t =>
        obtain ⟨s, hf, hloop⟩ := Definitions.resolve_loops hr
        simpa [finishes_iff_of_forwards hf] using not_finishes_of_loop hloop
    | kind k' =>
      obtain ⟨hf, hk⟩ := Definitions.follow_eq_kind hr
      simp only [mem_gaps_iff hr, finishes_iff_of_forwards hf, finishes_iff_descends hk]
      constructor
      · rintro ⟨t, w, l, hd, hg⟩ hall
        exact (ih w hd.mem_parts).mp ⟨t, hg⟩ (hall w l hd)
      · intro hn
        simp only [not_forall] at hn
        obtain ⟨w, l, hd, hw⟩ := hn
        obtain ⟨t, hg⟩ := (ih w hd.mem_parts).mpr hw
        exact ⟨t, w, l, hd, hg⟩

end Endings

end Walk

end SiteContent
