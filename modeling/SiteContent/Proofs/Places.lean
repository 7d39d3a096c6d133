import SiteContent.Proofs.Conformance
import SiteContent.Validation.Location

/-! The places of a value that a schema describes. Unlike the calls of a walk they have a location,
and they go on where a schema has no node of its own: to the tag of a union and into a value of any
kind. -/

namespace SiteContent

namespace Json

def isScalar : Json → Bool
  | .arr _ | .obj _ => false
  | _ => true

/-- The value one step down. -/
def child? (v : Json) : Step → Option Json
  | .key name => v.get? name
  | .index i => v.elements[i]?

/-- The value at a location. -/
def at? : Json → Location → Option Json
  | v, [] => some v
  | v, s :: rest => (v.child? s).bind fun w => w.at? rest

end Json

/-- A kind of objects that declares their keys. -/
def Kind.isKeyed {α : Type} : Kind α → Bool
  | .object _ | .oneOf _ => true
  | _ => false

namespace Walk

/-- One step from a value to a place inside it, with the kind that the place is held against. -/
inductive Inside : Json → Kind Node → Step → Json → Kind Node → Prop
  | field {es : Dict Json} {k : Kind Node} {f : Field Node} {v : Json} :
      f ∈ fieldsOn es k → es.get? f.name = some v →
      Inside (.obj es) k (.key f.name) v f.node.kind
  | tag {es : Dict Json} {u : TaggedUnion Node} {v : Json} :
      es.get? u.tag = some v → Inside (.obj es) (.oneOf u) (.key u.tag) v (.enumeration u.tags)
  | item {vs : List Json} {items : Node} {nonEmpty : Bool} {i : Nat} {v : Json} :
      vs[i]? = some v → Inside (.arr vs) (.array items nonEmpty) (.index i) v items.kind
  | entry {es : Dict Json} {key : String} {v : Json} :
      es.get? key = some v → Inside (.obj es) .any (.key key) v .any
  | element {vs : List Json} {i : Nat} {v : Json} :
      vs[i]? = some v → Inside (.arr vs) .any (.index i) v .any

/-- A place inside a value at a location that passes no undeclared key, with the kind it is held
against there. At a reference the kind of its definition describes the same place. -/
inductive Located (defs : Definitions) : Json → Kind Node → Location → Json → Kind Node → Prop
  | here {v : Json} {k : Kind Node} : Located defs v k [] v k
  | forward {v w : Json} {k l m : Kind Node} {p : Location} :
      defs.Forwards k l → Located defs v l p w m → Located defs v k p w m
  | step {v w x : Json} {k l m : Kind Node} {s : Step} {p : Location} :
      Inside v k s w l → Located defs w l p x m → Located defs v k (s :: p) x m

variable {defs : Definitions} {policy : Policy} {v w : Json} {k l : Kind Node} {s : Step}
  {p : Location}

theorem Inside.child? (h : Inside v k s w l) : v.child? s = some w := by
  cases h with
  | field _ hv => exact hv
  | tag hv => exact hv
  | item hv => exact hv
  | entry hv => exact hv
  | element hv => exact hv

theorem Located.at? (h : Located defs v k p w l) : v.at? p = some w := by
  induction h with
  | here => rfl
  | forward _ _ ih => exact ih
  | step hi _ ih => rw [Json.at?, hi.child?, Option.bind_some, ih]

theorem Descends.exists_inside (h : Descends v k w l) : ∃ s, Inside v k s w l := by
  cases h with
  | field hf hv => exact ⟨_, .field hf hv⟩
  | item hv =>
    obtain ⟨i, hi⟩ := List.mem_iff_getElem?.mp hv
    exact ⟨_, .item hi⟩

/-- In an object that conforms to a union the fields are those of the case that its tag selects. -/
theorem fieldsOn_oneOf {es : Dict Json} {u : TaggedUnion Node} {c : Variant Node} (hu : u.Lawful)
    (hc : c ∈ u.variants) (hmem : c.tag ∈ u.tags.members)
    (htag : es.get? u.tag = some (.str c.tag)) :
    fieldsOn es (.oneOf u) = u.common.fields ++ [c.payload] := by
  have hsel := selected?_eq_some hu hc (tagOf?_eq_some.mpr ⟨htag, hmem⟩)
  simp [fieldsOn, hsel]

end Walk

open Walk

variable {defs : Definitions} {policy : Policy} {v w : Json} {k l : Kind Node} {s : Step}
  {p : Location}

theorem Conforms.inside (h : Conforms defs policy v k) (hk : k.isKeyed = true → k.Record)
    (hi : Inside v k s w l) : Conforms defs policy w l := by
  cases hi with
  | @field es k f _ hf hv =>
    cases h with
    | object hpresent _ _ => exact hpresent f hf w hv
    | @oneOf _ u c hc hmem htag hpresent _ _ _ =>
      cases hk rfl with
      | oneOf hu =>
        rw [fieldsOn_oneOf hu hc hmem htag] at hf
        exact hpresent f hf w hv
    | _ => simp [fieldsOn] at hf
  | tag hv =>
    cases h with
    | oneOf _ hmem htag _ _ _ _ =>
      obtain rfl := Option.some.inj (htag.symm.trans hv)
      exact .enumeration hmem
  | item hv =>
    cases h with
    | array hitems _ => exact hitems w (List.mem_of_getElem? hv)
  | entry _ => exact .any
  | element _ => exact .any

theorem Conforms.shaped {es : Dict Json} (h : Conforms defs policy (.obj es) k) (hk : k.Record) :
    Shaped policy es k := by
  cases hk with
  | object _ =>
    cases h with
    | object _ _ hkeys => exact ⟨nofun, hkeys⟩
  | oneOf _ =>
    cases h with
    | oneOf _ hmem htag _ _ hothers hkeys =>
      refine ⟨?_, hkeys⟩
      rintro _ ⟨⟩
      exact ⟨_, tagOf?_eq_some.mpr ⟨htag, hmem⟩, hothers⟩

theorem Conforms.omissible {es : Dict Json} (h : Conforms defs policy (.obj es) k)
    (hk : k.Record) : ∀ f ∈ fieldsOn es k, es.get? f.name = none → f.node.Omissible := by
  cases hk with
  | object _ =>
    cases h with
    | object _ habsent _ => exact habsent
  | oneOf hu =>
    cases h with
    | oneOf hc hmem htag _ habsent _ _ =>
      rw [fieldsOn_oneOf hu hc hmem htag]
      exact habsent

theorem Conforms.of_shaped {es : Dict Json} (hk : k.Record) (hs : Shaped policy es k)
    (hpresent : ∀ f ∈ fieldsOn es k, ∀ w, es.get? f.name = some w →
      Conforms defs policy w f.node.kind)
    (habsent : ∀ f ∈ fieldsOn es k, es.get? f.name = none → f.node.Omissible) :
    Conforms defs policy (.obj es) k := by
  cases hk with
  | object _ => exact .object hpresent habsent hs.2
  | @oneOf u hu =>
    obtain ⟨t, ht, hothers⟩ := hs.1 u rfl
    obtain ⟨c, hc, rfl, _⟩ := exists_selected hu ht
    obtain ⟨htag, hmem⟩ := tagOf?_eq_some.mp ht
    rw [fieldsOn_oneOf hu hc hmem htag] at hpresent habsent
    exact .oneOf hc hmem htag hpresent habsent hothers hs.2

namespace SchemaGraph

/-- A kind that some place is held against: that of a node of the graph, or one of those that stand
for no node. -/
inductive Occurs (defs : Definitions) (root : Schema) : Kind Node → Prop
  | node {path : String} {n : Node} : Sited defs root path n → Occurs defs root n.kind
  | tag {e : Enumeration} : Occurs defs root (.enumeration e)
  | any : Occurs defs root .any

variable {root : Schema}

theorem Occurs.forwards (h : Occurs defs root k) (hf : defs.Forwards k l) : Occurs defs root l := by
  cases h with
  | node hn =>
    obtain ⟨m, rfl, hm⟩ := exists_sited_of_forwards hn (.single hf)
    exact .node hm
  | tag => cases hf
  | any => cases hf

theorem Occurs.inside (h : Occurs defs root k) (hi : Inside v k s w l) : Occurs defs root l := by
  cases h with
  | @node path n hn =>
    generalize hk : n.kind = k at hi
    cases hi with
    | field hf _ => exact .node (hn.part (hk ▸ mem_parts_of_mem_fieldsOn hf))
    | tag _ => exact .tag
    | item _ => exact .node (hn.part (e := .items) (hk ▸ List.mem_singleton.mpr rfl))
    | entry _ => exact .any
    | element _ => exact .any
  | tag =>
    cases hi with
    | field hf _ => simp [fieldsOn] at hf
  | any =>
    cases hi with
    | field hf _ => simp [fieldsOn] at hf
    | entry _ => exact .any
    | element _ => exact .any

theorem Occurs.located (h : Occurs defs root k) (hl : Located defs v k p w l) :
    Occurs defs root l := by
  induction hl with
  | here => exact h
  | forward hf _ ih => exact ih (h.forwards hf)
  | step hi _ ih => exact ih (h.inside hi)

theorem WellFormed.record (h : WellFormed defs root) (ho : Occurs defs root k)
    (hk : k.isKeyed = true) : k.Record := by
  cases ho with
  | @node path n hn =>
    cases hkind : n.kind with
    | object s => exact .object (h.fields_distinct path n s hn hkind)
    | oneOf u => exact .oneOf (h.unions_lawful path n u hn hkind)
    | _ => simp [hkind, Kind.isKeyed] at hk
  | tag => simp [Kind.isKeyed] at hk
  | any => simp [Kind.isKeyed] at hk

/-- Conformity goes down to every place. -/
theorem WellFormed.conforms_located (h : WellFormed defs root) (ho : Occurs defs root k)
    (hc : Conforms defs policy v k) (hl : Located defs v k p w l) : Conforms defs policy w l := by
  induction hl with
  | here => exact hc
  | forward hf _ ih => exact ih (ho.forwards hf) ((conforms_iff_of_forwards (.single hf)).mp hc)
  | step hi _ ih => exact ih (ho.inside hi) (hc.inside (h.record ho) hi)

end SchemaGraph

end SiteContent
