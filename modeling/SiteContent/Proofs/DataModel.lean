import SiteContent.Proofs.Carrying

/-! The invariants of a validated document. Defaults are put in without a walk: what holds inside
them rests on the checks that every default has passed when the collection was built. -/

namespace SiteContent

open Walk

/-- Nothing that has to be supplied is missing. -/
def Supplied (es : Dict Json) (fs : List (Field Node)) : Prop :=
  ∀ f ∈ fs, f.node.required = true → f.node.default = none → (es.get? f.name).isSome

/-- What the data model asks of the value at a place, beside what it asks of the places below. -/
def Upholds (defs : Definitions) (v : Json) : Kind Node → Prop
  | .string nonEmpty =>
    ∃ s, v = .str s ∧ (nonEmpty = true → ∃ c ∈ s.toList, Text.isBlank c = false)
  | .boolean => ∃ b, v = .bool b
  | .number => ∃ n, v = .num n
  | .enumeration e => ∃ s ∈ e.members, v = .str s
  | .object s => ∃ es : Dict Json, v = .obj es ∧ Supplied es s.fields
  | .array _ nonEmpty => ∃ vs, v = .arr vs ∧ (nonEmpty = true → vs ≠ [])
  | .oneOf u => ∃ es : Dict Json, v = .obj es ∧ ∃ c ∈ u.variants, c.tag ∈ u.tags.members ∧
      es.get? u.tag = some (.str c.tag) ∧ Supplied es (u.common.fields ++ [c.payload]) ∧
      ∀ other ∈ u.variants, other.tag ≠ c.tag → es.get? other.payload.name = none
  | .any => True
  | .reference target => (defs.get? target).isSome

variable {defs : Definitions} {policy : Policy} {v : Json} {k : Kind Node} {es r : Dict Json}

theorem upholds_record (hk : k.Record) (hs : Shaped policy es k)
    (hf : Supplied es (fieldsOn es k)) : Upholds defs (.obj es) k := by
  cases hk with
  | object _ => exact ⟨es, rfl, hf⟩
  | @oneOf u hu =>
    obtain ⟨t, ht, hothers⟩ := hs.1 u rfl
    obtain ⟨c, hc, rfl, _⟩ := exists_selected hu ht
    obtain ⟨htag, hmem⟩ := tagOf?_eq_some.mp ht
    rw [fieldsOn_oneOf hu hc hmem htag] at hf
    exact ⟨es, rfl, c, hc, hmem, htag, hf, hothers⟩

theorem Conforms.supplied (h : Conforms defs policy (.obj es) k) (hk : k.Record) :
    Supplied es (fieldsOn es k) := by
  intro f hf hr hd
  rw [Option.isSome_iff_ne_none]
  intro hg
  rcases h.omissible hk f hf hg with ho | ho
  · simp [hr] at ho
  · simp [hd] at ho

theorem Conforms.upholds (h : Conforms defs policy v k) (hk : k.isKeyed = true → k.Record) :
    Upholds defs v k := by
  have hc := h
  cases h with
  | string hs => exact ⟨_, rfl, hs⟩
  | boolean => exact ⟨_, rfl⟩
  | number => exact ⟨_, rfl⟩
  | enumeration hs => exact ⟨_, hs, rfl⟩
  | any => trivial
  | object _ _ _ => exact upholds_record (hk rfl) (hc.shaped (hk rfl)) (hc.supplied (hk rfl))
  | array _ hne => exact ⟨_, rfl, hne⟩
  | oneOf _ _ _ _ _ _ _ =>
    exact upholds_record (hk rfl) (hc.shaped (hk rfl)) (hc.supplied (hk rfl))
  | reference hn _ => exact Option.isSome_of_mem hn

theorem Walk.Rebuilt.supplied (h : Rebuilt defs policy es k r) (hk : k.Record)
    (hs : Shaped policy es k) (hf : Supplied es (fieldsOn es k)) :
    Supplied r (fieldsOn r k) := by
  rw [h.fieldsOn_eq hk hs]
  intro f hm hr hd
  obtain ⟨v, hv⟩ := Option.isSome_iff_exists.mp (hf f hm hr hd)
  rw [h.get?_name hk hm, entered?, hv, Option.isSome_some]

/-- What a walk makes of a value that conforms upholds the data model at its place. -/
theorem Conforms.upholds_result (h : Conforms defs policy v k)
    (hk : k.isKeyed = true → k.Record) : Upholds defs (value defs policy v k).result k := by
  have hrecord : ∀ es, v = .obj es → k.isKeyed = true →
      Upholds defs (value defs policy v k).result k := by
    rintro es rfl hkeyed
    have hs := h.shaped (hk hkeyed)
    obtain ⟨r, hr, hrebuilt⟩ := exists_rebuilt defs policy es (hk hkeyed)
    rw [hr]
    exact upholds_record (hk hkeyed) (hrebuilt.shaped (hk hkeyed) hs)
      (hrebuilt.supplied (hk hkeyed) hs (h.supplied (hk hkeyed)))
  have hc := h
  cases h with
  | object _ _ _ => exact hrecord _ rfl rfl
  | oneOf _ _ _ _ _ _ _ => exact hrecord _ rfl rfl
  | array _ hne =>
    rw [result_array]
    exact ⟨_, rfl, by simpa using hne⟩
  | any => trivial
  | reference hn _ => exact Option.isSome_of_mem hn
  | _ =>
    rw [result_of_isScalar rfl]
    exact hc.upholds hk

theorem SchemaGraph.WellFormed.conforms_default {root : Schema} {path : String} {n : Node}
    (h : WellFormed defs root) (hn : Sited defs root path n) (hd : n.default = some v) :
    Conforms defs .preserve v n.kind :=
  (h.agrees hn .preserve v).mp (h.defaults_clean path n v hn hd)

namespace Collection

variable {c : Collection} {raw w : Json} {d : Document} {p : Location}

/-- A validated document upholds the data model at all of its places, also at those inside defaults
that were put in. -/
theorem upholds_of_validate (h : c.validate policy raw = .ok d)
    (hl : Located c.definitions d.value (.object c.schema) p w k) : Upholds c.definitions w k := by
  have hwf := c.wellFormed
  have hconforms := conforms_of_validate h
  rw [value_of_validate h] at hl
  rcases hwf.located_of_result c.occurs_root hconforms hl with ⟨x, hx, rfl⟩ | ⟨v, m, q, hv, hq⟩
  · have hx' := hwf.conforms_located c.occurs_root hconforms hx
    exact hx'.upholds_result (hwf.record (c.occurs_root.located hx))
  · -- The walk has not looked inside a default: what is known of it is known since the build.
    obtain ⟨path, n, hn, hdefault, rfl⟩ := hv.exists_sited (n := Node.object c.schema) .root
    have hw := hwf.conforms_located (.node hn) (hwf.conforms_default hn hdefault) hq
    exact hw.upholds (hwf.record ((SchemaGraph.Occurs.node hn).located hq))

/-- The place lies inside a default, behind a reference to a union. -/
theorem upholds_of_validate_union_default : ∃ (c : Collection) (d : Document),
    c.validate .preserve (.obj []) = .ok d ∧
      Located c.definitions d.value (.object c.schema) [.key "card", .key "body"]
        (.str "hi") (.string true) ∧
      Upholds c.definitions (.str "hi") (.string true) := by
  let union : TaggedUnion Node := ⟨"kind", ⟨"kind", ["text", "image"]⟩, .empty,
    [⟨"text", ⟨"body", .text⟩⟩, ⟨"image", ⟨"src", .text⟩⟩]⟩
  let card := Json.obj [("body", .str "hi"), ("kind", .str "text")]
  let field : Field Node := ⟨"card", (Node.reference "card").withDefault card⟩
  let c : Collection := ⟨⟨"", .page, default, ⟨[field]⟩, [("card", .oneOf union)]⟩, rfl⟩
  have hd : c.validate .preserve (.obj []) = .ok ⟨"", [("card", card)]⟩ := rfl
  have hbody : Inside card (.oneOf union) (.key "body") (.str "hi") (.string true) :=
    .field (f := ⟨"body", .text⟩) List.mem_cons_self rfl
  have hcard : Inside (.obj [("card", card)]) (.object c.schema) (.key "card") card
      (.reference "card") := .field (f := field) List.mem_cons_self rfl
  have hplace : Located c.definitions (.obj [("card", card)]) (.object c.schema)
      [.key "card", .key "body"] (.str "hi") (.string true) :=
    .step hcard (.forward (.intro (n := .oneOf union) rfl) (.step hbody .here))
  exact ⟨c, _, hd, hplace, upholds_of_validate hd hplace⟩

end Collection

end SiteContent
