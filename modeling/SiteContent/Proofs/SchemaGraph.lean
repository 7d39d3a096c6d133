import SiteContent.Collection.Check
import SiteContent.Proofs.Descent

/-! Schema graphs: nodes that hang together by parts and by references. What a well-formed graph
is, and what each error says about a graph, is stated here without the search that checks it. -/

namespace SiteContent

/-- How a part hangs in its node: as a field or as the items of an array. -/
inductive Edge where
  | field (name : String)
  | items
  deriving Repr, DecidableEq

namespace Edge

def extend (path : String) : Edge → String
  | .field name => Check.join path name
  | .items => path ++ "[]"

def arrays : Edge → Nat
  | .field _ => 0
  | .items => 1

end Edge

def Kind.parts : Kind Node → List (Edge × Node)
  | .object s => s.fields.map fun f => (.field f.name, f.node)
  | .array items _ => [(.items, items)]
  | .oneOf u =>
    u.common.fields.map (fun f => (.field f.name, f.node)) ++
      u.variants.map fun c => (.field c.payload.name, c.payload.node)
  | _ => []

theorem Node.sizeOf_lt_of_mem_parts {n m : Node} {e : Edge} (h : (e, m) ∈ n.kind.parts) :
    sizeOf m < sizeOf n := by
  obtain ⟨k, _, _, _⟩ := n
  cases k with
  | object s =>
    obtain ⟨⟨_, _⟩, hf, he⟩ := List.mem_map.mp h
    obtain ⟨_, rfl⟩ := Prod.mk.inj he
    have hlt := List.sizeOf_lt_of_mem hf
    obtain ⟨fs⟩ := s
    simp at hlt ⊢
    omega
  | array items _ =>
    obtain ⟨_, rfl⟩ := Prod.mk.inj (List.mem_singleton.mp h)
    simp
    omega
  | oneOf u =>
    obtain ⟨_, _, ⟨common⟩, vs⟩ := u
    rcases List.mem_append.mp h with h | h
    · obtain ⟨⟨_, _⟩, hf, he⟩ := List.mem_map.mp h
      obtain ⟨_, rfl⟩ := Prod.mk.inj he
      have hlt := List.sizeOf_lt_of_mem hf
      simp at hlt ⊢
      omega
    · obtain ⟨⟨_, ⟨_, _⟩⟩, hc, he⟩ := List.mem_map.mp h
      obtain ⟨_, rfl⟩ := Prod.mk.inj he
      have hlt := List.sizeOf_lt_of_mem hc
      simp at hlt ⊢
      omega
  | _ => simp [Kind.parts] at h

theorem Node.parts_induction {P : Node → Prop}
    (h : ∀ n, (∀ e m, (e, m) ∈ n.kind.parts → P m) → P n) (n : Node) : P n :=
  h n fun _ m _ => parts_induction h m
termination_by sizeOf n
decreasing_by exact Node.sizeOf_lt_of_mem_parts ‹_›

theorem Shape.contains_iff {α : Type} {s : Shape α} {name : String} :
    s.contains name = true ↔ name ∈ s.names := by
  simp [contains, names]

namespace TaggedUnion

variable {α : Type}

def caseTags (u : TaggedUnion α) : List String :=
  u.variants.map (·.tag)

def allNames (u : TaggedUnion α) : List String :=
  u.tag :: (u.common.names ++ u.variants.map (·.payload.name))

theorem knows_iff {u : TaggedUnion α} {name : String} :
    u.knows name = true ↔ name ∈ u.allNames := by
  simp [knows, isPayload, allNames, Shape.contains_iff, or_assoc]

/-- The cases match the tags one to one, and no name has two meanings. -/
structure Lawful (u : TaggedUnion α) : Prop where
  tags_distinct : u.caseTags.Nodup
  tags_exact : ∀ t, t ∈ u.caseTags ↔ t ∈ u.tags.members
  names_distinct : u.allNames.Nodup

/-- What a text says is wrong with the cases is so. -/
inductive CaseFault (u : TaggedUnion α) : String → Prop
  | foreign {t : String} : t ∈ u.caseTags → t ∉ u.tags.members →
      CaseFault u ("case '" ++ t ++ "' is not in " ++ u.tags.name)
  | twice {t : String} : 1 < u.caseTags.count t →
      CaseFault u ("case '" ++ t ++ "' is declared twice")
  | missing {m : String} : m ∈ u.tags.members → m ∉ u.caseTags →
      CaseFault u ("no case for '" ++ m ++ "'")

theorem CaseFault.not_lawful {u : TaggedUnion α} {detail : String} (h : u.CaseFault detail) :
    ¬ u.Lawful := by
  intro hu
  cases h with
  | foreign ht hm => exact hm ((hu.tags_exact _).mp ht)
  | @twice t hc =>
    have hle := List.nodup_iff_count.mp hu.tags_distinct t
    omega
  | missing hm ht => exact ht ((hu.tags_exact _).mpr hm)

end TaggedUnion

def Kind.names : Kind Node → List String
  | .object s => s.names
  | .oneOf u => u.allNames
  | _ => []

/-- A kind of objects in which no name has two meanings. -/
inductive Kind.Record : Kind Node → Prop
  | object {s : Schema} : s.names.Nodup → Record (.object s)
  | oneOf {u : TaggedUnion Node} : u.Lawful → Record (.oneOf u)

namespace SchemaGraph

open Relation

/-- The nodes of a graph, each with a path that an error about it may name. -/
inductive Sited (defs : Definitions) (root : Schema) : String → Node → Prop
  | root : Sited defs root "" (.object root)
  | definition {name : String} {n : Node} : (name, n) ∈ defs → Sited defs root name n
  | part {path : String} {n m : Node} {e : Edge} :
      Sited defs root path n → (e, m) ∈ n.kind.parts → Sited defs root (e.extend path) m
  | target {path t : String} {n m : Node} :
      Sited defs root path n → n.kind = .reference t → defs.get? t = some m →
      Sited defs root path m

/-- One step that crosses no array: to a field's node, or from a reference to its definition. -/
def Inlines (defs : Definitions) (n m : Node) : Prop :=
  (∃ name, (.field name, m) ∈ n.kind.parts) ∨ ∃ t, n.kind = .reference t ∧ defs.get? t = some m

/-- A node comes to a reference to `target` by a path that crosses no array. -/
def Reaches (defs : Definitions) (n : Node) (target : String) : Prop :=
  ∃ m, ReflTransGen (Inlines defs) n m ∧ m.kind = .reference target

structure WellFormed (defs : Definitions) (root : Schema) : Prop where
  fields_distinct : ∀ path n s, Sited defs root path n → n.kind = .object s → s.names.Nodup
  unions_lawful : ∀ path n u, Sited defs root path n → n.kind = .oneOf u → u.Lawful
  resolved : ∀ path n t, Sited defs root path n → n.kind = .reference t → (defs.get? t).isSome
  bounded : ∀ name n, (name, n) ∈ defs → ¬ Reaches defs n name
  defaults_clean : ∀ path n v, Sited defs root path n → n.default = some v →
    (Walk.value defs .preserve v n.kind).diagnostics = []

/-- What an error says about a graph is so. -/
def Defect (defs : Definitions) (root : Schema) : SchemaError → Prop
  | .fieldCollision name context => ∃ path n, Sited defs root path n ∧
      context = Check.context path ∧
      ((∃ s, n.kind = .object s ∧ 1 < s.names.count name) ∨
        ∃ u, n.kind = .oneOf u ∧ 1 < u.allNames.count name)
  | .unresolvedReference target => defs.get? target = none ∧
      ∃ path n, Sited defs root path n ∧ n.kind = .reference target
  | .unboundedRecursion name => ∃ n, (name, n) ∈ defs ∧ Reaches defs n name
  | .variantMismatch tag detail => ∃ path n u, Sited defs root path n ∧ n.kind = .oneOf u ∧
      tag = u.tag ∧ u.CaseFault detail
  | .invalidDefault path detail => ∃ n v d ds, Sited defs root path n ∧ n.default = some v ∧
      (Walk.value defs .preserve v n.kind).diagnostics = d :: ds ∧ detail = d.cause.message
  | .endlessDefault path _ => ∃ n v, Sited defs root path n ∧ n.default = some v ∧
      ¬ Walk.Finishes defs v n.kind
  | _ => False

variable {defs : Definitions} {root : Schema} {path t : String} {n m : Node} {k l : Kind Node}

theorem exists_node_of_forwards (hf : ReflTransGen defs.Forwards n.kind l) :
    ∃ m, m.kind = l ∧ ReflTransGen (Inlines defs) n m := by
  induction hf with
  | refl => exact ⟨n, rfl, .refl⟩
  | tail _ hs ih =>
    obtain ⟨m, hm, hr⟩ := ih
    cases hs with
    | intro ht => exact ⟨_, rfl, hr.tail (.inr ⟨_, hm, ht⟩)⟩

theorem exists_sited_of_forwards (h : Sited defs root path n)
    (hf : ReflTransGen defs.Forwards n.kind l) : ∃ m, m.kind = l ∧ Sited defs root path m := by
  induction hf with
  | refl => exact ⟨n, rfl, h⟩
  | tail _ hs ih =>
    obtain ⟨m, hm, hsited⟩ := ih
    cases hs with
    | intro ht => exact ⟨_, rfl, hsited.target hm ht⟩

theorem mem_parts_of_mem_fieldsOn {es : Dict Json} {f : Field Node}
    (h : f ∈ Walk.fieldsOn es k) : (.field f.name, f.node) ∈ k.parts := by
  cases k with
  | object s => exact List.mem_map.mpr ⟨f, h, rfl⟩
  | oneOf u =>
    rcases List.mem_append.mp h with hf | hf
    · exact List.mem_append_left _ (List.mem_map.mpr ⟨f, hf, rfl⟩)
    · obtain ⟨c, hc, rfl⟩ := List.mem_map.mp hf
      have hv : c ∈ u.variants := by
        obtain ⟨t, _, ht⟩ := Option.bind_eq_some_iff.mp (Option.mem_toList.mp hc)
        exact List.mem_of_find?_eq_some ht
      exact List.mem_append_right _ (List.mem_map.mpr ⟨c, hv, rfl⟩)
  | _ => simp [Walk.fieldsOn] at h

/-- A step into a value is a step along an edge of the schema. -/
theorem exists_part_of_descends {v w : Json} {k l : Kind Node} (hd : Walk.Descends v k w l) :
    ∃ e m, (e, m) ∈ k.parts ∧ m.kind = l := by
  cases hd with
  | field hf _ => exact ⟨_, _, mem_parts_of_mem_fieldsOn hf, rfl⟩
  | item _ => exact ⟨.items, _, List.mem_singleton.mpr rfl, rfl⟩

theorem Sited.descends {v w : Json} (hn : Sited defs root path n)
    (hd : Walk.Descends v n.kind w l) : ∃ p m, Sited defs root p m ∧ m.kind = l := by
  obtain ⟨e, m, hm, rfl⟩ := exists_part_of_descends hd
  exact ⟨_, m, hn.part hm, rfl⟩

namespace WellFormed

/-- No chain of references comes back to where it has been. -/
theorem not_loop (h : WellFormed defs root) :
    ¬ TransGen defs.Forwards (.reference t) (.reference t) := by
  intro hloop
  obtain ⟨k, hs, hr⟩ := (TransGen.head'_iff).mp hloop
  cases hs with
  | intro hn =>
    obtain ⟨m, hm, hreach⟩ := exists_node_of_forwards hr
    exact h.bounded _ _ (Dict.mem_of_get?_eq_some hn) ⟨m, hreach, hm⟩

theorem exists_resolve (h : WellFormed defs root) (hn : Sited defs root path n) :
    ∃ m, defs.resolve n.kind = .kind m.kind ∧ m.kind.target? = none ∧
      Sited defs root path m := by
  cases hr : defs.resolve n.kind with
  | gap g =>
    cases g with
    | unresolved t =>
      obtain ⟨hf, ht⟩ := Definitions.follow_eq_unresolved hr
      obtain ⟨m, hm, hsited⟩ := exists_sited_of_forwards hn hf
      have hsome := h.resolved path m t hsited hm
      simp [ht] at hsome
    | endless t =>
      obtain ⟨s, _, hloop⟩ := Definitions.resolve_loops hr
      exact absurd hloop h.not_loop
  | kind l =>
    obtain ⟨hf, hl⟩ := Definitions.follow_eq_kind hr
    obtain ⟨m, rfl, hsited⟩ := exists_sited_of_forwards hn hf
    exact ⟨m, rfl, hl, hsited⟩

/-- What holds of every value and kind as soon as it holds below them and where a chain of references
leads to, holds throughout a well-formed graph. -/
theorem walk_induction (h : WellFormed defs root) {P : Json → Kind Node → Prop}
    (hresolve : ∀ v k l, defs.resolve k = .kind l → P v l → P v k)
    (hparts : ∀ v path m, Sited defs root path m → m.kind.target? = none →
      (∀ w l, Walk.Descends v m.kind w l → P w l) → P v m.kind)
    (hn : Sited defs root path n) (v : Json) : P v n.kind := by
  induction v using Json.parts_induction generalizing path n with
  | h v ih =>
    -- A reference takes nothing off the value, so the whole chain is followed at once.
    obtain ⟨m, hr, ht, hm⟩ := h.exists_resolve hn
    refine hresolve v _ _ hr (hparts v path m hm ht fun w l hd => ?_)
    obtain ⟨p, r, hsited, rfl⟩ := hm.descends hd
    exact ih w hd.mem_parts hsited

/-- The walk of a value in a well-formed graph leaves nothing unchecked. -/
theorem gaps_eq_nil (h : WellFormed defs root) (hn : Sited defs root path n) (policy : Policy)
    (v : Json) : (Walk.value defs policy v n.kind).gaps = [] := by
  refine h.walk_induction (P := fun v k => (Walk.value defs policy v k).gaps = []) ?_ ?_ hn v
  · intro v k l hr hl
    rwa [Walk.value_eq_of_resolve hr]
  · intro v path m _ ht hbelow
    rw [List.eq_nil_iff_forall_not_mem]
    intro g hg
    have hr : defs.resolve m.kind = .kind m.kind := Definitions.follow_of_target?_eq_none ht
    obtain ⟨w, l, hd, hg⟩ := (Walk.mem_gaps_iff hr).mp hg
    simp [hbelow w l hd] at hg

theorem finishes (h : WellFormed defs root) (hn : Sited defs root path n) (v : Json) :
    Walk.Finishes defs v n.kind := by
  refine Classical.byContradiction fun hf => ?_
  obtain ⟨t, ht⟩ := (Walk.exists_endless_gap_iff .preserve).mpr hf
  simp [h.gaps_eq_nil hn] at ht

end WellFormed

end SchemaGraph

end SiteContent
