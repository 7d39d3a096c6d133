import SiteContent.Proofs.Conformance

/-! Validation comes to an end, and on its way nothing is passed over. A reference takes nothing off
the value, so what bounds a walk is the number of references between two steps into the value: no
definition is entered twice there. -/

namespace SiteContent

open Relation

namespace Definitions

/-- References that are followed one after the other, by the names of their targets. -/
inductive Chain (defs : Definitions) : Kind Node → List String → Kind Node → Prop
  | nil {k : Kind Node} : Chain defs k [] k
  | cons {t : String} {n : Node} {names : List String} {l : Kind Node} :
      defs.get? t = some n → Chain defs n.kind names l →
      Chain defs (.reference t) (t :: names) l

variable {defs : Definitions} {k l : Kind Node} {t : String} {names : List String}

theorem Chain.isSome (h : Chain defs k names l) (ht : t ∈ names) : (defs.get? t).isSome := by
  induction h with
  | nil => simp at ht
  | cons hn _ ih =>
    rcases List.mem_cons.mp ht with rfl | ht
    · simp [hn]
    · exact ih ht

theorem Chain.forwards (h : Chain defs k names l) (ht : t ∈ names) :
    ReflTransGen defs.Forwards k (.reference t) := by
  induction h with
  | nil => simp at ht
  | cons hn _ ih =>
    rcases List.mem_cons.mp ht with rfl | ht
    · exact .refl
    · exact .head (.intro hn) (ih ht)

theorem Chain.nodup (h : Chain defs k names l)
    (hloop : ∀ t, ¬ TransGen defs.Forwards (.reference t) (.reference t)) : names.Nodup := by
  induction h with
  | nil => exact List.nodup_nil
  | cons hn hc ih =>
    refine List.nodup_cons.mpr ⟨fun ht => ?_, ih⟩
    exact hloop _ (.head' (.intro hn) (hc.forwards ht))

/-- Where no definition comes back to itself, a chain enters each of them at most once. -/
theorem Chain.length_le (h : Chain defs k names l)
    (hloop : ∀ t, ¬ TransGen defs.Forwards (.reference t) (.reference t)) :
    names.length ≤ List.length defs := by
  have hsub : names ⊆ Dict.keys defs := fun t ht => Dict.isSome_get?_iff.mp (h.isSome ht)
  have hle := (h.nodup hloop).length_le_of_subset hsub
  simpa [Dict.keys] using hle

theorem follow_succ {fuel : Nat} {n : Node} (hn : defs.get? t = some n) :
    follow defs (fuel + 1) (.reference t) = follow defs fuel n.kind := by
  simp [follow, hn]

/-- More fuel changes nothing once there was enough. -/
theorem follow_eq_of_le {fuel fuel' : Nat} (h : ∀ t, follow defs fuel k ≠ .gap (.endless t))
    (hle : fuel ≤ fuel') : follow defs fuel' k = follow defs fuel k := by
  fun_induction follow defs fuel k generalizing fuel' with
  | case1 fuel t ht => cases fuel' <;> simp [follow, ht]
  | case2 t => exact absurd rfl (h t)
  | case3 t n fuel hn ih =>
    obtain ⟨more, rfl⟩ : ∃ more, fuel' = more + 1 := ⟨fuel' - 1, by omega⟩
    rw [follow_succ hn]
    exact ih h (by omega)
  | case4 fuel k hk => exact follow_of_target?_eq_none (Kind.target?_eq_none_iff.mpr hk)

/-- Where a reference leads to, its definition leads to as well. -/
theorem resolve_of_forwards (hf : defs.Forwards k l)
    (h : ∀ t, defs.resolve k ≠ .gap (.endless t)) : defs.resolve l = defs.resolve k := by
  cases hf with
  | @intro t n hn =>
    rw [resolve] at h
    cases hfuel : List.length defs with
    | zero => simp [hfuel, follow, hn] at h
    | succ fuel =>
      rw [hfuel, follow_succ hn] at h
      rw [resolve, resolve, hfuel, follow_succ hn]
      exact follow_eq_of_le h (Nat.le_succ fuel)

end Definitions

/-- Where a walk has an end, a reference is walked as the definition that it names. -/
theorem Walk.Finishes.value_of_forwards {defs : Definitions} {v : Json} {k l : Kind Node}
    (h : Finishes defs v k) (hf : defs.Forwards k l) (policy : Policy) :
    value defs policy v k = value defs policy v l := by
  have hresolve : ∀ t, defs.resolve k ≠ .gap (.endless t) := by
    intro t ht
    refine (exists_endless_gap_iff policy).mp ⟨t, ?_⟩ h
    rw [gaps_of_resolve_gap ht]
    exact List.mem_singleton_self _
  rw [value_eq, value_eq, resolved, resolved, Definitions.resolve_of_forwards hf hresolve]

namespace SchemaGraph

variable {defs : Definitions} {root : Schema} {path : String} {n : Node} {l : Kind Node}
  {v w : Json}

theorem Sited.calls (hn : Sited defs root path n) (hc : Walk.Calls defs (w, l) (v, n.kind)) :
    ∃ p m, Sited defs root p m ∧ m.kind = l := by
  generalize hk : n.kind = k at hc
  cases hc with
  | forward hf =>
    obtain ⟨m, hm, hsited⟩ := exists_sited_of_forwards hn (ReflTransGen.single (hk.symm ▸ hf))
    exact ⟨path, m, hsited, hm⟩
  | descend hd => exact hn.descends (hk ▸ hd)

/-- Whatever a walk is called for on its way stands in the graph. -/
theorem Sited.of_calls {x : Json × Kind Node} (hn : Sited defs root path n)
    (hc : ReflTransGen (Walk.Calls defs) x (v, n.kind)) :
    ∃ p m, Sited defs root p m ∧ m.kind = x.2 := by
  induction hc using ReflTransGen.head_induction_on with
  | refl => exact ⟨path, n, hn, rfl⟩
  | @head x y hs _ ih =>
    obtain ⟨w, l⟩ := x
    obtain ⟨v, k⟩ := y
    obtain ⟨p, m, hm, rfl⟩ := ih
    exact hm.calls hs

namespace WellFormed

/-- A reference is walked as the definition that it names. -/
theorem value_of_forwards (h : WellFormed defs root) (hn : Sited defs root path n)
    (hf : defs.Forwards n.kind l) (policy : Policy) (v : Json) :
    Walk.value defs policy v n.kind = Walk.value defs policy v l :=
  (h.finishes hn v).value_of_forwards hf policy

end WellFormed

end SchemaGraph

namespace Walk

/-- A call in which nothing is passed over: whichever way the walk goes on from it, it comes to a
schema within bounds. -/
structure Covered (defs : Definitions) (policy : Policy) (v : Json) (k : Kind Node) : Prop where
  chains_bounded : ∀ names l, defs.Chain k names l → names.length ≤ List.length defs
  descents_shrink : ∀ w l, Descends v k w l → sizeOf w < sizeOf v
  references_followed : ∀ t, k = .reference t → ∃ n, defs.get? t = some n ∧
    value defs policy v k = value defs policy v n.kind
  tags_have_cases : ∀ u, k = .oneOf u → ∀ t ∈ u.tags.members,
    ∃ c ∈ u.variants, c.tag = t ∧ u.variantFor? t = some c

end Walk

theorem SchemaGraph.WellFormed.covered {defs : Definitions} {root : Schema} {path : String}
    {n : Node} (h : WellFormed defs root) (hn : Sited defs root path n) (policy : Policy)
    (v : Json) : Walk.Covered defs policy v n.kind where
  chains_bounded _ _ hc := hc.length_le fun _ => h.not_loop
  descents_shrink _ _ hd := Json.sizeOf_lt_of_mem_parts hd.mem_parts
  references_followed t hk := by
    obtain ⟨m, hm⟩ := Option.isSome_iff_exists.mp (h.resolved path n t hn hk)
    exact ⟨m, hm, h.value_of_forwards hn (hk ▸ .intro hm) policy v⟩
  tags_have_cases u hk t ht := by
    have hu := h.unions_lawful path n u hn hk
    obtain ⟨c, hc, rfl⟩ := List.mem_map.mp ((hu.tags_exact t).mpr ht)
    exact ⟨c, hc, rfl, hu.variantFor?_eq_some hc⟩

/-- Validating a document comes to an end with no bound set on the references that are followed. It
leaves no gap, and passes over nothing in any of the calls that it makes. -/
theorem Collection.walk_finishes_covered (c : Collection) (policy : Policy) (raw : Json) :
    Walk.Finishes c.definitions raw (.object c.schema) ∧ (c.walk policy raw).gaps = [] ∧
      ∀ v k, ReflTransGen (Walk.Calls c.definitions) (v, k) (raw, .object c.schema) →
        Walk.Covered c.definitions policy v k := by
  have hroot : SchemaGraph.Sited c.definitions c.schema "" (.object c.schema) := .root
  refine ⟨c.wellFormed.finishes hroot raw, c.wellFormed.gaps_eq_nil hroot policy raw, ?_⟩
  intro v k hc
  obtain ⟨p, m, hm, rfl⟩ := hroot.of_calls hc
  exact c.wellFormed.covered hm policy v

end SiteContent
