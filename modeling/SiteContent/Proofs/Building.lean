import Mathlib.Data.List.Induction
import SiteContent.Collection.Basic
import SiteContent.Proofs.Defects
import SiteContent.Proofs.Recursion

/-! Building a collection: it succeeds for exactly the well-formed graphs, and an error names a
defect that is there. -/

namespace SiteContent

open SchemaGraph

namespace Check

variable {defs : Definitions} {root : Schema} {path : String} {n : Node} {e : SchemaError}

/-- The search comes to every node of the graph, though not always by the node's path. -/
theorem exists_nodeVisits_subset (h : Sited defs root path n) :
    ∃ fuel q trail depth,
      nodeVisits (enterVisits defs fuel) q trail depth n ⊆ visits defs root := by
  have hdef : ∀ {t m}, (t, m) ∈ defs → ∃ fuel q trail depth,
      nodeVisits (enterVisits defs fuel) q trail depth m ⊆ visits defs root := by
    intro t m hm
    refine ⟨defs.length, t, [(t, 0)], 0, fun x hx => ?_⟩
    exact List.mem_append_right _ (List.mem_flatMap.mpr ⟨(t, m), hm, hx⟩)
  induction h with
  | root => exact ⟨_, "", [], 0, List.subset_append_left _ _⟩
  | definition hm => exact hdef hm
  | @part _ _ m e _ hm ih =>
    obtain ⟨fuel, q, trail, depth, hsub⟩ := ih
    refine ⟨fuel, e.extend q, trail, depth + e.arrays, fun x hx => hsub ?_⟩
    exact mem_nodeVisits.mpr (.inr (.inr (.inl ⟨e, m, hm, hx⟩)))
  | target _ _ hm _ => exact hdef (Dict.mem_of_get?_eq_some hm)

theorem nodup_names_of_splits {fs : List (Field Node)} (h : ∀ before f after,
    fs = before ++ f :: after → f.name ∉ before.map (·.name)) : (fs.map (·.name)).Nodup := by
  induction fs using List.reverseRecOn with
  | nil => exact List.nodup_nil
  | append_singleton fs g ih =>
    have hlast : g.name ∉ fs.map (·.name) := h fs g [] rfl
    have hinit : (fs.map (·.name)).Nodup := by
      apply ih
      intro before f after he
      exact h before f (after ++ [g]) (by simp [he])
    rw [List.map_append, List.nodup_append]
    refine ⟨hinit, by simp, ?_⟩
    intro a ha b hb hab
    obtain rfl : b = g.name := by simpa using hb
    exact hlast (hab ▸ ha)

theorem wellFormed_of_visits_ok (hok : ∀ x ∈ visits defs root, x.outcome defs = .ok ()) :
    WellFormed defs root := by
  have hnode : ∀ {path n}, Sited defs root path n → ∃ fuel q trail depth,
      ∀ x ∈ nodeVisits (enterVisits defs fuel) q trail depth n, x.outcome defs = .ok () := by
    intro path n hn
    obtain ⟨fuel, q, trail, depth, hsub⟩ := exists_nodeVisits_subset hn
    exact ⟨fuel, q, trail, depth, fun x hx => hok x (hsub hx)⟩
  constructor
  case fields_distinct =>
    intro path n s hn hk
    obtain ⟨fuel, q, trail, depth, hx⟩ := hnode hn
    refine nodup_names_of_splits fun before f after he hm => ?_
    have hown : Own q n.kind (.field q (before.map (·.name)).reverse f.name) := hk ▸ .field he
    have hout := hx _ (mem_nodeVisits.mpr (.inr (.inl hown)))
    simp only [Visit.outcome, List.mem_reverse, hm, if_true] at hout
    cases hout
  case unions_lawful =>
    intro path n u hn hk
    obtain ⟨fuel, q, trail, depth, hx⟩ := hnode hn
    have hown : Own q n.kind (.cases q u) := hk ▸ .cases
    exact lawful_of_cases_ok (hx _ (mem_nodeVisits.mpr (.inr (.inl hown))))
  case resolved =>
    intro path n t hn hk
    obtain ⟨fuel, q, trail, depth, hx⟩ := hnode hn
    have hout := hx (.reference t trail depth)
      (mem_nodeVisits.mpr (.inr (.inr (.inr ⟨t, hk, mem_enterVisits.mpr (.inl rfl)⟩))))
    cases hd : defs.get? t with
    | none => simp [Visit.outcome, hd] at hout
    | some d => rfl
  case bounded => exact fun t n hn => not_reaches_of_visits_ok hn hok
  case defaults_clean =>
    intro path n v hn hv
    obtain ⟨fuel, q, trail, depth, hx⟩ := hnode hn
    have hout := hx _ (mem_nodeVisits.mpr (.inl rfl))
    rw [hv] at hout
    exact clean_of_default_ok hout

theorem wellFormed_of_graph_ok (h : graph defs root = .ok ()) : WellFormed defs root :=
  wellFormed_of_visits_ok (forM_eq_ok_iff.mp (graph_eq_forM defs root ▸ h))

end Check

namespace SchemaGraph

variable {defs : Definitions} {root : Schema} {e : SchemaError}

theorem Defect.not_wellFormed (h : Defect defs root e) : ¬ WellFormed defs root := by
  intro hw
  cases e with
  | fieldCollision name context =>
    obtain ⟨path, n, hn, _, ⟨s, hk, hc⟩ | ⟨u, hk, hc⟩⟩ := h
    · have hle := List.nodup_iff_count.mp (hw.fields_distinct path n s hn hk) name
      omega
    · have hle := List.nodup_iff_count.mp (hw.unions_lawful path n u hn hk).names_distinct name
      omega
  | unresolvedReference t =>
    obtain ⟨ht, path, n, hn, hk⟩ := h
    have hsome := hw.resolved path n t hn hk
    simp [ht] at hsome
  | unboundedRecursion t =>
    obtain ⟨n, hn, hr⟩ := h
    exact hw.bounded t n hn hr
  | variantMismatch tag detail =>
    obtain ⟨path, n, u, hn, hk, _, hf⟩ := h
    exact hf.not_lawful (hw.unions_lawful path n u hn hk)
  | invalidDefault path detail =>
    obtain ⟨n, v, d, ds, hn, hv, hds, _⟩ := h
    have hnil := hw.defaults_clean path n v hn hv
    simp [hds] at hnil
  | endlessDefault path t =>
    obtain ⟨n, v, hn, _, hf⟩ := h
    exact hf (hw.finishes hn v)
  | _ => exact h

end SchemaGraph

namespace Declaration

variable {d : Declaration}

theorem build_eq_ok_iff : (∃ c, d.build = .ok c) ↔ Check.graph d.definitions d.schema = .ok () := by
  rw [build]
  split
  · rename_i h
    simp [h]
  · rename_i e h
    simp [h]

theorem build_eq_error_iff {e : SchemaError} :
    d.build = .error e ↔ Check.graph d.definitions d.schema = .error e := by
  rw [build]
  split
  · rename_i h
    simp [h]
  · rename_i e h
    simp [h]

/-- A collection is built from exactly the well-formed graphs, and every error is truthful. -/
theorem build_ok_iff_wellFormed_and_error_defect (d : Declaration) :
    ((∃ c, d.build = .ok c) ↔ WellFormed d.definitions d.schema) ∧
      ∀ e, d.build = .error e → Defect d.definitions d.schema e := by
  have hdefect : ∀ e, d.build = .error e → Defect d.definitions d.schema e :=
    fun e he => Check.defect_of_graph_error (build_eq_error_iff.mp he)
  refine ⟨⟨fun h => Check.wellFormed_of_graph_ok (build_eq_ok_iff.mp h), fun hw => ?_⟩, hdefect⟩
  cases hb : d.build with
  | ok c => exact ⟨c, rfl⟩
  | error e => exact absurd hw (hdefect e hb).not_wellFormed

end Declaration

end SiteContent
