import SiteContent.Proofs.Visits

/-! A search that passes has found every definition that comes back to itself without crossing an
array: on a shortest way back no definition is entered twice, so nothing turns the search away
before it meets the definition that it started from. -/

namespace SiteContent.Check

open Relation SchemaGraph

/-- A way to a reference to `target` that crosses no array, with the definitions that it enters. -/
inductive Route (defs : Definitions) : Node → List String → String → Prop
  | here {n : Node} {target : String} : n.kind = .reference target → Route defs n [] target
  | part {n m : Node} {name target : String} {names : List String} :
      (.field name, m) ∈ n.kind.parts → Route defs m names target → Route defs n names target
  | enter {n m : Node} {s target : String} {names : List String} :
      n.kind = .reference s → defs.get? s = some m → Route defs m names target →
      Route defs n (s :: names) target

variable {defs : Definitions} {n m : Node} {s t : String} {names : List String}

theorem exists_route (h : Reaches defs n t) : ∃ names, Route defs n names t := by
  obtain ⟨m, hr, hm⟩ := h
  induction hr using ReflTransGen.head_induction_on with
  | refl => exact ⟨[], .here hm⟩
  | head hs _ ih =>
    obtain ⟨names, hroute⟩ := ih
    rcases hs with ⟨name, hp⟩ | ⟨s, hk, hd⟩
    · exact ⟨names, .part hp hroute⟩
    · exact ⟨s :: names, .enter hk hd hroute⟩

theorem Route.after {before after : List String} (h : Route defs n (before ++ s :: after) t) :
    ∃ d, defs.get? s = some d ∧ Route defs d after t := by
  generalize hl : before ++ s :: after = l at h
  induction h generalizing before with
  | here _ => simp at hl
  | part _ _ ih => exact ih hl
  | @enter n m r t names hk hd hroute ih =>
    cases before with
    | nil =>
      obtain ⟨rfl, rfl⟩ := List.cons.inj hl
      exact ⟨m, hd, hroute⟩
    | cons b before =>
      obtain ⟨rfl, rfl⟩ := List.cons.inj hl
      exact ih rfl

/-- Cutting out what lies between two entries of one definition leaves a way. -/
theorem Route.shorten (h : Route defs n names t) :
    ∃ short, Route defs n short t ∧ short.Nodup ∧ t ∉ short := by
  induction h with
  | here hk => exact ⟨[], .here hk, List.nodup_nil, by simp⟩
  | part hp _ ih =>
    obtain ⟨short, hr, hnd, ht⟩ := ih
    exact ⟨short, .part hp hr, hnd, ht⟩
  | @enter n m s t names hk hd _ ih =>
    obtain ⟨short, hr, hnd, ht⟩ := ih
    by_cases hst : s = t
    · subst hst
      exact ⟨[], .here hk, List.nodup_nil, by simp⟩
    by_cases hs : s ∈ short
    · obtain ⟨before, after, rfl⟩ := List.append_of_mem hs
      obtain ⟨d, hd', hroute⟩ := hr.after
      have hsub : (s :: after).Sublist (before ++ s :: after) := List.sublist_append_right _ _
      exact ⟨s :: after, .enter hk hd' hroute, hnd.sublist hsub, fun hm => ht (hsub.subset hm)⟩
    · refine ⟨s :: short, .enter hk hd hr, List.nodup_cons.mpr ⟨hs, hnd⟩, ?_⟩
      intro hm
      rcases List.mem_cons.mp hm with rfl | hm
      · exact hst rfl
      · exact ht hm

/-- A search inside `target`, with no array crossed since, does not pass a way back to it. -/
theorem Route.not_passes {fuel depth : Nat} {path : String} {trail : Trail}
    (h : Route defs n names t) (hnd : names.Nodup)
    (hfresh : ∀ s ∈ names, Dict.get? trail s = none) (ht : Dict.get? trail t = some depth)
    (hok : ∀ x ∈ nodeVisits (enterVisits defs fuel) path trail depth n,
      x.outcome defs = .ok ()) : False := by
  induction h generalizing fuel path trail with
  | @here n t hk =>
    have hx := hok (.reference t trail depth)
      (mem_nodeVisits.mpr (.inr (.inr (.inr ⟨t, hk, mem_enterVisits.mpr (.inl rfl)⟩))))
    cases hd : Dict.get? defs t with
    | none => simp [Visit.outcome, hd] at hx
    | some d => simp [Visit.outcome, hd, ht] at hx
  | @part n m name t names hp _ ih =>
    have hpart : ∀ x ∈ nodeVisits (enterVisits defs fuel) (join path name) trail depth m,
        x.outcome defs = .ok () :=
      fun x hx => hok x (mem_nodeVisits.mpr (.inr (.inr (.inl ⟨.field name, m, hp, hx⟩))))
    exact ih hnd hfresh ht hpart
  | @enter n m s t names hk hd _ ih =>
    obtain ⟨hs, hnd⟩ := List.nodup_cons.mp hnd
    have hst : Dict.get? trail s = none := hfresh s List.mem_cons_self
    have hmem : ∀ x ∈ enterVisits defs fuel s path trail depth, x.outcome defs = .ok () :=
      fun x hx => hok x (mem_nodeVisits.mpr (.inr (.inr (.inr ⟨s, hk, hx⟩))))
    cases fuel with
    | zero =>
      -- A search out of fuel does not pass in silence: `spent` is a check that fails.
      have hx := hmem (.spent s) (mem_enterVisits.mpr (.inr ⟨m, hd, hst, .inl ⟨rfl, rfl⟩⟩))
      simp [Visit.outcome] at hx
    | succ fuel =>
      have hne : s ≠ t := by
        rintro rfl
        simp [hst] at ht
      have hfresh' : ∀ r ∈ names, Dict.get? ((s, depth) :: trail) r = none := by
        intro r hr
        have hsr : s ≠ r := fun he => hs (he ▸ hr)
        simpa [Dict.get?, hsr] using hfresh r (List.mem_cons_of_mem _ hr)
      have ht' : Dict.get? ((s, depth) :: trail) t = some depth := by
        simpa [Dict.get?, hne] using ht
      exact ih hnd hfresh' ht' fun x hx =>
        hmem x (mem_enterVisits.mpr (.inr ⟨m, hd, hst, .inr ⟨fuel, rfl, hx⟩⟩))

theorem not_reaches_of_visits_ok {root : Schema} (h : (t, n) ∈ defs)
    (hok : ∀ x ∈ visits defs root, x.outcome defs = .ok ()) : ¬ Reaches defs n t := by
  intro hr
  obtain ⟨names, hroute⟩ := exists_route hr
  obtain ⟨short, hroute, hnd, hts⟩ := hroute.shorten
  have hfresh : ∀ s ∈ short, Dict.get? [(t, 0)] s = none := by
    intro s hs
    have hne : t ≠ s := fun he => hts (he ▸ hs)
    simp [Dict.get?, hne]
  have hself : Dict.get? [(t, 0)] t = some 0 := by simp [Dict.get?]
  exact hroute.not_passes hnd hfresh hself fun x hx =>
    hok x (List.mem_append_right _ (List.mem_flatMap.mpr ⟨(t, n), h, hx⟩))

end SiteContent.Check
