import SiteContent.Proofs.Building

/-! Does building a collection come to an end? The search itself always does. The walk of a default
need not: the definitions that it leads through may come later in the search. -/

namespace SiteContent

open Relation

namespace Walk

variable {defs : Definitions} {v : Json} {k : Kind Node}

/-- A walk without an end comes to a reference that leads back to itself. -/
theorem not_finishes_iff_exists_loop :
    ¬ Finishes defs v k ↔ ∃ w t, ReflTransGen (Calls defs) (w, .reference t) (v, k) ∧
      TransGen defs.Forwards (.reference t) (.reference t) := by
  constructor
  · intro h
    induction v using Json.parts_induction generalizing k with
    | h v ih =>
      cases hr : defs.resolve k with
      | gap g =>
        cases g with
        | unresolved t =>
          obtain ⟨hf, ht⟩ := Definitions.follow_eq_unresolved hr
          exact absurd ((finishes_iff_of_forwards hf).mpr (finishes_unresolved ht)) h
        | endless t =>
          obtain ⟨s, hf, hloop⟩ := Definitions.resolve_loops hr
          exact ⟨v, s, calls_of_forwards hf, hloop⟩
      | kind l =>
        obtain ⟨hf, hl⟩ := Definitions.follow_eq_kind hr
        rw [finishes_iff_of_forwards hf, finishes_iff_descends hl] at h
        simp only [not_forall] at h
        obtain ⟨w, m, hd, hw⟩ := h
        obtain ⟨u, t, hc, hloop⟩ := ih w hd.mem_parts hw
        exact ⟨u, t, (hc.tail (.descend hd)).trans (calls_of_forwards hf), hloop⟩
  · rintro ⟨w, t, hc, hloop⟩ h
    exact not_finishes_of_loop hloop (h.of_calls hc)

end Walk

namespace Check

variable {defs : Definitions} {x : Visit}

/-- The walk of a default that goes on for ever. -/
def Visit.Endless (defs : Definitions) : Visit → Prop
  | .default _ k (some v) => ¬ Walk.Finishes defs v k
  | _ => False

theorem Visit.endless_iff :
    x.Endless defs ↔ ∃ path t, x.outcome defs = .error (.endlessDefault path t) := by
  cases x with
  | field path seen name =>
    simp only [Endless, outcome, false_iff, not_exists]
    intro p t
    split <;> simp
  | cases path u =>
    simp only [Endless, outcome, false_iff, not_exists]
    intro p t he
    rcases fault_of_cases_error he with ⟨_, h, _⟩ | ⟨_, h, _⟩
    · cases h
    · cases h
  | reference target trail depth =>
    simp only [Endless, outcome, false_iff, not_exists]
    intro p t
    split
    · simp
    · split
      · split <;> simp
      · simp
  | default path k v =>
    cases v with
    | none => simp [Endless, outcome, Check.default]
    | some v => exact default_eq_endless_iff.symm
  | spent target => simp [Endless, outcome]

end Check

/-- Fuel never cuts the search of a graph short, and a build has no answer only when the checks that
come before a default succeed and the walk of the default has no end. -/
theorem Declaration.build_endless_iff (d : Declaration) :
    (∀ t, Check.Visit.spent t ∉ Check.visits d.definitions d.schema) ∧
      ((∃ path t, d.build = .error (.endlessDefault path t)) ↔
        ∃ before x after, Check.visits d.definitions d.schema = before ++ x :: after ∧
          (∀ y ∈ before, y.outcome d.definitions = .ok ()) ∧ x.Endless d.definitions) := by
  refine ⟨fun t ht => Check.placed_of_mem_visits ht, ?_⟩
  simp only [build_eq_error_iff, Check.graph_eq_forM, Check.forM_eq_error_iff,
    Check.Visit.endless_iff]
  constructor
  · rintro ⟨path, t, before, x, after, hl, hb, hx⟩
    exact ⟨before, x, after, hl, hb, path, t, hx⟩
  · rintro ⟨before, x, after, hl, hb, path, t, hx⟩
    exact ⟨path, t, before, x, after, hl, hb, hx⟩

/-- The default of an array's items is walked before the search has come to `loop`. -/
theorem Declaration.exists_build_endless :
    ∃ d : Declaration, d.build = .error (.endlessDefault "a.xs[]" "loop") := by
  let items := (Node.reference "a").withDefault (.obj [("y", .num (.int 1))])
  let a := Node.object (.ofList [("xs", .array items), ("y", .reference "loop")])
  refine ⟨⟨"", .page, default, .empty, [("a", a), ("loop", .reference "loop")]⟩, ?_⟩
  exact build_eq_error_iff.mpr rfl

end SiteContent
