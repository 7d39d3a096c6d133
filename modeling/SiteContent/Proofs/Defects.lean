import SiteContent.Proofs.LocalChecks
import SiteContent.Proofs.Visits

/-! Whatever the search finds wrong is wrong: each of its checks stands where it claims to stand,
so that its failure is a defect of the graph. -/

namespace SiteContent.Check

open Relation SchemaGraph

variable {defs : Definitions} {root : Schema} {fuel depth : Nat} {path t : String} {trail : Trail}
  {n m : Node} {e : Edge} {x : Visit}

/-- Where the search stands: at a node of the graph, inside the definitions of the trail. Those
that were entered at the same depth lead to the node without an array between. -/
structure Standing (defs : Definitions) (root : Schema) (fuel : Nat) (path : String)
    (trail : Trail) (depth : Nat) (n : Node) : Prop where
  sited : Sited defs root path n
  trail_distinct : (Dict.keys trail).Nodup
  trail_defined : ∀ s ∈ Dict.keys trail, (defs.get? s).isSome
  entered_le : ∀ s entered, (s, entered) ∈ trail → entered ≤ depth
  inside : ∀ s, (s, depth) ∈ trail → ∃ d, (s, d) ∈ defs ∧ ReflTransGen (Inlines defs) d n
  enough : List.length defs ≤ fuel + trail.length

namespace Standing

theorem start : Standing defs root (List.length defs) "" [] 0 (.object root) where
  sited := .root
  trail_distinct := List.nodup_nil
  trail_defined := by simp [Dict.keys]
  entered_le := by simp
  inside := by simp
  enough := by simp

theorem definition (h : (t, n) ∈ defs) :
    Standing defs root (List.length defs) t [(t, 0)] 0 n where
  sited := .definition h
  trail_distinct := by simp [Dict.keys]
  trail_defined := by
    intro s hs
    obtain rfl : s = t := by simpa [Dict.keys] using hs
    exact Dict.isSome_get?_of_mem h
  entered_le := by simp
  inside := by
    intro s hs
    obtain rfl : s = t := by simpa using hs
    exact ⟨n, h, .refl⟩
  enough := by simp

theorem part (h : Standing defs root fuel path trail depth n) (hm : (e, m) ∈ n.kind.parts) :
    Standing defs root fuel (e.extend path) trail (depth + e.arrays) m where
  sited := h.sited.part hm
  trail_distinct := h.trail_distinct
  trail_defined := h.trail_defined
  entered_le s entered hs := Nat.le_add_right_of_le (h.entered_le s entered hs)
  inside s hs := by
    cases e with
    | field name =>
      obtain ⟨d, hd, hr⟩ := h.inside s hs
      exact ⟨d, hd, hr.tail (.inl ⟨name, hm⟩)⟩
    | items =>
      have hle := h.entered_le s _ hs
      simp only [Edge.arrays] at hle
      omega
  enough := h.enough

theorem entered (h : Standing defs root (fuel + 1) path trail depth n)
    (hk : n.kind = .reference t) (hm : defs.get? t = some m) (ht : Dict.get? trail t = none) :
    Standing defs root fuel path ((t, depth) :: trail) depth m where
  sited := h.sited.target hk hm
  trail_distinct := List.nodup_cons.mpr ⟨Dict.get?_eq_none_iff.mp ht, h.trail_distinct⟩
  trail_defined s hs := by
    rcases List.mem_cons.mp hs with rfl | hs
    · simp [hm]
    · exact h.trail_defined s hs
  entered_le s entered hs := by
    rcases List.mem_cons.mp hs with he | hs
    · exact Nat.le_of_eq (Prod.mk.inj he).2
    · exact h.entered_le s entered hs
  inside s hs := by
    rcases List.mem_cons.mp hs with he | hs
    · obtain rfl := (Prod.mk.inj he).1
      exact ⟨m, Dict.mem_of_get?_eq_some hm, .refl⟩
    · obtain ⟨d, hd, hr⟩ := h.inside s hs
      exact ⟨d, hd, hr.tail (.inr ⟨t, hk, hm⟩)⟩
  enough := by
    have := h.enough
    simp only [List.length_cons]
    omega

/-- A trail that has no room left for a definition is inside all of them. -/
theorem fuel_ne_zero (h : Standing defs root fuel path trail depth n)
    (hm : defs.get? t = some m) (ht : Dict.get? trail t = none) : fuel ≠ 0 := by
  rintro rfl
  have hlt := Definitions.length_lt_of_fresh h.trail_distinct h.trail_defined
    (by simp [hm] : (defs.get? t).isSome) (Dict.get?_eq_none_iff.mp ht)
  have hle := h.enough
  simp only [Dict.keys, List.length_map] at hlt
  omega

end Standing

/-- A visit stands where it claims to stand. -/
def Visit.Placed (defs : Definitions) (root : Schema) : Visit → Prop
  | .field path seen name => ∃ n, Sited defs root path n ∧
      (name ∈ seen → 1 < n.kind.names.count name)
  | .cases path u => ∃ n, Sited defs root path n ∧ n.kind = .oneOf u
  | .reference target trail depth => (∃ path n, Sited defs root path n ∧
      n.kind = .reference target) ∧ ∀ entered, Dict.get? trail target = some entered →
        ¬ entered < depth → ∃ d, (target, d) ∈ defs ∧ Reaches defs d target
  | .default path k v => ∃ n, Sited defs root path n ∧ n.kind = k ∧ n.default = v
  | .spent _ => False

theorem Own.placed (h : Sited defs root path n) (hx : Own path n.kind x) :
    x.Placed defs root := by
  obtain ⟨k, required, d, hints⟩ := n
  cases hx with
  | @field s before after f he =>
    have hnames : s.names = before.map (·.name) ++ f.name :: after.map (·.name) := by
      simp [Shape.names, he]
    exact ⟨_, h, fun hm => one_lt_count_of_mem hnames (List.mem_reverse.mp hm)⟩
  | @common u before after f he =>
    have hnames : u.allNames = (u.tag :: before.map (·.name)) ++
        f.name :: (after.map (·.name) ++ u.variants.map (·.payload.name)) := by
      simp [TaggedUnion.allNames, Shape.names, he]
    exact ⟨_, h, fun hm => one_lt_count_of_mem hnames
      (List.mem_cons_of_mem _ (List.mem_reverse.mp hm))⟩
  | cases => exact ⟨_, h, rfl⟩

theorem reference_placed (h : Standing defs root fuel path trail depth n)
    (hk : n.kind = .reference t) : (Visit.reference t trail depth).Placed defs root := by
  refine ⟨⟨path, n, h.sited, hk⟩, fun entered he hlt => ?_⟩
  have hmem := Dict.mem_of_get?_eq_some he
  have hle := h.entered_le t entered hmem
  obtain rfl : entered = depth := by omega
  obtain ⟨d, hd, hr⟩ := h.inside t hmem
  exact ⟨d, hd, n, hr, hk⟩

theorem placed_of_onward (hgo : ∀ {path trail depth n t},
      Standing defs root fuel path trail depth n → n.kind = .reference t →
      x ∈ enterVisits defs fuel t path trail depth → x.Placed defs root)
    (h : Standing defs root fuel path trail depth n)
    (hx : x ∈ nodeVisits (enterVisits defs fuel) path trail depth n) : x.Placed defs root := by
  -- Inside a node the fuel stays the same; only a reference, left to `hgo`, takes some.
  induction n using Node.parts_induction generalizing path depth with
  | h n ih =>
    rcases mem_nodeVisits.mp hx with rfl | hown | ⟨e, m, hm, hx⟩ | ⟨t, hk, hx⟩
    · exact ⟨n, h.sited, rfl, rfl⟩
    · exact hown.placed h.sited
    · exact ih e m hm (h.part hm) hx
    · exact hgo h hk hx

theorem placed_of_mem_enterVisits (h : Standing defs root fuel path trail depth n)
    (hk : n.kind = .reference t) (hx : x ∈ enterVisits defs fuel t path trail depth) :
    x.Placed defs root := by
  induction fuel generalizing path trail depth n t with
  | zero =>
    rcases mem_enterVisits.mp hx with rfl | ⟨m, hm, ht, _⟩
    · exact reference_placed h hk
    · exact absurd rfl (h.fuel_ne_zero hm ht)
  | succ fuel ih =>
    rcases mem_enterVisits.mp hx with rfl | ⟨m, hm, ht, ⟨h0, _⟩ | ⟨less, hless, hx⟩⟩
    · exact reference_placed h hk
    · simp at h0
    · obtain rfl := Nat.succ.inj hless
      exact placed_of_onward ih (h.entered hk hm ht) hx

/-- The search never loses its way, nor its fuel. -/
theorem placed_of_mem_visits (hx : x ∈ visits defs root) : x.Placed defs root := by
  rcases List.mem_append.mp hx with hx | hx
  · exact placed_of_onward placed_of_mem_enterVisits .start hx
  · obtain ⟨⟨name, n⟩, hn, hx⟩ := List.mem_flatMap.mp hx
    exact placed_of_onward placed_of_mem_enterVisits (.definition hn) hx

theorem Visit.Placed.defect {err : SchemaError} (h : x.Placed defs root)
    (he : x.outcome defs = .error err) : Defect defs root err := by
  cases x with
  | field path seen name =>
    obtain ⟨n, hn, hc⟩ := h
    simp only [Visit.outcome] at he
    split at he
    · rename_i hm
      obtain rfl := Except.error.inj he
      refine ⟨path, n, hn, rfl, ?_⟩
      have hcount := hc hm
      cases hk : n.kind with
      | object s => exact .inl ⟨s, rfl, by simpa [hk, Kind.names] using hcount⟩
      | oneOf u => exact .inr ⟨u, rfl, by simpa [hk, Kind.names] using hcount⟩
      | _ => simp [hk, Kind.names] at hcount
    · simp at he
  | cases path u =>
    obtain ⟨n, hn, hk⟩ := h
    rcases fault_of_cases_error he with ⟨detail, rfl, hf⟩ | ⟨name, rfl, hc⟩
    · exact ⟨path, n, u, hn, hk, rfl, hf⟩
    · exact ⟨path, n, hn, rfl, .inr ⟨u, hk, hc⟩⟩
  | reference target trail depth =>
    obtain ⟨⟨path, n, hn, hk⟩, hloop⟩ := h
    simp only [Visit.outcome] at he
    split at he
    · rename_i hd
      obtain rfl := Except.error.inj he
      exact ⟨hd, path, n, hn, hk⟩
    · split at he
      · rename_i entered ht
        split at he
        · simp at he
        · rename_i hlt
          obtain rfl := Except.error.inj he
          exact hloop entered ht hlt
      · simp at he
  | default path k v =>
    obtain ⟨n, hn, rfl, hv⟩ := h
    cases v with
    | none => simp [Visit.outcome, Check.default] at he
    | some v =>
      rcases fault_of_default_error he with ⟨t, rfl, hf⟩ | ⟨d, ds, hds, rfl⟩
      · exact ⟨n, v, hn, hv, hf⟩
      · exact ⟨n, v, d, ds, hn, hv, hds, rfl⟩
  | spent target => exact h.elim

theorem defect_of_graph_error {err : SchemaError} (h : graph defs root = .error err) :
    Defect defs root err := by
  rw [graph_eq_forM, forM_eq_error_iff] at h
  obtain ⟨before, x, after, hl, _, hx⟩ := h
  have hmem : x ∈ visits defs root := by simp [hl]
  exact (placed_of_mem_visits hmem).defect hx

end SiteContent.Check
