import SiteContent.Proofs.SchemaGraph

/-! The checks that look at one node alone: at the cases and names of a union, and at a default.
Each passes what it should, and says truly what is wrong with the rest. -/

namespace SiteContent.Check

theorem one_lt_count_of_mem {names before after : List String} {name : String}
    (h : names = before ++ name :: after) (hm : name ∈ before) : 1 < names.count name := by
  have hpos : 0 < before.count name := List.count_pos_iff.mpr hm
  rw [h, List.count_append, List.count_cons_self]
  omega

theorem one_lt_count_of_firstRepeat? {seen names : List String} {name : String}
    (h : Names.firstRepeat? seen names = some name) : 1 < (seen ++ names).count name := by
  induction names generalizing seen with
  | nil => simp [Names.firstRepeat?] at h
  | cons a rest ih =>
    rw [Names.firstRepeat?] at h
    split at h
    · rename_i hm
      obtain rfl := Option.some.inj h
      exact one_lt_count_of_mem rfl hm
    · have hrest := ih h
      simp only [List.cons_append, List.count_cons, List.count_append] at hrest ⊢
      omega

section Cases

variable {u : TaggedUnion Node} {path : String} {e : SchemaError}

theorem caseFault?_eq_none {tags : Enumeration} {seen ts : List String}
    (h : caseFault? tags seen ts = none) :
    ts.Nodup ∧ (∀ t ∈ ts, t ∉ seen) ∧ ∀ t ∈ ts, t ∈ tags.members := by
  induction ts generalizing seen with
  | nil => simp
  | cons t rest ih =>
    rw [caseFault?] at h
    split at h
    · simp at h
    · rename_i hm
      split at h
      · simp at h
      · rename_i hs
        obtain ⟨hnd, hseen, hmem⟩ := ih h
        have ht : t ∈ tags.members := by simpa [Enumeration.isMember] using hm
        refine ⟨List.nodup_cons.mpr ⟨fun hr => hseen t hr List.mem_cons_self, hnd⟩, ?_, ?_⟩
        · intro s hs'
          rcases List.mem_cons.mp hs' with rfl | hr
          · exact hs
          · exact fun hm => hseen s hr (List.mem_cons_of_mem _ hm)
        · intro s hs'
          rcases List.mem_cons.mp hs' with rfl | hr
          · exact ht
          · exact hmem s hr

theorem caseFault?_eq_some {tags : Enumeration} {seen ts : List String} {detail : String}
    (h : caseFault? tags seen ts = some detail) :
    (∃ t ∈ ts, t ∉ tags.members ∧ detail = "case '" ++ t ++ "' is not in " ++ tags.name) ∨
    ∃ t, 1 < (seen ++ ts).count t ∧ detail = "case '" ++ t ++ "' is declared twice" := by
  induction ts generalizing seen with
  | nil => simp [caseFault?] at h
  | cons t rest ih =>
    rw [caseFault?] at h
    split at h
    · rename_i hm
      refine .inl ⟨t, List.mem_cons_self, ?_, (Option.some.inj h).symm⟩
      simpa [Enumeration.isMember] using hm
    · split at h
      · rename_i hs
        exact .inr ⟨t, one_lt_count_of_mem rfl hs, (Option.some.inj h).symm⟩
      · rcases ih h with ⟨s, hs, hm, rfl⟩ | ⟨s, hc, rfl⟩
        · exact .inl ⟨s, List.mem_cons_of_mem _ hs, hm, rfl⟩
        · refine .inr ⟨s, ?_, rfl⟩
          simp only [List.cons_append, List.count_cons, List.count_append] at hc ⊢
          omega

theorem lawful_of_cases_ok (h : cases path u = .ok ()) : u.Lawful := by
  simp only [cases] at h
  split at h
  · simp at h
  · rename_i hfault
    split at h
    · simp at h
    · rename_i hmissing
      split at h
      · simp at h
      · rename_i hnames
        obtain ⟨hnd, _, hmem⟩ := caseFault?_eq_none hfault
        obtain ⟨hnames, htag⟩ := (Names.firstRepeat?_eq_none_iff _ _).mp hnames
        refine ⟨hnd, fun t => ⟨hmem t, fun ht => ?_⟩, ?_⟩
        · simpa [TaggedUnion.caseTags] using List.find?_eq_none.mp hmissing t ht
        · exact List.nodup_cons.mpr ⟨fun hm => htag _ hm (by simp), hnames⟩

theorem fault_of_cases_error (h : cases path u = .error e) :
    (∃ detail, e = .variantMismatch u.tag detail ∧ u.CaseFault detail) ∨
    ∃ name, e = .fieldCollision name (context path) ∧ 1 < u.allNames.count name := by
  simp only [cases] at h
  split at h
  · rename_i detail hfault
    refine .inl ⟨detail, (Except.error.inj h).symm, ?_⟩
    rcases caseFault?_eq_some hfault with ⟨t, ht, hm, rfl⟩ | ⟨t, hc, rfl⟩
    · exact .foreign ht hm
    · exact .twice (by simpa [TaggedUnion.caseTags] using hc)
  · split at h
    · rename_i m hm
      have hnot : m ∉ u.caseTags := by simpa [TaggedUnion.caseTags] using List.find?_some hm
      exact .inl ⟨_, (Except.error.inj h).symm, .missing (List.mem_of_find?_eq_some hm) hnot⟩
    · split at h
      · rename_i name hname
        exact .inr ⟨name, (Except.error.inj h).symm, one_lt_count_of_firstRepeat? hname⟩
      · simp at h

end Cases

section Default

variable {defs : Definitions} {path : String} {k : Kind Node} {v : Json} {e : SchemaError}

/-- The check of a default goes wrong in two ways: it has no end, or it finds something. -/
theorem default_eq (defs : Definitions) (path : String) (k : Kind Node) (v : Json) :
    (∃ t, default defs path k (some v) = .error (.endlessDefault path t) ∧
      ¬ Walk.Finishes defs v k) ∨
    Walk.Finishes defs v k ∧ default defs path k (some v) =
      match (Walk.value defs .preserve v k).diagnostics with
      | [] => .ok ()
      | d :: _ => .error (.invalidDefault path d.cause.message) := by
  simp only [default]
  split
  · rename_i t ht
    obtain ⟨g, hg, hgt⟩ := List.exists_of_findSome?_eq_some ht
    cases g with
    | unresolved s => simp at hgt
    | endless s => exact .inl ⟨t, rfl, (Walk.exists_endless_gap_iff .preserve).mp ⟨s, hg⟩⟩
  · rename_i hnone
    refine .inr ⟨Classical.byContradiction fun hf => ?_, rfl⟩
    obtain ⟨t, ht⟩ := (Walk.exists_endless_gap_iff .preserve).mpr hf
    simpa using List.findSome?_eq_none_iff.mp hnone _ ht

theorem default_eq_endless_iff :
    (∃ p t, default defs path k (some v) = .error (.endlessDefault p t)) ↔
      ¬ Walk.Finishes defs v k := by
  rcases default_eq defs path k v with ⟨t, he, hf⟩ | ⟨hf, he⟩
  · simp [he, hf]
  · rw [he]
    cases (Walk.value defs .preserve v k).diagnostics <;> simp [hf]

theorem clean_of_default_ok (h : default defs path k (some v) = .ok ()) :
    (Walk.value defs .preserve v k).diagnostics = [] := by
  rcases default_eq defs path k v with ⟨t, he, _⟩ | ⟨_, he⟩
  · simp [he] at h
  · rw [he] at h
    cases hd : (Walk.value defs .preserve v k).diagnostics with
    | nil => rfl
    | cons d ds => simp [hd] at h

theorem fault_of_default_error (h : default defs path k (some v) = .error e) :
    (∃ t, e = .endlessDefault path t ∧ ¬ Walk.Finishes defs v k) ∨
    ∃ d ds, (Walk.value defs .preserve v k).diagnostics = d :: ds ∧
      e = .invalidDefault path d.cause.message := by
  rcases default_eq defs path k v with ⟨t, he, hf⟩ | ⟨_, he⟩
  · rw [he] at h
    exact .inl ⟨t, (Except.error.inj h).symm, hf⟩
  · rw [he] at h
    cases hd : (Walk.value defs .preserve v k).diagnostics with
    | nil => simp [hd] at h
    | cons d ds =>
      simp only [hd] at h
      exact .inr ⟨d, ds, rfl, (Except.error.inj h).symm⟩

end Default

end SiteContent.Check
