import SiteContent.Package
import SiteContent.Proofs.Faults
import SiteContent.Proofs.Loading
import SiteContent.Registry.Indexed

/-! The index of a registry and its list. Every call to register keeps them in step, also one that
fails, so that what is found by name is what the list has under that name. -/

namespace SiteContent

namespace IndexedRegistry

variable {x : IndexedRegistry} {r : Registry} {c : Collection} {calls : List Collection}
  {n : String}

/-- The index has the position of every name, and of nothing else. -/
structure InStep (x : IndexedRegistry) : Prop where
  names_distinct : x.names.Nodup
  index_exact : ∀ n i, x.index.get? n = some i ↔ x.names[i]? = some n

theorem inStep_empty : empty.InStep where
  names_distinct := List.nodup_nil
  index_exact _ _ := iff_of_false nofun nofun

theorem InStep.contains_iff (h : x.InStep) : x.contains n = true ↔ n ∈ x.names := by
  rw [contains, Dict.contains, Option.isSome_iff_exists, List.mem_iff_getElem?]
  exact exists_congr (h.index_exact n)

theorem register_taken (h : x.InStep) (hc : c.name ∈ x.names) :
    x.register c = (x, .error (.duplicateCollection c.name)) := by
  rw [register, if_pos (h.contains_iff.mpr hc)]

theorem register_fresh (h : x.InStep) (hc : c.name ∉ x.names) :
    x.register c = (⟨x.collections ++ [c], x.index.insert c.name x.size⟩, .ok ()) := by
  rw [register, if_neg fun hcontains => hc (h.contains_iff.mp hcontains)]

theorem InStep.register_eq_error_iff (h : x.InStep) {e : SchemaError} :
    (x.register c).2 = .error e ↔ e = .duplicateCollection c.name ∧ c.name ∈ x.names := by
  by_cases hc : c.name ∈ x.names
  · rw [register_taken h hc, and_iff_left hc, Except.error.injEq, eq_comm]
  · rw [register_fresh h hc]
    exact iff_of_false (fun he => nomatch he) fun hboth => hc hboth.2

theorem inStep_append (h : x.InStep) (hc : c.name ∉ x.names) :
    InStep ⟨x.collections ++ [c], x.index.insert c.name x.size⟩ := by
  have hnames : names ⟨x.collections ++ [c], x.index.insert c.name x.size⟩ =
      x.names ++ [c.name] := by
    simp [names]
  have hsize : x.size = x.names.length := by
    simp [names, size]
  have hfresh : ∀ i, x.names[i]? ≠ some c.name := fun i hi => hc (List.mem_of_getElem? hi)
  refine ⟨?_, fun n i => ?_⟩
  · rw [hnames]
    exact List.nodup_append.mpr ⟨h.names_distinct, List.nodup_singleton _, by grind⟩
  · rw [hnames, hsize, List.getElem?_append]
    by_cases hn : c.name = n
    · rw [← hn, Dict.get?_insert_self]
      grind
    · rw [Dict.get?_insert_of_ne _ _ hn, h.index_exact]
      grind

theorem InStep.register (h : x.InStep) (c : Collection) : (x.register c).1.InStep := by
  by_cases hc : c.name ∈ x.names
  · rwa [register_taken h hc]
  · rw [register_fresh h hc]
    exact inStep_append h hc

theorem after_concat (calls : List Collection) (c : Collection) :
    after (calls ++ [c]) = ((after calls).register c).1 := by
  simp [after, List.foldl_append]

theorem inStep_after (calls : List Collection) : (after calls).InStep := by
  induction calls using List.reverseRecOn with
  | nil => exact inStep_empty
  | append_singleton calls c ih =>
    rw [after_concat]
    exact ih.register c

/-- The calls that are the first with their names. -/
def firsts : List Collection → List Collection
  | [] => []
  | c :: cs => c :: (firsts cs).filter fun d => d.name ≠ c.name

theorem mem_names_firsts : n ∈ (firsts calls).map (·.name) ↔ n ∈ calls.map (·.name) := by
  induction calls with
  | nil => rfl
  | cons b bs ih =>
    by_cases hb : n = b.name
    · simp [firsts, hb]
    · have hrest : n ∈ ((firsts bs).filter fun d => d.name ≠ b.name).map (·.name) ↔
          n ∈ (firsts bs).map (·.name) := by
        simp only [List.mem_map, List.mem_filter, decide_eq_true_eq]
        grind
      simp only [firsts, List.map_cons, List.mem_cons, hrest, ih]

theorem firsts_concat (calls : List Collection) (c : Collection) :
    firsts (calls ++ [c]) =
      if c.name ∈ (firsts calls).map (·.name) then firsts calls else firsts calls ++ [c] := by
  induction calls with
  | nil => simp [firsts]
  | cons b bs ih =>
    simp only [mem_names_firsts, List.map_cons, List.mem_cons] at ih ⊢
    by_cases hin : c.name ∈ bs.map (·.name)
    · rw [List.cons_append, firsts, ih, if_pos hin, if_pos (.inr hin), firsts]
    · rw [List.cons_append, firsts, ih, if_neg hin, List.filter_append]
      by_cases hb : c.name = b.name
      · simp [hb, firsts]
      · simp [hb, hin, firsts]

theorem collections_after (calls : List Collection) :
    (after calls).collections = firsts calls := by
  induction calls using List.reverseRecOn with
  | nil => rfl
  | append_singleton calls c ih =>
    rw [after_concat, firsts_concat, ← ih]
    by_cases hc : c.name ∈ (after calls).names
    · rw [register_taken (inStep_after calls) hc]
      exact (if_pos hc).symm
    · rw [register_fresh (inStep_after calls) hc]
      exact (if_neg hc).symm

theorem InStep.lookup_of_mem (h : x.InStep) (hc : c ∈ x.collections) :
    x.lookup c.name = some (some c) := by
  obtain ⟨i, hi⟩ := List.mem_iff_getElem?.mp hc
  have hposition : x.index.get? c.name = some i := by
    rw [h.index_exact, names, List.getElem?_map, hi, Option.map_some]
  rw [lookup, hposition, Option.map_some, hi]

theorem InStep.lookup_eq_none_iff (h : x.InStep) : x.lookup n = none ↔ n ∉ x.names := by
  rw [lookup, Option.map_eq_none_iff, ← Option.not_isSome_iff_eq_none, ← Dict.contains, ← contains,
    h.contains_iff]

theorem InStep.lookup_eq_some_iff (h : x.InStep) :
    x.lookup n = some (some c) ↔ c ∈ x.collections ∧ c.name = n := by
  constructor
  · intro hlookup
    have hn : n ∈ x.names := by
      by_contra habsent
      simp [h.lookup_eq_none_iff.mpr habsent] at hlookup
    obtain ⟨d, hd, rfl⟩ := List.mem_map.mp hn
    obtain rfl : d = c := by simpa [h.lookup_of_mem hd] using hlookup
    exact ⟨hd, rfl⟩
  · rintro ⟨hc, rfl⟩
    exact h.lookup_of_mem hc

/-- What the running registry has under a name is what stands at its position. -/
theorem InStep.lookup_eq (h : x.InStep) (hr : r.collections = x.collections) (n : String) :
    x.lookup n = (r.get? n).map some := by
  by_cases hn : n ∈ x.names
  · obtain ⟨c, hc, rfl⟩ := List.mem_map.mp hn
    rw [h.lookup_of_mem hc, Registry.get?_name (hr ▸ hc), Option.map_some]
  · have hnone : r.get? n = none := by
      rw [Registry.get?, hr, List.find?_eq_none]
      exact fun c hc he => hn (List.mem_map.mpr ⟨c, hc, of_decide_eq_true he⟩)
    rw [h.lookup_eq_none_iff.mpr hn, hnone, Option.map_none]

theorem InStep.contains_eq (h : x.InStep) (hr : r.collections = x.collections) (n : String) :
    x.contains n = r.contains n := by
  rw [Bool.eq_iff_iff, h.contains_iff, Registry.contains, List.contains_iff_mem, Registry.names, hr]
  rfl

/-- The same call does the same to both registries. -/
theorem InStep.register_eq (h : x.InStep) (hr : r.collections = x.collections) (c : Collection) :
    (x.register c).2 = (r.register c).map (fun _ => ()) ∧
      ((r.register c).toOption.getD r).collections = (x.register c).1.collections := by
  have hnames : r.names = x.names := by rw [Registry.names, hr, names]
  by_cases hc : c.name ∈ x.names
  · rw [register_taken h hc, Registry.register, dif_pos (hnames ▸ hc)]
    exact ⟨rfl, hr⟩
  · rw [register_fresh h hc, Registry.register, dif_neg (hnames ▸ hc)]
    exact ⟨rfl, congrArg (· ++ [c]) hr⟩

theorem InStep.validate_eq (h : x.InStep) (hr : r.collections = x.collections)
    (collection : String) (policy : Policy) (raw : Json) :
    x.validate collection policy raw = some (r.validate collection policy raw) := by
  rw [validate, Registry.validate, h.lookup_eq hr]
  cases r.get? collection <;> rfl

end IndexedRegistry

namespace Registry

/-- The registry after a sequence of calls, whether they succeeded or not. -/
def after (calls : List Collection) : Registry :=
  calls.foldl (fun r c => (r.register c).toOption.getD r) empty

theorem after_concat (calls : List Collection) (c : Collection) :
    after (calls ++ [c]) = ((after calls).register c).toOption.getD (after calls) := by
  simp [after, List.foldl_append]

theorem collections_after (calls : List Collection) :
    (after calls).collections = (IndexedRegistry.after calls).collections := by
  induction calls using List.reverseRecOn with
  | nil => rfl
  | append_singleton calls c ih =>
    rw [after_concat, IndexedRegistry.after_concat]
    exact ((IndexedRegistry.inStep_after calls).register_eq ih c).2

end Registry

/-- A collection complains of documents, never of its own name. -/
theorem Collection.cause_ne_unknownCollection {c : Collection} {policy : Policy} {raw : Json}
    {ds : List Diagnostic} {d : Diagnostic} (h : c.validate policy raw = .error ds) (hd : d ∈ ds)
    (name : String) : d.cause ≠ .unknownCollection name := by
  obtain ⟨rfl, _⟩ := validate_eq_error_iff.mp h
  obtain ⟨_, _, _, _, _, _, hfault⟩ := exists_fault_of_mem_diagnostics hd
  intro hcause
  rw [hcause] at hfault
  cases hfault

theorem Package.find?_ofRegistry (version : String) (r : Registry) (n : String) :
    (Package.ofRegistry version r).find? n = (r.get? n).map Descriptor.ofCollection := by
  rw [find?, ofRegistry, Registry.get?, List.find?_map]
  rfl

namespace Loader

variable {l : Loader} {p : String} {c : Collection}

/-- A file goes to the very collection that claims it. -/
theorem validate_routed (hc : c ∈ l.collectionsFor p) (policy : Policy) (raw : Json) :
    l.registry.validate c.name policy raw = c.validate policy raw := by
  rw [Registry.validate, Registry.get?_name (mem_collectionsFor.mp hc).1]

theorem cause_ne_of_mem_loadFile {fs : FileSystem} {rejected : Rejected}
    {errors : List ValidationError} {e : ValidationError} (h : .error rejected ∈ l.loadFile fs p)
    (hreason : rejected.reason = .invalid errors) (he : e ∈ errors) (name : String) :
    e.cause ≠ .unknownCollection name := by
  obtain ⟨c, hc, hfile⟩ := List.mem_map.mp h
  simp only [validate, validate_routed hc] at hfile
  split at hfile
  · cases hfile
    cases hreason
  · split at hfile
    · cases hfile
      cases hreason
    · split at hfile
      · cases hfile
      · rename_i ds hds
        cases hfile
        cases hreason
        obtain ⟨d, hd, rfl⟩ := List.mem_map.mp he
        exact Collection.cause_ne_unknownCollection hds hd name

end Loader

namespace IndexedRegistry

/-- What is to hold of a registry after calls, and of the list and the package that stand for it
where files are loaded and schemas are exported. -/
structure Faithful (calls : List Collection) (x : IndexedRegistry) (r : Registry) : Prop where
  in_step : x.InStep
  in_order : x.collections = firsts calls
  same_collections : r.collections = x.collections
  fails_iff : ∀ c e, (x.register c).2 = .error e ↔
    e = .duplicateCollection c.name ∧ c.name ∈ x.names
  unchanged : ∀ c e, (x.register c).2 = .error e → (x.register c).1 = x
  lookup_eq_some_iff : ∀ n c, x.lookup n = some (some c) ↔ c ∈ x.collections ∧ c.name = n
  lookup_eq_none_iff : ∀ n, x.lookup n = none ↔ n ∉ x.names
  lookup_ne : ∀ n, x.lookup n ≠ some none
  contains_iff : ∀ n, x.contains n = true ↔ n ∈ x.names
  size_eq : x.size = x.names.length
  register_eq : ∀ c, (x.register c).2 = (r.register c).map fun _ => ()
  contains_eq : ∀ n, x.contains n = r.contains n
  lookup_eq : ∀ n, x.lookup n = (r.get? n).map some
  validate_eq : ∀ n policy raw, x.validate n policy raw = some (r.validate n policy raw)
  routed : ∀ (l : Loader) p c, l.registry = r → c ∈ l.collectionsFor p → ∀ policy raw,
    x.validate c.name policy raw = some (c.validate policy raw)
  routed_known : ∀ (l : Loader) fs p rejected errors, .error rejected ∈ l.loadFile fs p →
    rejected.reason = .invalid errors → ∀ e ∈ errors, ∀ n, e.cause ≠ .unknownCollection n
  described : ∀ version n,
    (Package.ofRegistry version r).find? n = (r.get? n).map Descriptor.ofCollection

/-- Whatever calls fill an empty registry, its index and its list agree. -/
theorem faithful_after (calls : List Collection) :
    Faithful calls (after calls) (Registry.after calls) := by
  have hstep := inStep_after calls
  have hr := Registry.collections_after calls
  exact {
    in_step := hstep
    in_order := collections_after calls
    same_collections := hr
    fails_iff _ _ := hstep.register_eq_error_iff
    unchanged c e he := by
      rw [register_taken hstep (hstep.register_eq_error_iff.mp he).2]
    lookup_eq_some_iff _ _ := hstep.lookup_eq_some_iff
    lookup_eq_none_iff _ := hstep.lookup_eq_none_iff
    lookup_ne n := by
      rw [hstep.lookup_eq hr]
      cases (Registry.after calls).get? n <;> simp
    contains_iff _ := hstep.contains_iff
    size_eq := by rw [size, names, List.length_map]
    register_eq c := (hstep.register_eq hr c).1
    contains_eq := hstep.contains_eq hr
    lookup_eq := hstep.lookup_eq hr
    validate_eq := hstep.validate_eq hr
    routed l p c hl hc policy raw := by
      rw [hstep.validate_eq hr, ← hl, Loader.validate_routed hc]
    routed_known _ _ _ _ _ h hreason e he n :=
      Loader.cause_ne_of_mem_loadFile h hreason he n
    described version n := Package.find?_ofRegistry version _ n }

end IndexedRegistry

end SiteContent
