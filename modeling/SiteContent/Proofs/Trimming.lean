import SiteContent.Proofs.Idempotence
import SiteContent.Proofs.Strays

/-! Documents without the empty lists of optional fields. Such a list may be left out as well, so
that what stripping gives is still accepted when they are gone, and has nothing left to change. -/

namespace SiteContent

namespace Json

mutual

/-- The value with the entries of every object in order of keys. -/
def sorted : Json → Json
  | .arr vs => .arr (sortedElements vs)
  | .obj es => .obj (Dict.ofList (sortedEntries es))
  | v => v

def sortedElements : List Json → List Json
  | [] => []
  | v :: vs => v.sorted :: sortedElements vs

def sortedEntries : List (String × Json) → List (String × Json)
  | [] => []
  | (key, v) :: es => (key, v.sorted) :: sortedEntries es

end

theorem sorted_arr (vs : List Json) : (Json.arr vs).sorted = .arr (vs.map sorted) := by
  have h : ∀ vs, sortedElements vs = vs.map sorted := by
    intro vs
    induction vs with
    | nil => rfl
    | cons v vs ih => rw [sortedElements, ih]; rfl
  rw [sorted, h]

theorem sorted_obj (es : Dict Json) :
    (Json.obj es).sorted = .obj (Dict.ofList (es.mapValues sorted)) := by
  have h : ∀ es : Dict Json, sortedEntries es = es.mapValues sorted := by
    intro es
    induction es with
    | nil => rfl
    | cons e es ih => rw [sortedEntries, ih]; rfl
  rw [sorted, h]

/-- Whether an empty list stands at one of the locations. -/
def isEmptyAt (lists : List Location) (p : Location) (v : Json) : Bool :=
  p ∈ lists && v = .arr []

/-- The value without the empty lists at the given locations. -/
def dropEmpty (lists : List Location) (v : Json) : Json :=
  v.prune (isEmptyAt lists)

end Json

namespace Location

/-- The locations that lie below a key, as seen from there. -/
def below (key : String) (lists : List Location) : List Location :=
  lists.filterMap fun
    | .key k :: p => if k = key then some p else none
    | _ => none

theorem mem_below {key : String} {lists : List Location} {p : Location} :
    p ∈ below key lists ↔ .key key :: p ∈ lists := by
  simp only [below, List.mem_filterMap]
  constructor
  · rintro ⟨q, hq, hp⟩
    split at hp
    · split at hp
      · rename_i he
        obtain rfl := Option.some.inj hp
        exact he ▸ hq
      · cases hp
    · cases hp
  · exact fun h => ⟨_, h, by simp⟩

end Location

namespace Json

open Location (below)

theorem isEmptyAt_below (key : String) (lists : List Location) (p : Location) (v : Json) :
    isEmptyAt lists (.key key :: p) v = isEmptyAt (below key lists) p v := by
  simp [isEmptyAt, Location.mem_below]

theorem dropEmpty_nil (v : Json) : v.dropEmpty [] = v :=
  prune_eq_self (fun _ _ => by simp [isEmptyAt]) v

theorem dropEmpty_of_isScalar {lists : List Location} {v : Json} (h : v.isScalar = true) :
    v.dropEmpty lists = v :=
  prune_of_isScalar h

/-- What is left of a key's value. -/
def trimmed? (lists : List Location) (v : Option Json) : Option Json :=
  (v.filter fun v => !isEmptyAt lists [] v).map (dropEmpty lists)

theorem dropEmpty_obj (lists : List Location) (es : Dict Json) :
    (Json.obj es).dropEmpty lists = .obj (pruneEntries (isEmptyAt lists) es) :=
  rfl

theorem get?_trimmed {es : Dict Json} (h : es.Sorted) (lists : List Location) (key : String) :
    Dict.get? (pruneEntries (isEmptyAt lists) es) key =
      trimmed? (below key lists) (es.get? key) := by
  have hdrop : (fun p => isEmptyAt lists (.key key :: p)) = isEmptyAt (below key lists) :=
    funext fun p => funext fun v => isEmptyAt_below key lists p v
  rw [get?_pruneEntries h, hdrop, trimmed?]
  simp only [isEmptyAt_below]
  rfl

end Json

namespace Walk

open Location (below)

variable {defs : Definitions} {policy : Policy} {es r : Dict Json} {k : Kind Node}
  {lists : List Location} {f : Field Node} {key : String} {x : Json}

section Trimmed

variable (h : Rebuilt defs .strip es k r) (hk : k.Record) (hs : Shaped policy es k)
  (htag : ∀ u, k = .oneOf u → below u.tag lists = [])

include h hk in
theorem Rebuilt.get?_trimmed_name (hf : f ∈ fieldsOn es k) :
    Dict.get? (Json.pruneEntries (Json.isEmptyAt lists) r) f.name =
      Json.trimmed? (below f.name lists) (entered? defs .strip es f) := by
  rw [Json.get?_trimmed h.sorted, h.get?_name hk hf]

include h hk htag in
/-- Beside the fields the tag alone is left. -/
theorem Rebuilt.get?_trimmed_declared (hnames : key ∈ k.names)
    (hkey : ∀ f ∈ fieldsOn es k, key ≠ f.name) :
    Dict.get? (Json.pruneEntries (Json.isEmptyAt lists) r) key = some x ↔
      ∃ u t, k = .oneOf u ∧ key = u.tag ∧ Walk.tagOf? u es = some t ∧ x = .str t := by
  rw [Json.get?_trimmed h.sorted]
  constructor
  · intro hx
    obtain ⟨y, hy, _⟩ := Option.map_eq_some_iff.mp hx
    obtain ⟨u, t, hu, hname, ht, rfl⟩ :=
      (h.get?_declared hk hnames hkey).mp (Option.filter_eq_some_iff.mp hy).1
    rw [(h.get?_declared hk hnames hkey).mpr ⟨u, t, hu, hname, ht, rfl⟩, hname, htag u hu] at hx
    exact ⟨u, t, hu, hname, ht, (Option.some.inj hx).symm⟩
  · rintro ⟨u, t, hu, hname, ht, rfl⟩
    rw [(h.get?_declared hk hnames hkey).mpr ⟨u, t, hu, hname, ht, rfl⟩, hname, htag u hu]
    rfl

include h in
theorem Rebuilt.get?_trimmed_undeclared (hkey : key ∉ k.names) :
    Dict.get? (Json.pruneEntries (Json.isEmptyAt lists) r) key = none := by
  rw [Json.get?_trimmed h.sorted, h.get?_undeclared (by decide) hkey]
  rfl

include h hk hs htag in
theorem Rebuilt.tagOf?_trimmed {u : TaggedUnion Node} (hu : k = .oneOf u) :
    Walk.tagOf? u (Json.pruneEntries (Json.isEmptyAt lists) r) = Walk.tagOf? u es := by
  subst hu
  obtain ⟨t, ht, _⟩ := hs.1 u rfl
  cases hk with
  | oneOf hu =>
    obtain ⟨hget, hmem⟩ := tagOf?_eq_some.mp (h.tagOf? hu ht)
    rw [ht]
    refine tagOf?_eq_some.mpr ⟨?_, hmem⟩
    rw [Json.get?_trimmed h.sorted, hget, htag u rfl]
    rfl

include h hk hs htag in
theorem Rebuilt.shaped_trimmed :
    Shaped .reject (Json.pruneEntries (Json.isEmptyAt lists) r) k := by
  constructor
  · rintro u rfl
    obtain ⟨t, ht, _⟩ := hs.1 u rfl
    refine ⟨t, (h.tagOf?_trimmed hk hs htag rfl).trans ht, fun c hc hne => ?_⟩
    cases hk with
    | oneOf hu =>
      rw [Json.get?_trimmed h.sorted, h.get?_other_payload hu ht hc hne]
      rfl
  · intro _ key hkey
    refine Classical.byContradiction fun hnot => ?_
    exact Dict.get?_eq_none_iff.mp (h.get?_trimmed_undeclared hnot) hkey

include h hk hs htag in
theorem Rebuilt.fieldsOn_trimmed :
    fieldsOn (Json.pruneEntries (Json.isEmptyAt lists) r) k = fieldsOn es k := by
  cases hk with
  | object _ => rfl
  | oneOf hu =>
    rw [fieldsOn, fieldsOn, selected?, selected?, h.tagOf?_trimmed (.oneOf hu) hs htag rfl]

include h hk hs htag in
/-- What is left of a stripped object is settled when its fields are, and when what was left out of
it may be missing. -/
theorem Rebuilt.settled_trimmed (hfield : ∀ f ∈ fieldsOn es k,
      (∀ x, Json.trimmed? (below f.name lists) (entered? defs .strip es f) = some x →
        Settled defs .reject x f.node.kind) ∧
      (Json.trimmed? (below f.name lists) (entered? defs .strip es f) = none →
        f.node.required = false ∧ f.node.default = none)) :
    Settled defs .reject ((Json.obj r).dropEmpty lists) k := by
  rw [Json.dropEmpty_obj]
  have hfields := h.fieldsOn_trimmed hk hs htag
  have hname : ∀ f ∈ fieldsOn es k,
      Dict.get? (Json.pruneEntries (Json.isEmptyAt lists) r) f.name =
        Json.trimmed? (below f.name lists) (entered? defs .strip es f) :=
    fun f hf => h.get?_trimmed_name hk hf
  constructor
  · refine (diagnostics_record hk).mpr ⟨fun f hf => ?_, h.shaped_trimmed hk hs htag⟩
    rw [hfields] at hf
    rw [diagnostics_field, hname f hf]
    exact ⟨fun x hx => ((hfield f hf).1 x hx).1, fun hn => .inl ((hfield f hf).2 hn).1⟩
  · obtain ⟨r', hr', h'⟩ := exists_rebuilt defs .reject _ hk
    rw [hr']
    refine congrArg Json.obj (h'.sorted.ext (Json.sorted_pruneEntries h.sorted) fun key => ?_)
    by_cases hkey : ∃ f ∈ fieldsOn es k, key = f.name
    · obtain ⟨f, hf, rfl⟩ := hkey
      rw [h'.get?_name hk (hfields ▸ hf), entered?, hname f hf]
      cases hx : Json.trimmed? (below f.name lists) (entered? defs .strip es f) with
      | some x => exact congrArg some ((hfield f hf).1 x hx).2
      | none => exact ((hfield f hf).2 hx).2
    · simp only [not_exists, not_and] at hkey
      by_cases hnames : key ∈ k.names
      · refine Option.ext fun x => ?_
        rw [h'.get?_declared hk hnames (hfields ▸ hkey),
          h.get?_trimmed_declared hk htag hnames hkey]
        refine exists_congr fun u => exists_congr fun t => and_congr_right fun hu => ?_
        rw [h.tagOf?_trimmed hk hs htag hu]
      · rw [h'.get?_undeclared (by decide) hnames, h.get?_trimmed_undeclared hnames]

end Trimmed

end Walk

end SiteContent
