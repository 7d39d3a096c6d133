import SiteContent.Proofs.DeclaredKeys
import SiteContent.Proofs.Policies
import SiteContent.Proofs.Pruning

/-! The undeclared keys of a value, and what the policies make of them. Apart from these keys a
value comes out the same under every policy. -/

namespace SiteContent

namespace Walk

variable {defs : Definitions} {policy : Policy} {v w : Json} {k l m : Kind Node} {s : Step}
  {p : Location} {es : Dict Json}

/-- The location of an undeclared key in an object that the walk of a value comes to. -/
def Stray (defs : Definitions) (v : Json) (k : Kind Node) (p : Location) : Prop :=
  ∃ (q : Location) (es : Dict Json) (l : Kind Node) (key : String),
    Located defs v k q (.obj es) l ∧ l.isKeyed = true ∧ key ∈ es.keys ∧ key ∉ l.names ∧
      p = q ++ [.key key]

theorem Stray.ne_nil (h : Stray defs v k p) : p ≠ [] := by
  obtain ⟨q, es, l, key, _, _, _, _, rfl⟩ := h
  simp

theorem stray_reference_iff {t : String} {n : Node} (hn : defs.get? t = some n) :
    Stray defs v (.reference t) p ↔ Stray defs v n.kind p := by
  constructor
  · rintro ⟨q, es, l, key, hl, hkeyed, hkey⟩
    cases hl with
    | here => simp [Kind.isKeyed] at hkeyed
    | forward hf hl =>
      cases hf with
      | intro hm =>
        obtain rfl := Option.some.inj (hn.symm.trans hm)
        exact ⟨q, es, l, key, hl, hkeyed, hkey⟩
    | step hi _ =>
      cases hi with
      | field hf _ => simp [fieldsOn] at hf
  · rintro ⟨q, es, l, key, hl, hkey⟩
    exact ⟨q, es, l, key, .forward (.intro hn) hl, hkey⟩

theorem stray_iff_of_forwards (hf : Relation.ReflTransGen defs.Forwards k l) :
    Stray defs v k p ↔ Stray defs v l p := by
  induction hf with
  | refl => rfl
  | tail _ hs ih =>
    refine ih.trans ?_
    cases hs with
    | intro hn => exact stray_reference_iff hn

/-- A stray key is one of the value itself, or one of a place below. -/
theorem stray_cons_iff (hk : k.target? = none) : Stray defs v k (s :: p) ↔
    (k.isKeyed = true ∧ p = [] ∧ ∃ key, s = .key key ∧ key ∈ v.entries.keys ∧ key ∉ k.names) ∨
      ∃ w l, Inside v k s w l ∧ Stray defs w l p := by
  constructor
  · rintro ⟨q, es, l, key, hl, hkeyed, hkey, hnot, hp⟩
    cases hl with
    | here =>
      obtain ⟨rfl, rfl⟩ := List.cons.inj hp
      exact .inl ⟨hkeyed, rfl, key, rfl, hkey, hnot⟩
    | forward hf _ =>
      cases hf with
      | intro _ => simp [Kind.target?] at hk
    | step hi hl =>
      obtain ⟨rfl, rfl⟩ := List.cons.inj hp
      exact .inr ⟨_, _, hi, _, es, l, key, hl, hkeyed, hkey, hnot, rfl⟩
  · rintro (⟨hkeyed, rfl, key, rfl, hkey, hnot⟩ | ⟨w, l, hi, q, es, m, key, hl, hrest⟩)
    · cases v with
      | obj es => exact ⟨[], es, k, key, .here, hkeyed, hkey, hnot, rfl⟩
      | _ => simp [Json.entries, Dict.keys] at hkey
    · obtain ⟨hkeyed, hkey, hnot, rfl⟩ := hrest
      exact ⟨s :: q, es, m, key, .step hi hl, hkeyed, hkey, hnot, rfl⟩

theorem stray_key_iff (hk : k.Record) {key : String} :
    Stray defs (.obj es) k [.key key] ↔ key ∈ es.keys ∧ key ∉ k.names := by
  have htarget : k.target? = none := by cases hk <;> rfl
  have hkeyed : k.isKeyed = true := by cases hk <;> rfl
  rw [stray_cons_iff htarget]
  constructor
  · rintro (⟨_, _, _, hs, hkey⟩ | ⟨_, _, _, hw⟩)
    · exact Step.key.inj hs ▸ hkey
    · exact absurd rfl hw.ne_nil
  · exact fun hkey => .inl ⟨hkeyed, rfl, key, rfl, hkey⟩

/-- Under a field's name lie the strays of what the field holds. -/
theorem stray_field_iff (hk : k.Record) {f : Field Node} (hf : f ∈ fieldsOn es k) :
    Stray defs (.obj es) k (.key f.name :: p) ↔
      ∃ w, es.get? f.name = some w ∧ Stray defs w f.node.kind p := by
  have htarget : k.target? = none := by cases hk <;> rfl
  rw [stray_cons_iff htarget]
  constructor
  · rintro (⟨_, _, key, hs, _, hnot⟩ | ⟨w, l, hi, hw⟩)
    · exact absurd (Step.key.inj hs ▸ name_mem_names hf) hnot
    · generalize hs : Step.key f.name = s at hi
      cases hi with
      | @field _ _ g _ hg hv =>
        obtain rfl := List.inj_on_of_nodup_map (fieldsOn_distinct hk) hf hg (Step.key.inj hs)
        exact ⟨w, hv, hw⟩
      | tag _ => exact absurd (Step.key.inj hs) (name_ne_tag hk hf)
      | entry _ => cases hk
  · rintro ⟨w, hw, hp⟩
    exact .inr ⟨w, _, .field hf hw, hp⟩

theorem stray_item_iff {vs : List Json} {items : Node} {nonEmpty : Bool} {i : Nat} :
    Stray defs (.arr vs) (.array items nonEmpty) (.index i :: p) ↔
      ∃ w, vs[i]? = some w ∧ Stray defs w items.kind p := by
  rw [stray_cons_iff rfl]
  constructor
  · rintro (⟨hkeyed, _⟩ | ⟨w, l, hi, hw⟩)
    · simp [Kind.isKeyed] at hkeyed
    · cases hi with
      | item hv => exact ⟨w, hv, hw⟩
  · rintro ⟨w, hw, hp⟩
    exact .inr ⟨w, _, .item hw, hp⟩

theorem isKeyed_of_located_any (hl : Located defs v k p w l) (hk : k = .any) :
    l.isKeyed = false := by
  induction hl with
  | here => subst hk; rfl
  | forward hf _ _ =>
    cases hf with
    | intro _ => cases hk
  | step hi _ ih =>
    cases hi with
    | field hf _ => simp [hk, fieldsOn] at hf
    | entry _ => exact ih rfl
    | element _ => exact ih rfl
    | _ => cases hk

theorem not_stray_any : ¬ Stray defs v .any p := by
  rintro ⟨q, es, l, key, hl, hkeyed, _⟩
  simp [isKeyed_of_located_any hl rfl] at hkeyed

theorem not_stray_of_leaf (hk : k.target? = none) (hentries : v.entries = [] ∨ k.isKeyed = false)
    (hinside : ∀ s w l, ¬ Inside v k s w l) : ¬ Stray defs v k p := by
  intro h
  obtain ⟨s, p, rfl⟩ := List.exists_cons_of_ne_nil h.ne_nil
  rcases (stray_cons_iff hk).mp h with ⟨hkeyed, _, _, _, hkey, _⟩ | ⟨w, l, hi, _⟩
  · rcases hentries with he | hnot
    · simp [he, Dict.keys] at hkey
    · simp [hnot] at hkeyed
  · exact hinside s w l hi

/-- A policy that keeps no undeclared keys gives what preservation gives, without the strays. -/
def Sheds (defs : Definitions) (policy : Policy) (v : Json) (k : Kind Node) : Prop :=
  ∀ drop : Location → Bool, (∀ p, drop p = true ↔ Stray defs v k p) →
    (value defs policy v k).result = (value defs .preserve v k).result.prune fun p _ => drop p

theorem Rebuilt.get?_declared {r : Dict Json} {key : String} {x : Json}
    (h : Rebuilt defs policy es k r) (hk : k.Record) (hnames : key ∈ k.names)
    (hkey : ∀ f ∈ fieldsOn es k, key ≠ f.name) : r.get? key = some x ↔
      ∃ u t, k = .oneOf u ∧ key = u.tag ∧ Walk.tagOf? u es = some t ∧ x = .str t := by
  constructor
  · intro hx
    cases h.kept_of_get? hx hkey with
    | undeclared _ hnot _ => exact absurd hnames hnot
    | tag ht => exact ⟨_, _, rfl, rfl, ht, rfl⟩
  · rintro ⟨u, t, rfl, rfl, ht, rfl⟩
    cases hk with
    | oneOf hu => exact (tagOf?_eq_some.mp (h.tagOf? hu ht)).1

theorem record_sheds (hp : policy ≠ .preserve) (hk : k.Record)
    (hparts : ∀ w l, Descends (.obj es) k w l → Sheds defs policy w l) :
    Sheds defs policy (.obj es) k := by
  intro drop hdrop
  obtain ⟨r, hr, h⟩ := exists_rebuilt defs policy es hk
  obtain ⟨whole, hwhole, h'⟩ := exists_rebuilt defs .preserve es hk
  have hstays : ∀ {key}, key ∈ k.names → drop [.key key] = false := by
    intro key hkey
    refine Bool.eq_false_iff.mpr fun hd => ?_
    exact ((stray_key_iff hk).mp ((hdrop _).mp hd)).2 hkey
  rw [hr, hwhole]
  refine congrArg Json.obj (h.sorted.ext (Json.sorted_pruneEntries h'.sorted) fun key => ?_)
  by_cases hkey : ∃ f ∈ fieldsOn es k, key = f.name
  · obtain ⟨f, hf, rfl⟩ := hkey
    rw [Json.get?_pruneEntries_of_stays h'.sorted fun _ => hstays (name_mem_names hf),
      h.get?_name hk hf, h'.get?_name hk hf, entered?, entered?]
    cases hg : es.get? f.name with
    | some w =>
      refine congrArg some (hparts w _ (.field hf hg) (fun p => drop (.key f.name :: p)) ?_)
      simp [hdrop, stray_field_iff hk hf, hg]
    | none =>
      have hnone : ∀ p, drop (.key f.name :: p) = false := fun p =>
        Bool.eq_false_iff.mpr fun hd => by simpa [stray_field_iff hk hf, hg] using (hdrop _).mp hd
      cases f.node.default with
      | none => rfl
      | some d => exact congrArg some (Json.prune_eq_self (fun p _ => hnone p) d).symm
  · simp only [not_exists, not_and] at hkey
    by_cases hnames : key ∈ k.names
    · rw [Json.get?_pruneEntries_of_stays h'.sorted fun _ => hstays hnames]
      refine Option.ext fun x => ?_
      simp only [Option.map_eq_some_iff, h.get?_declared hk hnames hkey,
        h'.get?_declared hk hnames hkey]
      constructor
      · rintro ⟨u, t, hu, hname, ht, rfl⟩
        exact ⟨.str t, ⟨u, t, hu, hname, ht, rfl⟩, rfl⟩
      · rintro ⟨_, ⟨u, t, hu, hname, ht, rfl⟩, rfl⟩
        exact ⟨u, t, hu, hname, ht, rfl⟩
    · rw [Json.get?_pruneEntries h'.sorted, h.get?_undeclared hp hnames]
      cases hg : Dict.get? whole key with
      | none => rfl
      | some x =>
        have hd : drop [.key key] = true := by
          refine (hdrop _).mpr ((stray_key_iff hk).mpr ⟨?_, hnames⟩)
          cases h'.kept_of_get? hg hkey with
          | undeclared _ _ hx => exact List.mem_map.mpr ⟨_, hx, rfl⟩
          | tag _ => exact absurd List.mem_cons_self hnames
        simp [Option.filter, hd]

theorem array_sheds {items : Node} {nonEmpty : Bool} {vs : List Json}
    (hparts : ∀ w l, Descends (.arr vs) (.array items nonEmpty) w l → Sheds defs policy w l) :
    Sheds defs policy (.arr vs) (.array items nonEmpty) := by
  intro drop hdrop
  rw [result_array, result_array]
  refine congrArg Json.arr (List.ext_getElem? fun i => ?_)
  rw [Json.getElem?_pruneElements, List.getElem?_map, List.getElem?_map, Nat.zero_add]
  cases hi : vs[i]? with
  | none => rfl
  | some w =>
    refine congrArg some (hparts w _ (.item (List.mem_of_getElem? hi))
      (fun p => drop (.index i :: p)) ?_)
    simp [hdrop, stray_item_iff, hi]

theorem leaf_sheds (hresult : ∀ q, (value defs q v k).result = v)
    (hstray : ∀ p, ¬ Stray defs v k p) : Sheds defs policy v k := by
  intro drop hdrop
  rw [hresult, hresult]
  refine (Json.prune_eq_self (fun p _ => ?_) v).symm
  exact Bool.eq_false_iff.mpr fun hd => hstray p ((hdrop p).mp hd)

theorem sheds_of_parts (hp : policy ≠ .preserve) (hk : k.target? = none)
    (hobject : ∀ s, k = .object s → s.names.Nodup) (hunion : ∀ u, k = .oneOf u → u.Lawful)
    (hparts : ∀ w l, Descends v k w l → Sheds defs policy w l) : Sheds defs policy v k := by
  have hanswer : ∀ q, value defs q v k = answer q v (v.elements.map (value defs q))
      (v.entries.mapValues (value defs q)) k := fun q => value_of_target?_eq_none hk
  by_cases hany : k = .any
  · subst hany
    exact leaf_sheds (fun q => result_any) fun p => not_stray_any
  cases v with
  | obj es =>
    cases k with
    | object s => exact record_sheds hp (.object (hobject s rfl)) hparts
    | oneOf u => exact record_sheds hp (.oneOf (hunion u rfl)) hparts
    | reference t => simp [Kind.target?] at hk
    | any => exact absurd rfl hany
    | _ =>
      refine leaf_sheds (fun q => by rw [hanswer]; rfl) fun p =>
        not_stray_of_leaf hk (.inr rfl) fun s w l hi => ?_
      cases hi with
      | field hf _ => simp [fieldsOn] at hf
  | arr vs =>
    cases k with
    | array items nonEmpty => exact array_sheds hparts
    | reference t => simp [Kind.target?] at hk
    | any => exact absurd rfl hany
    | _ =>
      refine leaf_sheds (fun q => by rw [hanswer]; rfl) fun p =>
        not_stray_of_leaf hk (.inl rfl) fun s w l hi => ?_
      cases hi
  | _ =>
    refine leaf_sheds (fun q => result_of_isScalar rfl) fun p =>
      not_stray_of_leaf hk (.inl rfl) fun s w l hi => ?_
    cases hi

end Walk

theorem SchemaGraph.WellFormed.sheds {defs : Definitions} {root : Schema} {path : String}
    {n : Node} {policy : Policy} (h : WellFormed defs root) (hn : Sited defs root path n)
    (hp : policy ≠ .preserve) (v : Json) : Walk.Sheds defs policy v n.kind := by
  refine h.walk_induction (P := Walk.Sheds defs policy) ?_ ?_ hn v
  · intro v k l hr hl
    simpa only [Walk.Sheds, Walk.value_eq_of_resolve hr,
      Walk.stray_iff_of_forwards (Definitions.follow_eq_kind hr).1] using hl
  · intro v path m hm ht hbelow
    exact Walk.sheds_of_parts hp ht (fun s hs => h.fields_distinct _ m s hm hs)
      (fun u hu => h.unions_lawful _ m u hm hu) hbelow

namespace Collection

open Walk

/-- All that a validation complains of. -/
def findings (c : Collection) (policy : Policy) (raw : Json) : List Diagnostic :=
  match c.validate policy raw with
  | .ok _ => []
  | .error ds => ds

variable {c : Collection} {policy : Policy} {raw : Json} {d : Document}

theorem findings_eq (c : Collection) (policy : Policy) (raw : Json) :
    c.findings policy raw = (c.walk policy raw).diagnostics := by
  rw [findings, validate]
  cases (c.walk policy raw).diagnostics <;> rfl

theorem validate_eq_error_iff {ds : List Diagnostic} :
    c.validate policy raw = .error ds ↔ (c.walk policy raw).diagnostics = ds ∧ ds ≠ [] := by
  rw [validate]
  cases (c.walk policy raw).diagnostics with
  | nil =>
    refine iff_of_false (fun h => by cases h) ?_
    rintro ⟨rfl, hne⟩
    exact hne rfl
  | cons e es =>
    rw [Except.error.injEq]
    refine ⟨fun h => ⟨h, h ▸ List.cons_ne_nil _ _⟩, And.left⟩

theorem lasting_findings (c : Collection) (p q : Policy) (raw : Json) :
    lasting p (c.findings p raw) = lasting q (c.findings q raw) := by
  rw [findings_eq, findings_eq]
  exact alike c.definitions p q raw (.object c.schema)

theorem lasting_findings_preserve (c : Collection) (policy : Policy) (raw : Json) :
    lasting policy (c.findings policy raw) = c.findings .preserve raw :=
  (lasting_findings c policy .preserve raw).trans (lasting_of_ne_reject (by decide) _)

theorem findings_strip (c : Collection) (raw : Json) :
    c.findings .strip raw = c.findings .preserve raw :=
  (lasting_of_ne_reject (by decide) _).symm.trans (lasting_findings_preserve c .strip raw)

theorem validate_ok_congr {p q : Policy} (h : c.validate p raw = .ok d)
    (hfindings : c.findings q raw = [])
    (hresult : (c.walk q raw).result = (c.walk p raw).result) : c.validate q raw = .ok d := by
  obtain ⟨_, hd⟩ := validate_eq_ok_iff.mp h
  rw [findings_eq] at hfindings
  exact validate_eq_ok_iff.mpr ⟨hfindings, hresult ▸ hd⟩

theorem not_stray_of_validate (h : c.validate .reject raw = .ok d) (p : Location) :
    ¬ Stray c.definitions raw (.object c.schema) p := by
  rintro ⟨q, es, l, key, hl, hkeyed, hkey, hnot, _⟩
  have hrecord := c.wellFormed.record (c.occurs_root.located hl) hkeyed
  have hc := c.wellFormed.conforms_located c.occurs_root (conforms_of_validate h) hl
  exact hnot ((hc.shaped hrecord).2 rfl key hkey)

theorem sheds_walk (c : Collection) (hp : policy ≠ .preserve) (raw : Json) :
    Sheds c.definitions policy raw (.object c.schema) :=
  c.wellFormed.sheds .root hp raw

theorem result_walk_of_no_stray (hstray : ∀ p, ¬ Stray c.definitions raw (.object c.schema) p)
    (policy : Policy) : (c.walk policy raw).result = (c.walk .preserve raw).result := by
  by_cases hp : policy = .preserve
  · rw [hp]
  · have hnone := sheds_walk c hp raw (fun _ => false) fun p => by simp [hstray p]
    exact hnone.trans (Json.prune_eq_self (fun _ _ => rfl) _)

/-- What rejection accepts is accepted, and turned into the same document, under every policy. -/
theorem validate_of_reject (h : c.validate .reject raw = .ok d) (policy : Policy) :
    c.validate policy raw = .ok d := by
  have hresult := result_walk_of_no_stray (not_stray_of_validate h)
  refine validate_ok_congr h ?_ ((hresult policy).trans (hresult .reject).symm)
  have hnone : c.findings .reject raw = [] := by rw [findings, h]
  by_cases hp : policy = .reject
  · exact hp ▸ hnone
  · have hlasting := lasting_findings c policy .reject raw
    rw [hnone, lasting_of_ne_reject hp] at hlasting
    exact hlasting

theorem exists_validate_strip (h : c.validate .preserve raw = .ok d) :
    ∃ (d' : Document) (stray : Location → Bool), c.validate .strip raw = .ok d' ∧
      (∀ p, stray p = true ↔ Stray c.definitions raw (.object c.schema) p) ∧
      d'.value = d.value.prune fun p _ => stray p := by
  classical
  have hclean : (c.walk .strip raw).diagnostics = [] := by
    rw [← findings_eq, findings_strip, findings, h]
  have hstrip := validate_eq_ok_iff.mpr ⟨hclean, rfl⟩
  refine ⟨_, fun p => decide (Stray c.definitions raw (.object c.schema) p), hstrip,
    fun p => decide_eq_true_iff, ?_⟩
  rw [value_of_validate hstrip, value_of_validate h]
  exact sheds_walk c (by decide) raw _ fun p => decide_eq_true_iff

/-- The policies differ only in undeclared keys. Preservation and stripping find the same; rejection
finds the same and the undeclared keys, in place; what rejection accepts comes out alike; and what
stripping gives is what preservation gives, without the strays. -/
theorem validate_policies (c : Collection) (raw : Json) :
    (∀ ds, c.validate .strip raw = .error ds ↔ c.validate .preserve raw = .error ds) ∧
    ((c.findings .reject raw).filter fun d => d.cause ≠ .unknownField) =
      c.findings .preserve raw ∧
    (∀ d, c.validate .reject raw = .ok d → ∀ policy, c.validate policy raw = .ok d) ∧
    ∀ d, c.validate .preserve raw = .ok d → ∃ (d' : Document) (stray : Location → Bool),
      c.validate .strip raw = .ok d' ∧
      (∀ p, stray p = true ↔ Stray c.definitions raw (.object c.schema) p) ∧
      d'.value = d.value.prune fun p _ => stray p := by
  refine ⟨fun ds => ?_, ?_, fun d h policy => validate_of_reject h policy,
    fun d h => exists_validate_strip h⟩
  · rw [validate_eq_error_iff, validate_eq_error_iff, ← findings_eq, ← findings_eq,
      findings_strip]
  · simpa [lasting] using lasting_findings_preserve c .reject raw

theorem validate_policies_undeclared_key : ∃ (c : Collection) (raw : Json) (d d' : Document)
    (stray : Location → Bool), c.validate .preserve raw = .ok d ∧ c.validate .strip raw = .ok d' ∧
      stray [.key "y"] = true ∧ d'.value = d.value.prune fun p _ => stray p := by
  have hraw : validate ⟨⟨"", .page, default, .ofList [("x", Node.string)], []⟩, rfl⟩ .preserve
      (.obj [("x", .str "a"), ("y", .null)]) = .ok ⟨"", [("x", .str "a"), ("y", .null)]⟩ := rfl
  obtain ⟨d', stray, hstrip, hstray, hpruned⟩ := (validate_policies _ _).2.2.2 _ hraw
  refine ⟨_, _, _, d', stray, hraw, hstrip, (hstray _).mpr ?_, hpruned⟩
  exact (stray_key_iff (.object (by decide))).mpr (by decide)

end Collection

end SiteContent
