import SiteContent.Proofs.Rebuilding

/-! Validating a document again. Supplied values come out as they would come out again, but a
default is put in as it stands, and a second validation walks it like any other value. -/

namespace SiteContent

open Relation

namespace Walk

/-- A default that the walk of a value puts in, with the kind of its node. -/
inductive Injects (defs : Definitions) : Json → Kind Node → Json → Kind Node → Prop
  | here {es : Dict Json} {k : Kind Node} {f : Field Node} {d : Json} : f ∈ fieldsOn es k →
      es.get? f.name = none → f.node.default = some d → Injects defs (.obj es) k d f.node.kind
  | inside {v w d : Json} {k l m : Kind Node} :
      Descends v k w l → Injects defs w l d m → Injects defs v k d m
  | forward {v d : Json} {k l m : Kind Node} :
      defs.Forwards k l → Injects defs v l d m → Injects defs v k d m

/-- The walk of a value finds nothing, and leaves the value as it is. -/
def Settled (defs : Definitions) (policy : Policy) (v : Json) (k : Kind Node) : Prop :=
  (value defs policy v k).diagnostics = [] ∧ (value defs policy v k).result = v

variable {defs : Definitions} {policy : Policy} {v d : Json} {k l m : Kind Node} {es r : Dict Json}

theorem injects_reference_iff {t : String} : Injects defs v (.reference t) d m ↔
    ∃ n, defs.get? t = some n ∧ Injects defs v n.kind d m := by
  constructor
  · intro h
    cases h with
    | here hf _ _ => simp [fieldsOn] at hf
    | inside hd _ =>
      cases hd with
      | field hf _ => simp [fieldsOn] at hf
    | forward hf h =>
      cases hf with
      | intro hn => exact ⟨_, hn, h⟩
  · rintro ⟨n, hn, h⟩
    exact .forward (.intro hn) h

theorem injects_iff_of_forwards (hf : ReflTransGen defs.Forwards k l) :
    Injects defs v k d m ↔ Injects defs v l d m := by
  induction hf with
  | refl => rfl
  | tail _ hs ih =>
    refine ih.trans ?_
    cases hs with
    | intro hn => simp [injects_reference_iff, hn]

theorem injects_iff (hk : k.target? = none) : Injects defs v k d m ↔
    (∃ es : Dict Json, v = .obj es ∧ ∃ f ∈ fieldsOn es k,
      es.get? f.name = none ∧ f.node.default = some d ∧ m = f.node.kind) ∨
    ∃ w l, Descends v k w l ∧ Injects defs w l d m := by
  constructor
  · intro h
    cases h with
    | here hf hg hd => exact .inl ⟨_, rfl, _, hf, hg, hd, rfl⟩
    | inside hd h => exact .inr ⟨_, _, hd, h⟩
    | forward hf _ =>
      cases hf with
      | intro _ => simp [Kind.target?] at hk
  · rintro (⟨es, rfl, f, hf, hg, hd, rfl⟩ | ⟨w, l, hd, h⟩)
    · exact .here hf hg hd
    · exact .inside hd h

/-- What the walk makes of a value is settled exactly when the defaults that it puts in are. -/
def Settles (defs : Definitions) (policy : Policy) (v : Json) (k : Kind Node) : Prop :=
  (value defs policy v k).diagnostics = [] →
    (Settled defs policy (value defs policy v k).result k ↔
      ∀ d m, Injects defs v k d m → Settled defs policy d m)

theorem Rebuilt.settled_iff (h : Rebuilt defs policy es k r) (hk : k.Record)
    (hd : (value defs policy (.obj es) k).diagnostics = []) :
    Settled defs policy (.obj r) k ↔ ∀ f ∈ fieldsOn es k, ∀ x,
      entered? defs policy es f = some x → Settled defs policy x f.node.kind := by
  rw [Settled, h.diagnostics_iff hk hd, h.result_iff hk ((diagnostics_record hk).mp hd).2]
  simp only [Settled, forall_and]

theorem record_settles (hk : k.Record) (hparts : ∀ w l, Descends (.obj es) k w l →
    Settles defs policy w l) : Settles defs policy (.obj es) k := by
  intro hd
  obtain ⟨r, hr, h⟩ := exists_rebuilt defs policy es hk
  have hclean : ∀ f ∈ fieldsOn es k, ∀ v, es.get? f.name = some v →
      (value defs policy v f.node.kind).diagnostics = [] := fun f hf =>
    (diagnostics_field.mp (((diagnostics_record hk).mp hd).1 f hf)).1
  rw [hr, h.settled_iff hk hd]
  constructor
  · intro hall d m hi
    rcases (injects_iff (by cases hk <;> rfl)).mp hi with
      ⟨_, ⟨⟩, f, hf, hg, hdefault, rfl⟩ | ⟨w, l, hdesc, hi⟩
    · exact hall f hf d (by rw [entered?, hg, hdefault])
    · have hsettles := hparts w l hdesc
      cases hdesc with
      | field hf hg =>
        have hsettled := hall _ hf _ (by rw [entered?, hg])
        exact (hsettles (hclean _ hf _ hg)).mp hsettled d m hi
  · intro hall f hf x hx
    rw [entered?] at hx
    cases hg : es.get? f.name with
    | none =>
      rw [hg] at hx
      exact hall x _ (.here hf hg hx)
    | some v =>
      rw [hg] at hx
      obtain rfl := Option.some.inj hx
      have hdesc := Descends.field hf hg
      exact (hparts v _ hdesc (hclean f hf v hg)).mpr fun d m hi => hall d m (.inside hdesc hi)

theorem result_array {items : Node} {nonEmpty : Bool} {vs : List Json} :
    (value defs policy (.arr vs) (.array items nonEmpty)).result =
      .arr (vs.map fun v => (value defs policy v items.kind).result) := by
  have hitems : (Walked.all (itemWalks defs policy items vs)).result =
      vs.map fun v => (value defs policy v items.kind).result := by
    conv_rhs => rw [← List.zipIdx_map_fst 0 vs, List.map_map]
    simp [Walked.all, itemWalks, Walked.under, Function.comp_def]
  rw [value_of_target?_eq_none rfl]
  simp only [answer, Json.elements, array_eq]
  split <;> simp [Walked.map, hitems]

theorem array_settles {items : Node} {nonEmpty : Bool} {vs : List Json}
    (hparts : ∀ w l, Descends (.arr vs) (.array items nonEmpty) w l → Settles defs policy w l) :
    Settles defs policy (.arr vs) (.array items nonEmpty) := by
  intro hd
  obtain ⟨hclean, hne⟩ := diagnostics_array.mp hd
  have hsettled : Settled defs policy
      (value defs policy (.arr vs) (.array items nonEmpty)).result (.array items nonEmpty) ↔
        ∀ v ∈ vs, Settled defs policy (value defs policy v items.kind).result items.kind := by
    have hne' : nonEmpty = true →
        (vs.map fun v => (value defs policy v items.kind).result) ≠ [] := by simpa using hne
    rw [result_array, Settled, diagnostics_array, result_array, Json.arr.injEq, List.map_map,
      List.map_inj_left, List.forall_mem_map, and_iff_left hne', ← forall_and]
    exact forall_congr' fun v => forall_and.symm
  rw [hsettled]
  constructor
  · intro hall d m hi
    rcases (injects_iff rfl).mp hi with ⟨_, ⟨⟩, _⟩ | ⟨w, l, hdesc, hi⟩
    have hsettles := hparts w l hdesc
    cases hdesc with
    | item hw => exact (hsettles (hclean w hw)).mp (hall w hw) d m hi
  · intro hall v hv
    have hdesc : Descends (.arr vs) (.array items nonEmpty) v items.kind := .item hv
    exact (hparts v _ hdesc (hclean v hv)).mpr fun d m hi => hall d m (.inside hdesc hi)

theorem leaf_settles (hresult : (value defs policy v k).result = v)
    (hinjects : ∀ d m, ¬ Injects defs v k d m) : Settles defs policy v k := by
  intro hd
  refine iff_of_true ?_ fun d m hi => absurd hi (hinjects d m)
  rw [hresult]
  exact ⟨hd, hresult⟩

theorem settles_of_parts (hk : k.target? = none) (hobject : ∀ s, k = .object s → s.names.Nodup)
    (hunion : ∀ u, k = .oneOf u → u.Lawful)
    (hparts : ∀ w l, Descends v k w l → Settles defs policy w l) : Settles defs policy v k := by
  have hanswer : value defs policy v k = answer policy v (v.elements.map (value defs policy))
      (v.entries.mapValues (value defs policy)) k := value_of_target?_eq_none hk
  cases v with
  | obj es =>
    cases k with
    | object s => exact record_settles (.object (hobject s rfl)) hparts
    | oneOf u => exact record_settles (.oneOf (hunion u rfl)) hparts
    | reference t => simp [Kind.target?] at hk
    | _ =>
      refine leaf_settles (by rw [hanswer]; rfl) fun d m hi => ?_
      rcases (injects_iff hk).mp hi with ⟨_, _, f, hf, _⟩ | ⟨w, l, hdesc, _⟩
      · simp [fieldsOn] at hf
      · cases hdesc with
        | field hf _ => simp [fieldsOn] at hf
  | arr vs =>
    cases k with
    | array items nonEmpty => exact array_settles hparts
    | reference t => simp [Kind.target?] at hk
    | _ =>
      refine leaf_settles (by rw [hanswer]; rfl) fun d m hi => ?_
      rcases (injects_iff hk).mp hi with ⟨_, he, _⟩ | ⟨w, l, hdesc, _⟩
      · cases he
      · cases hdesc
  | _ =>
    refine leaf_settles ?_ fun d m hi => ?_
    · rw [hanswer]
      exact result_answer_scalar (fun _ he => by cases he) fun _ he => by cases he
    · rcases (injects_iff hk).mp hi with ⟨_, he, _⟩ | ⟨w, l, hdesc, _⟩
      · cases he
      · cases hdesc

end Walk

theorem Walk.Injects.exists_sited {defs : Definitions} {root : Schema} {path : String} {n : Node}
    {v d : Json} {m : Kind Node} (hn : SchemaGraph.Sited defs root path n)
    (h : Walk.Injects defs v n.kind d m) :
    ∃ q p, SchemaGraph.Sited defs root q p ∧ p.default = some d ∧ p.kind = m := by
  generalize hk : n.kind = k at h
  induction h generalizing path n with
  | @here _ _ f _ hf _ hd =>
    exact ⟨_, f.node, hn.part (hk ▸ SchemaGraph.mem_parts_of_mem_fieldsOn hf), hd, rfl⟩
  | inside hdesc _ ih =>
    obtain ⟨q, p, hp, hpk⟩ := hn.descends (hk ▸ hdesc)
    exact ih hp hpk
  | forward hf _ ih =>
    cases hf with
    | intro ht => exact ih (hn.target hk ht) rfl

theorem SchemaGraph.WellFormed.settles {defs : Definitions} {root : Schema} {path : String}
    {n : Node} (h : WellFormed defs root) (hn : Sited defs root path n) (policy : Policy)
    (v : Json) : Walk.Settles defs policy v n.kind := by
  refine h.walk_induction (P := Walk.Settles defs policy) ?_ ?_ hn v
  · intro v k l hr hl
    have hforward : ∀ w, Walk.value defs policy w k = Walk.value defs policy w l :=
      fun w => Walk.value_eq_of_resolve hr
    simpa only [Walk.Settles, Walk.Settled, hforward,
      Walk.injects_iff_of_forwards (Definitions.follow_eq_kind hr).1] using hl
  · intro v path m hm ht hbelow
    exact Walk.settles_of_parts ht (fun s hs => h.fields_distinct _ m s hm hs)
      (fun u hu => h.unions_lawful _ m u hm hu) hbelow

namespace Collection

variable {c : Collection} {policy : Policy} {raw : Json} {d : Document}

theorem obj_entries_walk (h : (c.walk policy raw).diagnostics = []) :
    Json.obj (c.walk policy raw).result.entries = (c.walk policy raw).result := by
  have hconforms : Conforms c.definitions policy raw (.object c.schema) :=
    (c.wellFormed.agrees .root policy raw).mp h
  cases hconforms with
  | @object es _ =>
    obtain ⟨r, hr, _⟩ := Walk.exists_rebuilt c.definitions policy es
      (.object (c.wellFormed.fields_distinct "" _ c.schema .root rfl))
    rw [walk, hr, Json.entries]

theorem validate_value_iff (h : c.validate policy raw = .ok d) :
    c.validate policy d.value = .ok d ↔
      Walk.Settled c.definitions policy (c.walk policy raw).result (.object c.schema) := by
  obtain ⟨hclean, rfl⟩ := validate_eq_ok_iff.mp h
  rw [validate_eq_ok_iff, Document.value, obj_entries_walk hclean]
  refine and_congr_right fun hagain => ?_
  rw [Document.mk.injEq, and_iff_right rfl, ← Json.obj.injEq, obj_entries_walk hclean,
    obj_entries_walk hagain]
  exact eq_comm

/-- A validated document validates to itself exactly when every default that the first validation
has put in does. -/
theorem validate_again_iff (h : c.validate policy raw = .ok d) :
    c.validate policy d.value = .ok d ↔ ∀ v k,
      Walk.Injects c.definitions raw (.object c.schema) v k →
      Walk.Settled c.definitions policy v k :=
  (validate_value_iff h).trans
    (c.wellFormed.settles .root policy raw (validate_eq_ok_iff.mp h).1)

/-- A default that a second validation completes is not what the first has put in. -/
theorem exists_validate_again_ne : ∃ (c : Collection) (raw : Json) (d : Document),
    c.validate .preserve raw = .ok d ∧ c.validate .preserve d.value ≠ .ok d := by
  let inner := Node.object (.ofList [("x", Node.string.withDefault (.str "d"))])
  let schema := Shape.ofList [("a", inner.withDefault (.obj []))]
  let c : Collection := ⟨⟨"", .page, default, schema, []⟩, rfl⟩
  have hagain : c.validate .preserve (.obj [("a", .obj [])]) =
      .ok ⟨"", [("a", .obj [("x", .str "d")])]⟩ := rfl
  refine ⟨c, .obj [], ⟨"", [("a", .obj [])]⟩, rfl, ?_⟩
  rw [Document.value, hagain]
  decide

theorem validate_again_scalar_default : ∃ (c : Collection) (raw : Json) (d : Document),
    c.validate .reject raw = .ok d ∧ c.validate .reject d.value = .ok d := by
  let schema := Shape.ofList [("x", Node.string.withDefault (.str "d"))]
  let c : Collection := ⟨⟨"", .page, default, schema, []⟩, rfl⟩
  have hraw : c.validate .reject (.obj []) = .ok ⟨"", [("x", .str "d")]⟩ := rfl
  refine ⟨c, .obj [], _, hraw, (validate_again_iff hraw).mpr fun v k hi => ?_⟩
  cases hi with
  | here hf _ hd =>
    obtain rfl := List.mem_singleton.mp hf
    obtain rfl := Option.some.inj hd
    exact ⟨rfl, rfl⟩
  | inside hdesc _ =>
    cases hdesc with
    | field _ hv => cases hv
  | forward hf _ => cases hf

/-- Validation is idempotent when every default of the graph validates to itself. -/
theorem validate_again_of_settled (hsettled : ∀ path n v,
      SchemaGraph.Sited c.definitions c.schema path n → n.default = some v →
      Walk.Settled c.definitions policy v n.kind)
    (h : c.validate policy raw = .ok d) : c.validate policy d.value = .ok d := by
  have hsettles := c.wellFormed.settles .root policy raw (validate_eq_ok_iff.mp h).1
  refine (validate_value_iff h).mpr (hsettles.mpr fun v k hi => ?_)
  obtain ⟨path, n, hn, hv, rfl⟩ := hi.exists_sited (n := Node.object c.schema) .root
  exact hsettled path n v hn hv

end Collection

end SiteContent
