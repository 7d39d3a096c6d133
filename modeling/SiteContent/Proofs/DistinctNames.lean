import SiteContent.Proofs.Composition
import SiteContent.Proofs.RelaxedSchemas

/-! Whether the fields of a composed schema have names of their own. To pick a name twice is to
declare it twice. No other operation takes a name in a second time, whatever it is given and
however many operations came before it. -/

namespace SiteContent.Shape

/-- What can be done with a schema. -/
inductive Operation where
  | extend (extension : Schema)
  | pick (names : List String)
  | without (names : List String)
  | relax

def Operation.apply (s : Schema) : Operation → Except SchemaError Schema
  | .extend extension => s.extend extension
  | .pick names => s.pick names
  | .without names => s.without names
  | .relax => .ok (Shape.relax s)

/-- Operations one after the other, each on a schema from the start or on one that an earlier
operation returned. What an operation is given besides is arbitrary. -/
inductive Composition : List Schema → List (Schema × Operation) → Prop
  | nil {atHand : List Schema} : Composition atHand []
  | refused {atHand : List Schema} {s : Schema} {op : Operation} {e : SchemaError}
      {steps : List (Schema × Operation)} : s ∈ atHand → op.apply s = .error e →
      Composition atHand steps → Composition atHand ((s, op) :: steps)
  | returned {atHand : List Schema} {s m : Schema} {op : Operation}
      {steps : List (Schema × Operation)} : s ∈ atHand → op.apply s = .ok m →
      Composition (m :: atHand) steps → Composition atHand ((s, op) :: steps)

variable {s m : Schema} {op : Operation} {names : List String} {start : List Schema}
  {steps : List (Schema × Operation)}

theorem names_pick (h : s.pick names = .ok m) : m.names = names := by
  have hfields : List.Forall₂ (fun name f => name = f.name) names m.fields := by
    refine (pick_eq_ok_iff.mp h).imp fun name f hf => ?_
    have hname := List.find?_some hf
    exact (of_decide_eq_true hname).symm
  have hnames : List.Forall₂ (· = ·) names m.names := List.forall₂_map_right_iff.mpr hfields
  rw [List.forall₂_eq_eq_eq] at hnames
  exact hnames.symm

theorem names_without_sublist (h : s.without names = .ok m) : m.names.Sublist s.names := by
  obtain ⟨_, rfl⟩ := without_eq_ok_iff.mp h
  exact List.filter_sublist.map _

/-- One operation on a schema whose names are distinct. -/
theorem nodup_names_apply (hs : s.names.Nodup) (h : op.apply s = .ok m)
    (hpick : ∀ names, op = .pick names → names.Nodup) : m.names.Nodup := by
  cases op with
  | extend extension =>
    have hm : s.extend extension = .ok m := h
    obtain ⟨_, hextension, hdisjoint⟩ := extend_eq_ok_iff.mp hm
    rw [names_extend hm]
    exact hs.append hextension hdisjoint
  | pick names =>
    rw [names_pick h]
    exact hpick names rfl
  | without names => exact hs.sublist (names_without_sublist h)
  | relax =>
    obtain rfl := Except.ok.inj h
    rwa [names_relax]

theorem Composition.nodup_names (h : Composition start steps)
    (hstart : ∀ s ∈ start, s.names.Nodup)
    (hpicks : ∀ s names m, (s, .pick names) ∈ steps → s.pick names = .ok m → names.Nodup) :
    ∀ s op m, (s, op) ∈ steps → op.apply s = .ok m → m.names.Nodup := by
  -- Distinct names are an invariant of the schemas at hand.
  induction h with
  | nil => simp
  | refused _ he _ ih =>
    have hrest := ih hstart fun s names m h => hpicks s names m (List.mem_cons_of_mem _ h)
    intro s op m hmem hm
    rcases List.mem_cons.mp hmem with heq | hmem
    · obtain ⟨rfl, rfl⟩ := Prod.mk.inj heq
      simp [he] at hm
    · exact hrest s op m hmem hm
  | @returned atHand subject result done steps hsubject hresult _ ih =>
    have hdistinct : result.names.Nodup := by
      refine nodup_names_apply (hstart subject hsubject) hresult ?_
      rintro names rfl
      exact hpicks subject names result List.mem_cons_self hresult
    have hatHand : ∀ s ∈ result :: atHand, s.names.Nodup :=
      List.forall_mem_cons.mpr ⟨hdistinct, hstart⟩
    have hrest := ih hatHand fun s names m h => hpicks s names m (List.mem_cons_of_mem _ h)
    intro s op m hmem hm
    rcases List.mem_cons.mp hmem with heq | hmem
    · obtain ⟨rfl, rfl⟩ := Prod.mk.inj heq
      obtain rfl := Except.ok.inj (hresult.symm.trans hm)
      exact hdistinct
    · exact hrest s op m hmem hm

/-- Where the schemas at the start have distinct names, so has every schema that is returned, unless
one is returned for names that were picked twice. -/
theorem composed_distinct_iff (hstart : ∀ s ∈ start, s.names.Nodup)
    (h : Composition start steps) :
    (∀ s op m, (s, op) ∈ steps → op.apply s = .ok m → m.names.Nodup) ↔
      ∀ s names m, (s, .pick names) ∈ steps → s.pick names = .ok m → names.Nodup := by
  constructor
  · intro hdistinct s names m hmem hm
    have hnodup := hdistinct s (.pick names) m hmem hm
    rwa [names_pick hm] at hnodup
  · exact h.nodup_names hstart

/-- A name is omitted twice, which takes nothing in, and the schema that was picked cannot be
extended by itself. -/
theorem composed_distinct_refused : ∃ (start : List Schema) (steps : List (Schema × Operation)),
    (∀ s ∈ start, s.names.Nodup) ∧ Composition start steps ∧ steps.length = 5 ∧
      ∀ s op m, (s, op) ∈ steps → op.apply s = .ok m → m.names.Nodup := by
  let page : Schema := .ofList [("title", .text), ("date", .string)]
  let slugs : Schema := .ofList [("slug", .text)]
  let post : Schema := ⟨page.fields ++ slugs.fields⟩
  let entry : Schema := .ofList [("slug", .text), ("title", .text)]
  let steps : List (Schema × Operation) :=
    [(page, .extend slugs), (post, .pick ["slug", "title"]), (entry, .extend entry),
      (entry, .relax), (post, .without ["date", "date"])]
  have hstart : ∀ s ∈ [page], s.names.Nodup := by decide
  have hcomposition : Composition [page] steps :=
    .returned (m := post) (by simp) rfl <| .returned (m := entry) (by simp) rfl <|
      .refused (by simp) rfl <| .returned (by simp) rfl <| .returned (by simp) rfl .nil
  have hpicks : ∀ s names m, (s, Operation.pick names) ∈ steps → s.pick names = .ok m →
      names.Nodup := by
    intro s names m hmem _
    simp only [steps, List.mem_cons, Prod.mk.injEq, reduceCtorEq, and_false, false_or,
      Operation.pick.injEq, List.not_mem_nil, or_false] at hmem
    rw [hmem.2]
    decide
  exact ⟨_, _, hstart, hcomposition, rfl,
    (composed_distinct_iff hstart hcomposition).mpr hpicks⟩

/-- A name that is picked twice is declared twice. -/
theorem exists_composed_repeated : ∃ (start : List Schema) (steps : List (Schema × Operation))
    (s : Schema) (op : Operation) (m : Schema), (∀ s ∈ start, s.names.Nodup) ∧
      Composition start steps ∧ (s, op) ∈ steps ∧ op.apply s = .ok m ∧ ¬ m.names.Nodup := by
  let page : Schema := .ofList [("title", .text), ("date", .string)]
  let twice : Operation := .pick ["title", "title"]
  have hresult : twice.apply page = .ok (.ofList [("title", .text), ("title", .text)]) := rfl
  have hcomposition : Composition [page] [(page, twice)] := .returned (by simp) hresult .nil
  exact ⟨_, _, page, twice, _, by decide, hcomposition, by simp, hresult, by decide⟩

end SiteContent.Shape
