import SiteContent.Proofs.ExtendedSchemas

/-! Extending a schema, and picking and omitting fields of the result. To extend is to append, unless
a name would be declared a second time; so it does not matter which of two extensions comes first,
and the names of the extension are enough to take an extended schema apart again. -/

namespace SiteContent.Shape

variable {α : Type} {a b c s m picked rest : Shape α} {names : List String} {f : Field α}

theorem name_mem_names (hf : f ∈ s.fields) : f.name ∈ s.names :=
  List.mem_map.mpr ⟨f, hf, rfl⟩

theorem get?_eq_none_iff {name : String} : s.get? name = none ↔ name ∉ s.names := by
  simp [get?, Shape.names]

/-- Every name is looked up, and the order is that of the names. -/
theorem pick_eq_ok_iff : s.pick names = .ok picked ↔
    List.Forall₂ (fun name f => s.get? name = some f) names picked.fields := by
  obtain ⟨fields⟩ := picked
  induction names generalizing fields with
  | nil => simp [pick, empty, eq_comm]
  | cons name names ih =>
    rw [pick, List.forall₂_cons_left_iff]
    cases s.get? name with
    | none => simp
    | some f =>
      simp only [← ih, Option.some.injEq, exists_and_left, exists_eq_left']
      cases s.pick names with
      | error e => simp [Except.map]
      | ok tail =>
        obtain ⟨tail⟩ := tail
        simp [Except.map, eq_comm]

theorem without_eq_ok_iff : s.without names = .ok rest ↔
    (∀ name ∈ names, name ∈ s.names) ∧ rest = ⟨s.fields.filter fun f => !names.contains f.name⟩ := by
  have hfind : (names.find? fun name => !s.contains name) = none ↔
      ∀ name ∈ names, name ∈ s.names := by
    simp [contains_iff]
  rw [without, ← hfind]
  cases names.find? fun name => !s.contains name with
  | none => simp [eq_comm]
  | some name => simp

theorem names_extend (h : a.extend b = .ok m) : m.names = a.names ++ b.names := by
  obtain ⟨rfl, _⟩ := extend_eq_ok_iff.mp h
  exact List.map_append

theorem extend_extend_iff : (∃ ab, a.extend b = .ok ab ∧ ab.extend c = .ok m) ↔
    m = ⟨a.fields ++ b.fields ++ c.fields⟩ ∧ (b.names ++ c.names).Nodup ∧
      a.names.Disjoint (b.names ++ c.names) := by
  constructor
  · rintro ⟨ab, hab, hm⟩
    have hnames := names_extend hab
    obtain ⟨rfl, hb, hdab⟩ := extend_eq_ok_iff.mp hab
    obtain ⟨rfl, hc, hdc⟩ := extend_eq_ok_iff.mp hm
    rw [hnames, List.disjoint_append_left] at hdc
    exact ⟨rfl, List.nodup_append'.mpr ⟨hb, hc, hdc.2⟩,
      List.disjoint_append_right.mpr ⟨hdab, hdc.1⟩⟩
  · rintro ⟨rfl, hnodup, hdisjoint⟩
    obtain ⟨hb, hc, hdbc⟩ := List.nodup_append'.mp hnodup
    obtain ⟨hdab, hdac⟩ := List.disjoint_append_right.mp hdisjoint
    have hab : a.extend b = .ok ⟨a.fields ++ b.fields⟩ := extend_eq_ok_iff.mpr ⟨rfl, hb, hdab⟩
    refine ⟨_, hab, extend_eq_ok_iff.mpr ⟨rfl, hc, ?_⟩⟩
    rw [names_extend hab]
    exact List.disjoint_append_left.mpr ⟨hdac, hdbc⟩

theorem extend_extended_iff : (∃ bc, b.extend c = .ok bc ∧ a.extend bc = .ok m) ↔
    m = ⟨a.fields ++ b.fields ++ c.fields⟩ ∧ (b.names ++ c.names).Nodup ∧
      a.names.Disjoint (b.names ++ c.names) := by
  constructor
  · rintro ⟨bc, hbc, hm⟩
    have hnames := names_extend hbc
    obtain ⟨rfl, _⟩ := extend_eq_ok_iff.mp hbc
    obtain ⟨rfl, hnodup, hdisjoint⟩ := extend_eq_ok_iff.mp hm
    rw [hnames] at hnodup hdisjoint
    exact ⟨by rw [List.append_assoc], hnodup, hdisjoint⟩
  · rintro ⟨rfl, hnodup, hdisjoint⟩
    obtain ⟨_, hc, hdbc⟩ := List.nodup_append'.mp hnodup
    have hbc : b.extend c = .ok ⟨b.fields ++ c.fields⟩ := extend_eq_ok_iff.mpr ⟨rfl, hc, hdbc⟩
    have hnames := names_extend hbc
    refine ⟨_, hbc, extend_eq_ok_iff.mpr ⟨by rw [List.append_assoc], ?_, ?_⟩⟩
    · rwa [hnames]
    · rwa [hnames]

theorem without_extension (h : a.extend b = .ok m) : m.without b.names = .ok a := by
  have hnames := names_extend h
  obtain ⟨rfl, _, hdisjoint⟩ := extend_eq_ok_iff.mp h
  refine without_eq_ok_iff.mpr ⟨fun name hname => ?_, ?_⟩
  · rw [hnames]
    exact List.mem_append_right _ hname
  · have hbase : (a.fields.filter fun f => !b.names.contains f.name) = a.fields :=
      List.filter_eq_self.mpr fun f hf => by simpa using hdisjoint (name_mem_names hf)
    have hextension : (b.fields.filter fun f => !b.names.contains f.name) = [] :=
      List.filter_eq_nil_iff.mpr fun f hf => by simpa using name_mem_names hf
    rw [List.filter_append, hbase, hextension, List.append_nil]

theorem pick_extension (h : a.extend b = .ok m) : m.pick b.names = .ok b := by
  obtain ⟨rfl, hnodup, hdisjoint⟩ := extend_eq_ok_iff.mp h
  rw [pick_eq_ok_iff, Shape.names, List.forall₂_map_left_iff, List.forall₂_same]
  intro f hf
  have hbase : a.get? f.name = none :=
    get?_eq_none_iff.mpr fun ha => hdisjoint ha (name_mem_names hf)
  have hextension : b.get? f.name = some f := Names.find?_of_nodup hnodup hf
  rw [get?] at hbase hextension
  rw [get?, List.find?_append, hbase, hextension, Option.none_or]

/-- A schema can be extended twice if no name would be declared a second time, and either extension
may come first. An extended schema can be taken apart again. -/
theorem extend_assoc_and_undo (a b c : Shape α) :
    (∀ m, (∃ ab, a.extend b = .ok ab ∧ ab.extend c = .ok m) ↔
      ∃ bc, b.extend c = .ok bc ∧ a.extend bc = .ok m) ∧
    (∀ m, (∃ bc, b.extend c = .ok bc ∧ a.extend bc = .ok m) ↔
      m = ⟨a.fields ++ b.fields ++ c.fields⟩ ∧ (b.names ++ c.names).Nodup ∧
        a.names.Disjoint (b.names ++ c.names)) ∧
    ∀ m, a.extend b = .ok m → m.without b.names = .ok a ∧ m.pick b.names = .ok b :=
  ⟨fun _ => extend_extend_iff.trans extend_extended_iff.symm, fun _ => extend_extended_iff,
    fun _ h => ⟨without_extension h, pick_extension h⟩⟩

/-- The schema that is extended repeats a name. -/
theorem extend_assoc_and_undo_repeated : ∃ a b c ab m : Schema, ¬ a.names.Nodup ∧
    a.extend b = .ok ab ∧ ab.without b.names = .ok a ∧ ab.pick b.names = .ok b ∧
    ab.extend c = .ok m ∧ ∃ bc, b.extend c = .ok bc ∧ a.extend bc = .ok m := by
  let a : Schema := .ofList [("title", Node.text), ("title", Node.any)]
  let b : Schema := .ofList [("slug", Node.text), ("date", Node.string)]
  let c : Schema := .ofList [("draft", Node.boolean)]
  obtain ⟨hassoc, _, hundo⟩ := extend_assoc_and_undo a b c
  have hab : a.extend b = .ok ⟨a.fields ++ b.fields⟩ := rfl
  have hm : (⟨a.fields ++ b.fields⟩ : Schema).extend c =
      .ok ⟨a.fields ++ b.fields ++ c.fields⟩ := rfl
  obtain ⟨hwithout, hpick⟩ := hundo _ hab
  exact ⟨a, b, c, _, _, by decide, hab, hwithout, hpick, hm, (hassoc _).mp ⟨_, hab, hm⟩⟩

end SiteContent.Shape
