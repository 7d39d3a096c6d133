import SiteContent.Proofs.ReorderedWalks

/-! In which order a collection declares fields and cases decides only in which order faults are
reported. -/

namespace SiteContent

open Relation SchemaGraph

namespace Definitions.Reordered

variable {defs defs' : Definitions}

theorem symm (h : defs.Reordered defs') : defs'.Reordered defs :=
  h.flip.imp fun _ _ he => ⟨he.1.symm, he.2.symm⟩

theorem exists_mem (h : defs.Reordered defs') {name : String} {n : Node} (hn : (name, n) ∈ defs) :
    ∃ m, (name, m) ∈ defs' ∧ n.Reordered m := by
  induction h with
  | nil => cases hn
  | @cons e e' _ _ he _ ih =>
    rcases List.mem_cons.mp hn with rfl | hn
    · obtain ⟨rfl, hre⟩ := he
      exact ⟨e'.2, List.mem_cons_self, hre⟩
    · obtain ⟨m, hm, hre⟩ := ih hn
      exact ⟨m, List.mem_cons_of_mem _ hm, hre⟩

end Definitions.Reordered

theorem Kind.Reordered.exists_part {k k' : Kind Node} (h : k.Reordered k') {e : Edge} {m : Node}
    (hm : (e, m) ∈ k.parts) : ∃ m', (e, m') ∈ k'.parts ∧ m.Reordered m' := by
  have hfield : ∀ {fs fs' : List (Field Node)}, Paired Field.Reordered fs fs' →
      (e, m) ∈ fs.map (fun f => (Edge.field f.name, f.node)) →
      ∃ m', (e, m') ∈ fs'.map (fun f => (Edge.field f.name, f.node)) ∧ m.Reordered m' := by
    intro fs fs' hfs hm
    obtain ⟨f, hf, he⟩ := List.mem_map.mp hm
    obtain ⟨rfl, rfl⟩ := Prod.mk.inj he
    obtain ⟨g, hg, hre⟩ := hfs.exists_right hf
    exact ⟨g.node, List.mem_map.mpr ⟨g, hg, by rw [hre.name]⟩, hre.node⟩
  cases h.matched with
  | leaf hk => cases k <;> simp [Kind.isLeaf, Kind.parts] at hk hm
  | array hitems =>
    obtain ⟨rfl, rfl⟩ := Prod.mk.inj (List.mem_singleton.mp hm)
    exact ⟨_, List.mem_singleton_self _, hitems⟩
  | object hfields => exact hfield hfields hm
  | oneOf _ _ hfields hcases =>
    rcases List.mem_append.mp hm with hm | hm
    · obtain ⟨m', hm', hre⟩ := hfield hfields hm
      exact ⟨m', List.mem_append_left _ hm', hre⟩
    · obtain ⟨c, hc, he⟩ := List.mem_map.mp hm
      obtain ⟨rfl, rfl⟩ := Prod.mk.inj he
      obtain ⟨c', hc', hre⟩ := hcases.exists_right hc
      refine ⟨c'.payload.node, List.mem_append_right _ (List.mem_map.mpr ⟨c', hc', ?_⟩),
        hre.payload.node⟩
      rw [hre.payload.name]

namespace SchemaGraph

variable {defs defs' : Definitions} {root root' : Schema} {path t : String} {n m n' : Node}

theorem Sited.exists_reordered (h : Sited defs root path n) (hdefs : defs.Reordered defs')
    (hroot : (Kind.object root).Reordered (.object root')) :
    ∃ m, Sited defs' root' path m ∧ n.Reordered m := by
  induction h with
  | root => exact ⟨_, .root, ⟨rfl, rfl, rfl⟩, hroot⟩
  | definition hn =>
    obtain ⟨m, hm, hre⟩ := hdefs.exists_mem hn
    exact ⟨m, .definition hm, hre⟩
  | part _ hm ih =>
    obtain ⟨n', hn', hre⟩ := ih
    obtain ⟨m', hm', hre'⟩ := hre.kind.exists_part hm
    exact ⟨m', hn'.part hm', hre'⟩
  | target _ hk ht ih =>
    obtain ⟨n', hn', hre⟩ := ih
    obtain ⟨m', hm', hre'⟩ := hdefs.get?_eq_some ht
    have hk' : n'.kind = .reference _ := (hk ▸ hre.kind).of_reference
    exact ⟨m', hn'.target hk' hm', hre'⟩

theorem Inlines.exists_reordered (h : Inlines defs n m) (hdefs : defs.Reordered defs')
    (hre : n.Reordered n') : ∃ m', Inlines defs' n' m' ∧ m.Reordered m' := by
  rcases h with ⟨name, hm⟩ | ⟨t, hk, ht⟩
  · obtain ⟨m', hm', hre'⟩ := hre.kind.exists_part hm
    exact ⟨m', .inl ⟨name, hm'⟩, hre'⟩
  · obtain ⟨m', hm', hre'⟩ := hdefs.get?_eq_some ht
    exact ⟨m', .inr ⟨t, (hk ▸ hre.kind).of_reference, hm'⟩, hre'⟩

theorem Reaches.of_reordered (h : Reaches defs n t) (hdefs : defs.Reordered defs')
    (hre : n.Reordered n') : Reaches defs' n' t := by
  obtain ⟨m, hpath, hm⟩ := h
  induction hpath using ReflTransGen.head_induction_on generalizing n' with
  | refl => exact ⟨n', .refl, (hm ▸ hre.kind).of_reference⟩
  | head hs _ ih =>
    obtain ⟨x', hs', hre'⟩ := hs.exists_reordered hdefs hre
    obtain ⟨m', hpath', hm'⟩ := ih hre'
    exact ⟨m', hpath'.head hs', hm'⟩

/-- A graph stays well-formed when fields and cases change places. -/
theorem WellFormed.of_reordered (h : WellFormed defs root) (hdefs : defs.Reordered defs')
    (hroot : (Kind.object root).Reordered (.object root')) : WellFormed defs' root' := by
  have hback : ∀ path n', Sited defs' root' path n' →
      ∃ n, Sited defs root path n ∧ n.Reordered n' := by
    intro path n' hn'
    obtain ⟨n, hn, hre⟩ := hn'.exists_reordered hdefs.symm hroot.symm
    exact ⟨n, hn, hre.symm⟩
  constructor
  case fields_distinct =>
    intro path n' s' hn' hk'
    obtain ⟨n, hn, hre⟩ := hback path n' hn'
    obtain ⟨s, hk, hfields⟩ := (hk' ▸ hre.kind).of_object
    have hnames : s.names.Perm s'.names := hfields.perm_map fun _ _ hfg => hfg.name
    exact hnames.nodup_iff.mp (h.fields_distinct path n s hn hk)
  case unions_lawful =>
    intro path n' u' hn' hk'
    obtain ⟨n, hn, hre⟩ := hback path n' hn'
    obtain ⟨u, hk, htag, htags, hfields, hcases⟩ := (hk' ▸ hre.kind).of_oneOf
    exact (h.unions_lawful path n u hn hk).of_paired htag htags hfields hcases
  case resolved =>
    intro path n' t hn' hk'
    obtain ⟨n, hn, hre⟩ := hback path n' hn'
    have hk : n.kind = .reference t := (hk' ▸ hre.symm.kind).of_reference
    obtain ⟨m, hm⟩ := Option.isSome_iff_exists.mp (h.resolved path n t hn hk)
    obtain ⟨m', hm', _⟩ := hdefs.get?_eq_some hm
    exact Option.isSome_of_mem hm'
  case bounded =>
    intro name n' hn' hreaches
    obtain ⟨n, hn, hre⟩ := hdefs.symm.exists_mem hn'
    exact h.bounded name n hn (hreaches.of_reordered hdefs.symm hre)
  case defaults_clean =>
    intro path n' v hn' hv
    obtain ⟨n, hn, hre⟩ := hback path n' hn'
    have hclean := h.defaults_clean path n v hn (hre.alike.default.trans hv)
    have hperm := (h.permuted hdefs hn hre.kind .preserve v).diagnostics
    rw [hclean] at hperm
    exact hperm.nil_eq.symm

end SchemaGraph

theorem Check.graph_eq_ok_iff {defs : Definitions} {root : Schema} :
    Check.graph defs root = .ok () ↔ WellFormed defs root := by
  refine ⟨Check.wellFormed_of_graph_ok, fun h => ?_⟩
  cases hg : Check.graph defs root with
  | ok u => rfl
  | error e => exact absurd h (Check.defect_of_graph_error hg).not_wellFormed

namespace Declaration

/-- Two declarations differ in the order of fields and cases, at any depth, and in nothing else. -/
structure Reordered (d e : Declaration) : Prop where
  name : d.name = e.name
  storage : d.storage = e.storage
  source : d.source = e.source
  schema : (Kind.object d.schema).Reordered (.object e.schema)
  definitions : d.definitions.Reordered e.definitions

variable {d e : Declaration} {c c' : Collection}

theorem toDeclaration_of_build (h : d.build = .ok c) : c.toDeclaration = d := by
  rw [build] at h
  split at h
  · obtain rfl := Except.ok.inj h
    rfl
  · cases h

theorem exists_build_iff : (∃ c, d.build = .ok c) ↔ WellFormed d.definitions d.schema :=
  build_eq_ok_iff.trans Check.graph_eq_ok_iff

theorem Reordered.permuted_walk (h : d.Reordered e) (hc : d.build = .ok c) (hc' : e.build = .ok c')
    (policy : Policy) (raw : Json) : (c.walk policy raw).Permuted (c'.walk policy raw) := by
  have hwf := c.wellFormed
  have hd := toDeclaration_of_build hc
  have he := toDeclaration_of_build hc'
  subst hd he
  exact hwf.permuted h.definitions .root h.schema policy raw

/-- Declarations that differ in the order of fields and cases build alike. What one collection
accepts the other accepts too, with the same document, and what one refuses the other refuses for
the same reasons, in another order. -/
theorem reordered_agree (h : d.Reordered e) :
    ((∃ c, d.build = .ok c) ↔ ∃ c, e.build = .ok c) ∧
    ∀ c c', d.build = .ok c → e.build = .ok c' → ∀ policy raw,
      (∃ doc, c.validate policy raw = .ok doc ∧ c'.validate policy raw = .ok doc) ∨
      ∃ ds ds', c.validate policy raw = .error ds ∧ c'.validate policy raw = .error ds' ∧
        ds.Perm ds' := by
  constructor
  · rw [exists_build_iff, exists_build_iff]
    constructor
    · exact fun hwf => hwf.of_reordered h.definitions h.schema
    · exact fun hwf => hwf.of_reordered h.definitions.symm h.schema.symm
  · intro c c' hc hc' policy raw
    obtain ⟨hresult, hdiagnostics⟩ := h.permuted_walk hc hc' policy raw
    by_cases hclean : (c.walk policy raw).diagnostics = []
    · have hclean' : (c'.walk policy raw).diagnostics = [] := by
        rw [hclean] at hdiagnostics
        exact hdiagnostics.nil_eq.symm
      have hname : c.name = c'.name := by
        have hd := toDeclaration_of_build hc
        have he := toDeclaration_of_build hc'
        rw [hd, he, h.name]
      refine .inl ⟨_, Collection.validate_eq_ok_iff.mpr ⟨hclean, rfl⟩, ?_⟩
      exact Collection.validate_eq_ok_iff.mpr ⟨hclean', by rw [hname, hresult]⟩
    · have hclean' : (c'.walk policy raw).diagnostics ≠ [] := by
        intro hnil
        rw [hnil] at hdiagnostics
        exact hclean hdiagnostics.eq_nil
      exact .inr ⟨_, _, Collection.validate_eq_error_iff.mpr ⟨rfl, hclean⟩,
        Collection.validate_eq_error_iff.mpr ⟨rfl, hclean'⟩, hdiagnostics⟩

/-- The fields of the root change places, and the cases of a union behind a reference. -/
theorem reordered_agree_card : ∃ (d e : Declaration) (c c' : Collection) (raw : Json)
    (ds ds' : List Diagnostic), d.build = .ok c ∧ e.build = .ok c' ∧
      c.validate .strip raw = .error ds ∧ c'.validate .strip raw = .error ds' ∧
      ds.Perm ds' ∧ ds ≠ ds' := by
  let text : Variant Node := ⟨"text", ⟨"body", .text⟩⟩
  let image : Variant Node := ⟨"image", ⟨"src", .text⟩⟩
  let card : TaggedUnion Node := ⟨"kind", ⟨"kind", ["text", "image"]⟩, .empty, [text, image]⟩
  let title : Field Node := ⟨"title", .text⟩
  let cover : Field Node := ⟨"cover", .reference "card"⟩
  let d : Declaration :=
    ⟨"", .page, default, ⟨[title, cover]⟩, [("card", .ofKind (.oneOf card))]⟩
  let e : Declaration :=
    ⟨"", .page, default, ⟨[cover, title]⟩,
      [("card", .ofKind (.oneOf { card with variants := [image, text] }))]⟩
  have hcard : (Node.ofKind (.oneOf card)).Reordered
      (.ofKind (.oneOf { card with variants := [image, text] })) :=
    ⟨⟨rfl, rfl, rfl⟩, .oneOf_of_perm (.refl _) (.swap _ _ _)⟩
  have h : d.Reordered e :=
    ⟨rfl, rfl, rfl, .object_of_perm (.swap _ _ _), .cons ⟨rfl, hcard⟩ .nil⟩
  let c : Collection := ⟨d, rfl⟩
  let c' : Collection := ⟨e, rfl⟩
  let raw : Json := .obj [("cover", .obj [("kind", .str "text"), ("src", .str "x")])]
  have herror : c.validate .strip raw = .error [⟨[.key "title"], .missingField⟩,
      ⟨[.key "cover", .key "body"], .missingField⟩,
      ⟨[.key "cover", .key "src"], .forbiddenField "kind" "text"⟩] := rfl
  have herror' : c'.validate .strip raw = .error [⟨[.key "cover", .key "body"], .missingField⟩,
      ⟨[.key "cover", .key "src"], .forbiddenField "kind" "text"⟩,
      ⟨[.key "title"], .missingField⟩] := rfl
  rcases (reordered_agree h).2 c c' rfl rfl .strip raw with ⟨doc, hdoc, _⟩ | ⟨ds, ds', hds, hds', hp⟩
  · rw [herror] at hdoc
    cases hdoc
  · refine ⟨d, e, c, c', raw, ds, ds', rfl, rfl, hds, hds', hp, ?_⟩
    rw [herror] at hds
    rw [herror'] at hds'
    rw [← Except.error.inj hds, ← Except.error.inj hds']
    decide

end Declaration

end SiteContent
