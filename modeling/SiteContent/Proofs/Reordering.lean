import Mathlib.Data.List.Perm.Basic
import SiteContent.Proofs.Termination

/-! Schemas that differ in the order of fields and cases, at any depth, and in nothing else. -/

namespace SiteContent

/-- The members of two lists can be paired off so that each pair is related. -/
def Paired {α : Type} (R : α → α → Prop) (as bs : List α) : Prop :=
  ∃ ps : List (α × α), as.Perm (ps.map (·.1)) ∧ bs.Perm (ps.map (·.2)) ∧ ∀ p ∈ ps, R p.1 p.2

namespace Paired

variable {α β : Type} {R S : α → α → Prop} {as bs : List α}

theorem of_perm (h : as.Perm bs) (hR : ∀ a ∈ as, R a a) : Paired R as bs := by
  refine ⟨as.map fun a => (a, a), ?_, ?_, List.forall_mem_map.mpr hR⟩
  · simp [Function.comp_def]
  · simpa [Function.comp_def] using h.symm

theorem exists_right (h : Paired R as bs) {a : α} (ha : a ∈ as) : ∃ b ∈ bs, R a b := by
  obtain ⟨ps, has, hbs, hps⟩ := h
  obtain ⟨p, hp, rfl⟩ := List.mem_map.mp (has.mem_iff.mp ha)
  exact ⟨p.2, hbs.mem_iff.mpr (List.mem_map.mpr ⟨p, hp, rfl⟩), hps p hp⟩

theorem imp (h : Paired R as bs) (hRS : ∀ a ∈ as, ∀ b ∈ bs, R a b → S a b) : Paired S as bs := by
  obtain ⟨ps, has, hbs, hps⟩ := h
  refine ⟨ps, has, hbs, fun p hp => ?_⟩
  have ha : p.1 ∈ as := has.mem_iff.mpr (List.mem_map.mpr ⟨p, hp, rfl⟩)
  have hb : p.2 ∈ bs := hbs.mem_iff.mpr (List.mem_map.mpr ⟨p, hp, rfl⟩)
  exact hRS _ ha _ hb (hps p hp)

theorem perm_flatMap (h : Paired R as bs) {f g : α → List β}
    (hfg : ∀ a b, R a b → (f a).Perm (g b)) : (as.flatMap f).Perm (bs.flatMap g) := by
  obtain ⟨ps, has, hbs, hps⟩ := h
  have hpairs : (ps.flatMap fun p => f p.1).Perm (ps.flatMap fun p => g p.2) :=
    .flatMap_left ps fun p hp => hfg _ _ (hps p hp)
  refine (has.flatMap_right f).trans ?_
  refine List.Perm.trans ?_ (hbs.flatMap_right g).symm
  rwa [List.flatMap_map, List.flatMap_map]

theorem filter (h : Paired R as bs) {p q : α → Bool} (hpq : ∀ a b, R a b → p a = q b) :
    Paired R (as.filter p) (bs.filter q) := by
  obtain ⟨ps, has, hbs, hps⟩ := h
  have hsame : ps.filter (fun x => p x.1) = ps.filter (fun x => q x.2) :=
    List.filter_congr fun x hx => hpq _ _ (hps x hx)
  refine ⟨ps.filter (fun x => p x.1), ?_, ?_, fun x hx => hps x (List.mem_filter.mp hx).1⟩
  · have hleft := has.filter p
    rwa [List.filter_map] at hleft
  · have hright := hbs.filter q
    rw [List.filter_map] at hright
    rwa [hsame]

theorem perm_map (h : Paired R as bs) {f g : α → β} (hfg : ∀ a b, R a b → f a = g b) :
    (as.map f).Perm (bs.map g) := by
  have hflat := h.perm_flatMap (f := fun a => [f a]) (g := fun b => [g b]) fun a b hab => by
    rw [hfg a b hab]
  simpa only [← List.map_eq_flatMap] using hflat

end Paired

/-- Two nodes agree in all but their kinds. -/
structure Node.Alike (n m : Node) : Prop where
  required : n.required = m.required
  default : n.default = m.default
  hints : n.hints = m.hints

theorem Node.Alike.symm {n m : Node} (h : n.Alike m) : m.Alike n :=
  ⟨h.required.symm, h.default.symm, h.hints.symm⟩

/-- A kind without fields, items or cases. -/
def Kind.isLeaf {α : Type} : Kind α → Bool
  | .object _ | .array _ _ | .oneOf _ => false
  | _ => true

/-- Two kinds differ in the order of fields and of cases, at any depth, and in nothing else. -/
inductive Kind.Reordered : Kind Node → Kind Node → Prop
  | leaf {k : Kind Node} : k.isLeaf = true → Reordered k k
  | array {items items' : Node} {nonEmpty : Bool} :
      items.Alike items' → Reordered items.kind items'.kind →
      Reordered (.array items nonEmpty) (.array items' nonEmpty)
  -- The pairs are spelled out, since `Paired` cannot be given the relation while it is defined.
  | object {fs fs' : List (Field Node)} {ps : List (Field Node × Field Node)} :
      fs.Perm (ps.map (·.1)) → fs'.Perm (ps.map (·.2)) →
      (∀ p ∈ ps, p.1.name = p.2.name ∧ p.1.node.Alike p.2.node) →
      (∀ p ∈ ps, Reordered p.1.node.kind p.2.node.kind) →
      Reordered (.object ⟨fs⟩) (.object ⟨fs'⟩)
  | oneOf {tag : String} {tags : Enumeration} {fs fs' : List (Field Node)}
      {vs vs' : List (Variant Node)} {ps : List (Field Node × Field Node)}
      {qs : List (Variant Node × Variant Node)} :
      fs.Perm (ps.map (·.1)) → fs'.Perm (ps.map (·.2)) →
      (∀ p ∈ ps, p.1.name = p.2.name ∧ p.1.node.Alike p.2.node) →
      (∀ p ∈ ps, Reordered p.1.node.kind p.2.node.kind) →
      vs.Perm (qs.map (·.1)) → vs'.Perm (qs.map (·.2)) →
      (∀ q ∈ qs, q.1.tag = q.2.tag ∧ q.1.payload.name = q.2.payload.name ∧
        q.1.payload.node.Alike q.2.payload.node) →
      (∀ q ∈ qs, Reordered q.1.payload.node.kind q.2.payload.node.kind) →
      Reordered (.oneOf ⟨tag, tags, ⟨fs⟩, vs⟩) (.oneOf ⟨tag, tags, ⟨fs'⟩, vs'⟩)

structure Node.Reordered (n m : Node) : Prop where
  alike : n.Alike m
  kind : n.kind.Reordered m.kind

structure Field.Reordered (f g : Field Node) : Prop where
  name : f.name = g.name
  node : f.node.Reordered g.node

structure Variant.Reordered (c d : Variant Node) : Prop where
  tag : c.tag = d.tag
  payload : c.payload.Reordered d.payload

/-- Two kinds that are reordered, opened one level. -/
inductive Kind.Matched : Kind Node → Kind Node → Prop
  | leaf {k : Kind Node} : k.isLeaf = true → Matched k k
  | array {items items' : Node} {nonEmpty : Bool} :
      items.Reordered items' → Matched (.array items nonEmpty) (.array items' nonEmpty)
  | object {s s' : Schema} :
      Paired Field.Reordered s.fields s'.fields → Matched (.object s) (.object s')
  | oneOf {u u' : TaggedUnion Node} : u.tag = u'.tag → u.tags = u'.tags →
      Paired Field.Reordered u.common.fields u'.common.fields →
      Paired Variant.Reordered u.variants u'.variants → Matched (.oneOf u) (.oneOf u')

namespace Kind.Reordered

variable {k k' : Kind Node} {t : String}

theorem matched (h : Reordered k k') : Matched k k' := by
  cases h with
  | leaf hk => exact .leaf hk
  | array ha hk => exact .array ⟨ha, hk⟩
  | object hfs hfs' ha hk =>
    exact .object ⟨_, hfs, hfs', fun p hp => ⟨(ha p hp).1, (ha p hp).2, hk p hp⟩⟩
  | oneOf hfs hfs' ha hk hvs hvs' hb hl =>
    refine .oneOf rfl rfl ⟨_, hfs, hfs', fun p hp => ?_⟩ ⟨_, hvs, hvs', fun q hq => ?_⟩
    · exact ⟨(ha p hp).1, (ha p hp).2, hk p hp⟩
    · exact ⟨(hb q hq).1, (hb q hq).2.1, (hb q hq).2.2, hl q hq⟩

theorem of_matched (h : Matched k k') : Reordered k k' := by
  cases h with
  | leaf hk => exact .leaf hk
  | array h => exact .array h.alike h.kind
  | object h =>
    obtain ⟨ps, hfs, hfs', hps⟩ := h
    exact .object hfs hfs' (fun p hp => ⟨(hps p hp).name, (hps p hp).node.alike⟩)
      fun p hp => (hps p hp).node.kind
  | @oneOf u u' htag htags h h' =>
    obtain ⟨tag, tags, ⟨fs⟩, vs⟩ := u
    obtain ⟨_, _, ⟨fs'⟩, vs'⟩ := u'
    obtain ⟨ps, hfs, hfs', hps⟩ := h
    obtain ⟨qs, hvs, hvs', hqs⟩ := h'
    cases htag
    cases htags
    exact .oneOf hfs hfs' (fun p hp => ⟨(hps p hp).name, (hps p hp).node.alike⟩)
      (fun p hp => (hps p hp).node.kind) hvs hvs'
      (fun q hq => ⟨(hqs q hq).tag, (hqs q hq).payload.name, (hqs q hq).payload.node.alike⟩)
      fun q hq => (hqs q hq).payload.node.kind

theorem symm (h : Reordered k k') : Reordered k' k := by
  have hswap : ∀ {α : Type} {as bs : List α} {ps : List (α × α)}, as.Perm (ps.map (·.1)) →
      bs.Perm (ps.map (·.2)) → bs.Perm ((ps.map Prod.swap).map (·.1)) ∧
        as.Perm ((ps.map Prod.swap).map (·.2)) := by
    intro α as bs ps has hbs
    rw [List.map_map, List.map_map]
    exact ⟨hbs, has⟩
  induction h with
  | leaf hk => exact .leaf hk
  | array ha _ ih => exact .array ha.symm ih
  | object hfs hfs' ha _ ih =>
    obtain ⟨hfst, hsnd⟩ := hswap hfs hfs'
    exact .object hfst hsnd
      (List.forall_mem_map.mpr fun p hp => ⟨(ha p hp).1.symm, (ha p hp).2.symm⟩)
      (List.forall_mem_map.mpr ih)
  | oneOf hfs hfs' ha _ hvs hvs' hb _ ihf ihv =>
    obtain ⟨hfst, hsnd⟩ := hswap hfs hfs'
    obtain ⟨hvfst, hvsnd⟩ := hswap hvs hvs'
    exact .oneOf hfst hsnd
      (List.forall_mem_map.mpr fun p hp => ⟨(ha p hp).1.symm, (ha p hp).2.symm⟩)
      (List.forall_mem_map.mpr ihf) hvfst hvsnd
      (List.forall_mem_map.mpr fun q hq =>
        ⟨(hb q hq).1.symm, (hb q hq).2.1.symm, (hb q hq).2.2.symm⟩)
      (List.forall_mem_map.mpr ihv)

theorem of_reference (h : Reordered (.reference t) k') : k' = .reference t := by
  cases h with
  | leaf _ => rfl

theorem of_object {s' : Schema} (h : Reordered k (.object s')) :
    ∃ s, k = .object s ∧ Paired Field.Reordered s.fields s'.fields := by
  cases h.matched with
  | leaf hk => cases hk
  | object hfields => exact ⟨_, rfl, hfields⟩

theorem of_oneOf {u' : TaggedUnion Node} (h : Reordered k (.oneOf u')) :
    ∃ u, k = .oneOf u ∧ u.tag = u'.tag ∧ u.tags = u'.tags ∧
      Paired Field.Reordered u.common.fields u'.common.fields ∧
      Paired Variant.Reordered u.variants u'.variants := by
  cases h.matched with
  | leaf hk => cases hk
  | oneOf htag htags hfields hcases => exact ⟨_, rfl, htag, htags, hfields, hcases⟩

theorem target?_eq (h : Reordered k k') : k'.target? = k.target? := by
  cases h <;> rfl

end Kind.Reordered

theorem Node.Reordered.symm {n m : Node} (h : n.Reordered m) : m.Reordered n :=
  ⟨h.alike.symm, h.kind.symm⟩

theorem Node.Reordered.refl (n : Node) : n.Reordered n := by
  induction n using Node.parts_induction with
  | h n ih =>
    refine ⟨⟨rfl, rfl, rfl⟩, .of_matched ?_⟩
    generalize n.kind = k at ih
    cases k with
    | object s =>
      have hfields : Paired Field.Reordered s.fields s.fields :=
        .of_perm (.refl _) fun f hf => ⟨rfl, ih _ _ (List.mem_map.mpr ⟨f, hf, rfl⟩)⟩
      exact .object hfields
    | array items _ => exact .array (ih _ _ (List.mem_singleton_self _))
    | oneOf u =>
      have hfields : Paired Field.Reordered u.common.fields u.common.fields :=
        .of_perm (.refl _) fun f hf => ⟨rfl, ih _ _
          (List.mem_append_left _ (List.mem_map.mpr ⟨f, hf, rfl⟩))⟩
      have hcases : Paired Variant.Reordered u.variants u.variants :=
        .of_perm (.refl _) fun c hc => ⟨rfl, rfl, ih _ _
          (List.mem_append_right _ (List.mem_map.mpr ⟨c, hc, rfl⟩))⟩
      exact .oneOf rfl rfl hfields hcases
    | _ => exact .leaf rfl

/-- Fields that only change places. -/
theorem Kind.Reordered.object_of_perm {s s' : Schema} (h : s.fields.Perm s'.fields) :
    (Kind.object s).Reordered (.object s') :=
  .of_matched (.object (.of_perm h fun f _ => ⟨rfl, .refl f.node⟩))

/-- Cases that only change places, and common fields that do. -/
theorem Kind.Reordered.oneOf_of_perm {u : TaggedUnion Node} {common : Schema}
    {variants : List (Variant Node)} (h : u.common.fields.Perm common.fields)
    (h' : u.variants.Perm variants) :
    (Kind.oneOf u).Reordered (.oneOf { u with common := common, variants := variants }) :=
  .of_matched (.oneOf rfl rfl (.of_perm h fun f _ => ⟨rfl, .refl f.node⟩)
    (.of_perm h' fun c _ => ⟨rfl, rfl, .refl c.payload.node⟩))

/-- Definitions under the same names, each with another order in it. -/
def Definitions.Reordered (defs defs' : Definitions) : Prop :=
  List.Forall₂ (fun e e' => e.1 = e'.1 ∧ e.2.Reordered e'.2) defs defs'

namespace Definitions.Reordered

variable {defs defs' : Definitions} {k k' l : Kind Node} {fuel : Nat} {t : String} {n : Node}

theorem get?_eq_some (h : defs.Reordered defs') (hn : defs.get? t = some n) :
    ∃ m, defs'.get? t = some m ∧ n.Reordered m := by
  induction h with
  | nil => cases hn
  | @cons e e' _ _ he _ ih =>
    obtain ⟨hname, hnode⟩ := he
    rw [Dict.get?] at hn ⊢
    by_cases ht : e.1 = t
    · rw [if_pos ht] at hn
      obtain rfl := Option.some.inj hn
      exact ⟨_, if_pos (hname ▸ ht), hnode⟩
    · rw [if_neg ht] at hn
      rw [if_neg (hname ▸ ht)]
      exact ih hn

theorem follow_eq_kind (h : defs.Reordered defs') (hk : k.Reordered k')
    (hl : Definitions.follow defs fuel k = .kind l) :
    ∃ l', Definitions.follow defs' fuel k' = .kind l' ∧ l.Reordered l' := by
  fun_induction Definitions.follow defs fuel k generalizing k' with
  | case1 => cases hl
  | case2 => cases hl
  | case3 t n fuel hn ih =>
    obtain rfl := hk.of_reference
    obtain ⟨m, hm, hnm⟩ := h.get?_eq_some hn
    obtain ⟨l', hl', hll'⟩ := ih hnm.kind hl
    exact ⟨l', (Definitions.follow_succ hm).trans hl', hll'⟩
  | case4 fuel k hkind =>
    obtain rfl := Resolution.kind.inj hl
    have ht : k'.target? = none := by
      rw [hk.target?_eq]
      exact Kind.target?_eq_none_iff.mpr hkind
    exact ⟨k', Definitions.follow_of_target?_eq_none ht, hk⟩

theorem resolve_eq_kind (h : defs.Reordered defs') (hk : k.Reordered k')
    (hl : defs.resolve k = .kind l) : ∃ l', defs'.resolve k' = .kind l' ∧ l.Reordered l' := by
  rw [Definitions.resolve] at hl ⊢
  rw [← h.length_eq]
  exact h.follow_eq_kind hk hl

end Definitions.Reordered

namespace TaggedUnion

variable {u u' : TaggedUnion Node}

theorem perm_allNames (htag : u.tag = u'.tag)
    (hfields : Paired Field.Reordered u.common.fields u'.common.fields)
    (hcases : Paired Variant.Reordered u.variants u'.variants) : u.allNames.Perm u'.allNames := by
  have hcommon : u.common.names.Perm u'.common.names := hfields.perm_map fun _ _ h => h.name
  have hpayloads := hcases.perm_map (f := (·.payload.name)) (g := (·.payload.name))
    fun _ _ h => h.payload.name
  rw [allNames, allNames, htag]
  exact (hcommon.append hpayloads).cons _

theorem Lawful.of_paired (hu : u.Lawful) (htag : u.tag = u'.tag) (htags : u.tags = u'.tags)
    (hfields : Paired Field.Reordered u.common.fields u'.common.fields)
    (hcases : Paired Variant.Reordered u.variants u'.variants) : u'.Lawful := by
  have hperm : u.caseTags.Perm u'.caseTags := hcases.perm_map fun _ _ h => h.tag
  constructor
  case tags_distinct => exact hperm.nodup_iff.mp hu.tags_distinct
  case tags_exact =>
    intro t
    rw [← hperm.mem_iff, ← htags]
    exact hu.tags_exact t
  case names_distinct =>
    exact (perm_allNames htag hfields hcases).nodup_iff.mp hu.names_distinct

end TaggedUnion

end SiteContent
