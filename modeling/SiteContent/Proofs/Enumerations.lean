import Mathlib.Data.List.Perm.Subperm
import SiteContent.Proofs.Building
import SiteContent.Proofs.SchemaReading

/-! When the enumerations of a schema are sets. Those that are built in are, and making one checks
that it is; reading one does not, and building a collection only compares tags with cases. -/

namespace SiteContent

namespace Enumeration

/-- There is a member, and none is listed twice. -/
structure IsSet (e : Enumeration) : Prop where
  ne_nil : e.members ≠ []
  nodup : e.members.Nodup

variable {name : String} {members : List String} {e : Enumeration}

theorem new_eq_ok_iff : new name members = .ok e ↔ e = ⟨name, members⟩ ∧ e.IsSet := by
  have hfirst := Names.firstRepeat?_eq_none_iff [] members
  rw [new]
  split
  · rename_i hnil
    simp only [reduceCtorEq, false_iff]
    rintro ⟨rfl, hset⟩
    exact hset.ne_nil (List.isEmpty_iff.mp hnil)
  · rename_i hne
    split
    · rename_i m hm
      simp only [reduceCtorEq, false_iff]
      rintro ⟨rfl, hset⟩
      simp [hfirst.mpr ⟨hset.nodup, by simp⟩] at hm
    · rename_i hm
      constructor
      · intro h
        obtain rfl := Except.ok.inj h
        exact ⟨rfl, fun h => hne (List.isEmpty_iff.mpr h), (hfirst.mp hm).1⟩
      · rintro ⟨rfl, _⟩
        rfl

/-- An enumeration is built in, or was made by the function that checks it. -/
def Checked (e : Enumeration) : Prop :=
  e ∈ Vocabulary.catalog ∨ ∃ name members, new name members = .ok e

theorem checked_iff_isSet : e.Checked ↔ e.IsSet := by
  have hcatalog : ∀ e ∈ Vocabulary.catalog, e.members ≠ [] ∧ e.members.Nodup := by decide
  constructor
  · rintro (he | ⟨name, members, he⟩)
    · exact ⟨(hcatalog e he).1, (hcatalog e he).2⟩
    · exact (new_eq_ok_iff.mp he).2
  · exact fun h => .inr ⟨e.name, e.members, new_eq_ok_iff.mpr ⟨rfl, h⟩⟩

end Enumeration

/-- The enumeration that a kind holds values against: its own, or the tags of a union. -/
def Kind.enumeration? : Kind Node → Option Enumeration
  | .enumeration e => some e
  | .oneOf u => some u.tags
  | _ => none

/-- The tags of a lawful union are a set unless one of them is listed twice, in which case they are
more than the cases, or there is none. -/
theorem TaggedUnion.Lawful.isSet_tags_iff {u : TaggedUnion Node} (hu : u.Lawful) :
    u.tags.IsSet ↔ u.variants ≠ [] ∧ u.tags.members.length = u.variants.length := by
  have hlength : u.caseTags.length = u.variants.length := List.length_map _
  have hnil : u.variants ≠ [] ↔ u.tags.members ≠ [] := by
    simp only [ne_eq, List.eq_nil_iff_forall_not_mem, ← hu.tags_exact]
    simp [TaggedUnion.caseTags]
  rw [hnil]
  constructor
  · intro h
    have hperm := (List.perm_ext_iff_of_nodup hu.tags_distinct h.nodup).mpr hu.tags_exact
    exact ⟨h.ne_nil, hperm.length_eq.symm.trans hlength⟩
  · rintro ⟨hne, hle⟩
    have hsub : u.caseTags.Subperm u.tags.members :=
      hu.tags_distinct.subperm fun t ht => (hu.tags_exact t).mp ht
    have hperm := hsub.perm_of_length_le (Nat.le_of_eq (hle.trans hlength.symm))
    exact ⟨hne, hperm.nodup_iff.mp hu.tags_distinct⟩

namespace SchemaGraph

/-- An enumeration is in use at a node of a graph. -/
def Uses (defs : Definitions) (root : Schema) (e : Enumeration) : Prop :=
  ∃ path n, Sited defs root path n ∧ n.kind.enumeration? = some e

end SchemaGraph

namespace Declaration

open SchemaGraph

variable {d : Declaration} {c : Collection}

/-- Building a collection does not look at enumerations for themselves: when it succeeds, those in
use are sets exactly if the values are held against checked ones, and if each union has cases, as
many as it lists tags. -/
theorem enumerations_isSet_iff (h : d.build = .ok c) :
    (∀ e, Uses d.definitions d.schema e → e.IsSet) ↔
      (∀ path n e, Sited d.definitions d.schema path n → n.kind = .enumeration e → e.Checked) ∧
      ∀ path n u, Sited d.definitions d.schema path n → n.kind = .oneOf u →
        u.variants ≠ [] ∧ u.tags.members.length = u.variants.length := by
  have hwf : WellFormed d.definitions d.schema :=
    Check.wellFormed_of_graph_ok (build_eq_ok_iff.mp ⟨c, h⟩)
  constructor
  · intro hall
    refine ⟨fun path n e hn hk => ?_, fun path n u hn hk => ?_⟩
    · exact Enumeration.checked_iff_isSet.mpr (hall e ⟨path, n, hn, by rw [hk]; rfl⟩)
    · have hset := hall u.tags ⟨path, n, hn, by rw [hk]; rfl⟩
      exact (hwf.unions_lawful path n u hn hk).isSet_tags_iff.mp hset
  · rintro ⟨hvalues, hunions⟩ e ⟨path, n, hn, he⟩
    cases hk : n.kind with
    | enumeration e' =>
      obtain rfl := Option.some.inj ((congrArg Kind.enumeration? hk).symm.trans he)
      exact Enumeration.checked_iff_isSet.mp (hvalues path n _ hn hk)
    | oneOf u =>
      obtain rfl := Option.some.inj ((congrArg Kind.enumeration? hk).symm.trans he)
      exact (hwf.unions_lawful path n u hn hk).isSet_tags_iff.mpr (hunions path n u hn hk)
    | _ => simp [hk, Kind.enumeration?] at he

/-- An enumeration without members is read, and a collection is built with it. -/
theorem exists_build_not_isSet : ∃ (v : Json) (s : Schema) (c : Collection) (e : Enumeration),
    Shape.decode v = .ok s ∧ build ⟨"", .page, default, s, []⟩ = .ok c ∧ Uses [] s e ∧
      ¬ e.IsSet := by
  let e : Enumeration := ⟨"e", []⟩
  let s : Schema := .ofList [("a", Node.enumeration e)]
  let c : Collection := ⟨⟨"", .page, default, s, []⟩, rfl⟩
  have hread : Shape.decode s.encode = .ok s := rfl
  have huses : Uses [] s e :=
    ⟨_, Node.enumeration e, Sited.root.part (e := .field "a") (List.mem_singleton.mpr rfl), rfl⟩
  exact ⟨s.encode, s, c, e, hread, rfl, huses, fun h => h.ne_nil rfl⟩

/-- A union lists its only tag twice. -/
theorem enumerations_not_isSet_repeated_tag : ∃ (d : Declaration) (c : Collection),
    d.build = .ok c ∧ ¬ ∀ e, Uses d.definitions d.schema e → e.IsSet := by
  let u : TaggedUnion Node := ⟨"t", ⟨"e", ["x", "x"]⟩, .empty, [⟨"x", ⟨"p", Node.string⟩⟩]⟩
  let s : Schema := .ofList [("a", Node.oneOf u)]
  let d : Declaration := ⟨"", .page, default, s, []⟩
  have hbuild : d.build = .ok ⟨d, rfl⟩ := rfl
  refine ⟨d, _, hbuild, fun hall => ?_⟩
  have hn : Sited [] s _ (Node.oneOf u) :=
    Sited.root.part (e := .field "a") (List.mem_singleton.mpr rfl)
  exact absurd (((enumerations_isSet_iff hbuild).mp hall).2 _ _ u hn rfl).2 (by decide)

end Declaration

end SiteContent
