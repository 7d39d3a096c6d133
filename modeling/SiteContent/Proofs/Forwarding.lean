import Mathlib.Logic.Relation
import SiteContent.Validation.Walk

/-! Chains of references. A chain that has not ended after as many references as there are
definitions has come back to one of them, and so never ends. -/

namespace SiteContent

def Kind.target? {α : Type} : Kind α → Option String
  | .reference target => some target
  | _ => none

theorem Kind.target?_eq_none_iff {α : Type} {k : Kind α} :
    k.target? = none ↔ ∀ t, k ≠ .reference t := by
  cases k <;> simp [target?]

namespace Definitions

open Relation

/-- A reference stands for the kind of the definition that it names. -/
inductive Forwards (defs : Definitions) : Kind Node → Kind Node → Prop
  | intro {t : String} {n : Node} : defs.get? t = some n → Forwards defs (.reference t) n.kind

variable {defs : Definitions} {k k' : Kind Node} {t : String} {n : Node} {fuel : Nat}

theorem follow_of_target?_eq_none (h : k.target? = none) : follow defs fuel k = .kind k := by
  cases k <;> simp_all [Kind.target?, follow]

theorem follow_eq_kind (h : follow defs fuel k = .kind k') :
    ReflTransGen defs.Forwards k k' ∧ k'.target? = none := by
  fun_induction follow defs fuel k with
  | case1 => cases h
  | case2 => cases h
  | case3 s n fuel hn ih => exact ⟨.head (.intro hn) (ih h).1, (ih h).2⟩
  | case4 fuel k hk =>
    obtain rfl := Resolution.kind.inj h
    exact ⟨.refl, Kind.target?_eq_none_iff.mpr hk⟩

theorem follow_eq_unresolved (h : follow defs fuel k = .gap (.unresolved t)) :
    ReflTransGen defs.Forwards k (.reference t) ∧ defs.get? t = none := by
  fun_induction follow defs fuel k with
  | case1 fuel s hs =>
    obtain rfl := Gap.unresolved.inj (Resolution.gap.inj h)
    exact ⟨.refl, hs⟩
  | case2 => cases h
  | case3 s n fuel hn ih => exact ⟨.head (.intro hn) (ih h).1, (ih h).2⟩
  | case4 => cases h

theorem length_lt_of_fresh {names : List String} (hnd : names.Nodup)
    (hsub : ∀ s ∈ names, (defs.get? s).isSome) (ht : (defs.get? t).isSome) (hfresh : t ∉ names) :
    names.length < List.length defs := by
  have hnd' : (t :: names).Nodup := List.nodup_cons.mpr ⟨hfresh, hnd⟩
  have hsub' : t :: names ⊆ Dict.keys defs := by
    intro s hs
    rcases List.mem_cons.mp hs with rfl | hs
    · exact Dict.isSome_get?_iff.mp ht
    · exact Dict.isSome_get?_iff.mp (hsub s hs)
  have hle := hnd'.length_le_of_subset hsub'
  simpa [Dict.keys, Nat.succ_le_iff] using hle

/-- Fuel that is spent means that the chain comes back: `passed` holds the names it has led
through, and they are fewer than the definitions as long as none is met again. -/
theorem follow_loops {passed : List String} {s : String} (hnd : passed.Nodup)
    (hdef : ∀ t ∈ passed, (defs.get? t).isSome)
    (hpassed : ∀ t ∈ passed, TransGen defs.Forwards (.reference t) k)
    (hfuel : List.length defs ≤ fuel + passed.length)
    (h : follow defs fuel k = .gap (.endless s)) :
    ∃ t, ReflTransGen defs.Forwards k (.reference t) ∧
      TransGen defs.Forwards (.reference t) (.reference t) := by
  fun_induction follow defs fuel k generalizing passed with
  | case1 => cases h
  | case2 t n hn =>
    by_cases hm : t ∈ passed
    · exact ⟨t, .refl, hpassed t hm⟩
    · have hlt := length_lt_of_fresh hnd hdef (by simp [hn]) hm
      omega
  | case3 t n fuel hn ih =>
    have hstep : defs.Forwards (.reference t) n.kind := .intro hn
    by_cases hm : t ∈ passed
    · exact ⟨t, .refl, hpassed t hm⟩
    have hdef' : ∀ u ∈ t :: passed, (defs.get? u).isSome := by
      intro u hu
      rcases List.mem_cons.mp hu with rfl | hu
      · simp [hn]
      · exact hdef u hu
    have hpassed' : ∀ u ∈ t :: passed, TransGen defs.Forwards (.reference u) n.kind := by
      intro u hu
      rcases List.mem_cons.mp hu with rfl | hu
      · exact .single hstep
      · exact (hpassed u hu).tail hstep
    have hfuel' : List.length defs ≤ fuel + (t :: passed).length := by
      simp only [List.length_cons]
      omega
    obtain ⟨u, hu, hloop⟩ := ih (List.nodup_cons.mpr ⟨hm, hnd⟩) hdef' hpassed' hfuel' h
    exact ⟨u, .head hstep hu, hloop⟩
  | case4 => cases h

theorem resolve_loops {s : String} (h : defs.resolve k = .gap (.endless s)) :
    ∃ t, ReflTransGen defs.Forwards k (.reference t) ∧
      TransGen defs.Forwards (.reference t) (.reference t) :=
  follow_loops List.nodup_nil (by simp) (by simp) (by simp) h

end Definitions

end SiteContent
