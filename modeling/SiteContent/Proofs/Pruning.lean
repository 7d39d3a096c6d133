import SiteContent.Proofs.Places
import SiteContent.Proofs.SortedDict

/-! Values without some of their entries. What is left out is chosen by location and value; all that
is left stays as it is. -/

namespace SiteContent.Json

mutual

/-- The value without the entries that `drop` picks. -/
def prune (drop : Location → Json → Bool) : Json → Json
  | .arr vs => .arr (pruneElements drop 0 vs)
  | .obj es => .obj (pruneEntries drop es)
  | v => v

def pruneElements (drop : Location → Json → Bool) (i : Nat) : List Json → List Json
  | [] => []
  | v :: vs => v.prune (fun p => drop (.index i :: p)) :: pruneElements drop (i + 1) vs

def pruneEntries (drop : Location → Json → Bool) : List (String × Json) → List (String × Json)
  | [] => []
  | (key, v) :: es =>
    if drop [.key key] v then pruneEntries drop es
    else (key, v.prune fun p => drop (.key key :: p)) :: pruneEntries drop es

end

variable {drop : Location → Json → Bool} {es : Dict Json} {key : String}

theorem prune_of_isScalar {v : Json} (h : v.isScalar = true) : v.prune drop = v := by
  cases v with
  | arr _ => simp [isScalar] at h
  | obj _ => simp [isScalar] at h
  | _ => rfl

mutual

theorem prune_eq_self {drop : Location → Json → Bool} (h : ∀ p w, drop p w = false) :
    ∀ v : Json, v.prune drop = v
  | .arr vs => congrArg Json.arr (pruneElements_eq_self h 0 vs)
  | .obj es => congrArg Json.obj (pruneEntries_eq_self h es)
  | .null | .bool _ | .num _ | .str _ => rfl

theorem pruneElements_eq_self {drop : Location → Json → Bool} (h : ∀ p w, drop p w = false) :
    ∀ (i : Nat) (vs : List Json), pruneElements drop i vs = vs
  | _, [] => rfl
  | i, v :: vs =>
    congrArg₂ List.cons (prune_eq_self (fun p => h (.index i :: p)) v)
      (pruneElements_eq_self h (i + 1) vs)

theorem pruneEntries_eq_self {drop : Location → Json → Bool} (h : ∀ p w, drop p w = false) :
    ∀ es : List (String × Json), pruneEntries drop es = es
  | [] => rfl
  | (key, v) :: es => by
    simp [pruneEntries, h, prune_eq_self (fun p => h (.key key :: p)) v, pruneEntries_eq_self h es]

end

theorem getElem?_pruneElements (vs : List Json) (i j : Nat) : (pruneElements drop i vs)[j]? =
    vs[j]?.map (prune fun p => drop (.index (i + j) :: p)) := by
  induction vs generalizing i j with
  | nil => rfl
  | cons v vs ih =>
    cases j with
    | zero => rfl
    | succ j =>
      rw [pruneElements, List.getElem?_cons_succ, List.getElem?_cons_succ, ih, Nat.add_right_comm]
      rfl

theorem keys_pruneEntries_subset : Dict.keys (pruneEntries drop es) ⊆ es.keys := by
  induction es with
  | nil => exact List.Subset.refl _
  | cons e es ih =>
    rw [pruneEntries]
    split
    · exact fun key h => List.mem_cons_of_mem _ (ih h)
    · exact List.cons_subset_cons _ ih

theorem sorted_pruneEntries (h : es.Sorted) : Dict.Sorted (pruneEntries drop es) := by
  induction es with
  | nil => exact h
  | cons e es ih =>
    obtain ⟨hlt, hes⟩ := List.pairwise_cons.mp h
    rw [pruneEntries]
    split
    · exact ih hes
    · refine List.pairwise_cons.mpr ⟨fun a ha => ?_, ih hes⟩
      have hkey := keys_pruneEntries_subset (List.mem_map.mpr ⟨a, ha, rfl⟩)
      obtain ⟨b, hb, he⟩ := List.mem_map.mp hkey
      exact he ▸ hlt b hb

theorem get?_pruneEntries (h : es.Sorted) (key : String) : Dict.get? (pruneEntries drop es) key =
    ((es.get? key).filter fun v => !drop [.key key] v).map
      (prune fun p => drop (.key key :: p)) := by
  induction es with
  | nil => rfl
  | cons e es ih =>
    obtain ⟨k, v⟩ := e
    obtain ⟨hlt, hes⟩ := List.pairwise_cons.mp h
    have hnone : Dict.get? (pruneEntries drop es) k = none := by
      refine Dict.get?_eq_none_iff.mpr fun hk => ?_
      obtain ⟨b, hb, he⟩ := List.mem_map.mp (keys_pruneEntries_subset hk)
      exact (hlt b hb).ne he.symm
    rw [pruneEntries, Dict.get?]
    split
    · rename_i hd
      split
      · rename_i hk
        subst hk
        simp [hnone, hd, Option.filter]
      · exact ih hes
    · rename_i hd
      rw [Dict.get?]
      split
      · rename_i hk
        subst hk
        simp [hd, Option.filter]
      · exact ih hes

theorem get?_pruneEntries_of_stays (h : es.Sorted) (hstays : ∀ v, drop [.key key] v = false) :
    Dict.get? (pruneEntries drop es) key =
      (es.get? key).map (prune fun p => drop (.key key :: p)) := by
  rw [get?_pruneEntries h]
  cases es.get? key with
  | none => rfl
  | some v => simp [hstays, Option.filter]

end SiteContent.Json
