import Mathlib.Data.List.Induction
import Mathlib.Data.List.Nodup
import Mathlib.Data.String.Basic
import SiteContent.Dict

/-! Dictionaries are put together in order of keys, so that they are the same as soon as they hold
the same values under the same keys. -/

namespace SiteContent.Dict

variable {α : Type} {d : Dict α} {key : String} {value : α}

theorem mem_of_mem_insert {e : String × α} (h : e ∈ d.insert key value) :
    e = (key, value) ∨ e ∈ d := by
  induction d with
  | nil => exact .inl (List.mem_singleton.mp h)
  | cons a rest ih =>
    rw [insert] at h
    split at h
    · exact List.mem_cons.mp h
    · split at h
      · rcases List.mem_cons.mp h with rfl | h
        · exact .inl rfl
        · exact .inr (List.mem_cons_of_mem _ h)
      · rcases List.mem_cons.mp h with rfl | h
        · exact .inr List.mem_cons_self
        · exact (ih h).imp_right (List.mem_cons_of_mem _)

theorem Sorted.insert (h : d.Sorted) : (d.insert key value).Sorted := by
  induction d with
  | nil => exact List.pairwise_singleton _ _
  | cons a rest ih =>
    obtain ⟨hlt, hrest⟩ := List.pairwise_cons.mp h
    rw [Dict.insert]
    split
    · rename_i hk
      refine List.pairwise_cons.mpr ⟨fun e he => ?_, h⟩
      rcases List.mem_cons.mp he with rfl | he
      · exact hk
      · exact hk.trans (hlt e he)
    · rename_i hk
      split
      · rename_i he
        exact List.pairwise_cons.mpr ⟨fun e hm => he ▸ hlt e hm, hrest⟩
      · rename_i hne
        refine List.pairwise_cons.mpr ⟨fun e he => ?_, ih hrest⟩
        rcases mem_of_mem_insert he with rfl | he
        · exact lt_of_le_of_ne (not_lt.mp hk) (Ne.symm hne)
        · exact hlt e he

theorem sorted_ofList (es : List (String × α)) : (ofList es).Sorted := by
  induction es using List.reverseRecOn with
  | nil => exact List.Pairwise.nil
  | append_singleton es e ih =>
    rw [ofList, List.foldl_append]
    exact ih.insert

/-- The entry that comes last is the one that is found. -/
theorem get?_ofList (es : List (String × α)) (key : String) :
    (ofList es).get? key = get? es.reverse key := by
  induction es using List.reverseRecOn with
  | nil => rfl
  | append_singleton es e ih =>
    have hlast : ofList (es ++ [e]) = (ofList es).insert e.1 e.2 := by
      rw [ofList, List.foldl_append]
      rfl
    rw [hlast, List.reverse_append, List.reverse_singleton, List.singleton_append, get?, ← ih]
    split
    · rename_i he
      rw [← he, get?_insert_self]
    · rename_i he
      exact get?_insert_of_ne _ _ he

theorem mem_of_get?_ofList {es : List (String × α)} (h : (ofList es).get? key = some value) :
    (key, value) ∈ es :=
  List.mem_reverse.mp (mem_of_get?_eq_some (get?_ofList es key ▸ h))

theorem get?_eq_some_of_unique (h : (key, value) ∈ d) (hu : ∀ v, (key, v) ∈ d → v = value) :
    d.get? key = some value := by
  obtain ⟨v, hv⟩ := Option.isSome_iff_exists.mp (isSome_get?_of_mem h)
  rw [hv, hu v (mem_of_get?_eq_some hv)]

theorem get?_ofList_of_unique {es : List (String × α)} (h : (key, value) ∈ es)
    (hu : ∀ v, (key, v) ∈ es → v = value) : (ofList es).get? key = some value := by
  rw [get?_ofList]
  exact get?_eq_some_of_unique (List.mem_reverse.mpr h) fun v hv => hu v (List.mem_reverse.mp hv)

theorem mem_keys_ofList {es : List (String × α)} : key ∈ (ofList es).keys ↔ key ∈ keys es := by
  have hreverse : key ∈ keys es.reverse ↔ key ∈ keys es := by simp [keys]
  rw [← isSome_get?_iff, get?_ofList, isSome_get?_iff, hreverse]

theorem Sorted.get?_of_mem (hd : d.Sorted) (h : (key, value) ∈ d) : d.get? key = some value := by
  induction d with
  | nil => simp at h
  | cons e rest ih =>
    obtain ⟨hlt, hrest⟩ := List.pairwise_cons.mp hd
    rcases List.mem_cons.mp h with rfl | h
    · simp [get?]
    · have hne : e.1 ≠ key := (hlt _ h).ne
      simp [get?, hne, ih hrest h]

theorem Sorted.mem_iff (hd : d.Sorted) : (key, value) ∈ d ↔ d.get? key = some value :=
  ⟨hd.get?_of_mem, mem_of_get?_eq_some⟩

theorem Sorted.nodup (hd : d.Sorted) : d.Nodup :=
  hd.imp fun hlt he => hlt.ne (congrArg Prod.fst he)

theorem Sorted.ext {a b : Dict α} (ha : a.Sorted) (hb : b.Sorted)
    (h : ∀ key, a.get? key = b.get? key) : a = b := by
  have hperm : a.Perm b := by
    refine (List.perm_ext_iff_of_nodup ha.nodup hb.nodup).mpr ?_
    rintro ⟨key, v⟩
    rw [ha.mem_iff, hb.mem_iff, h]
  exact hperm.eq_of_pairwise (fun _ _ _ _ h h' => absurd h' h.asymm) ha hb

section Entries

variable {as bs : List (String × α)}

/-- In which order entries are put in does not matter while their keys differ. -/
theorem ofList_perm (h : as.Perm bs) (hkeys : (keys as).Nodup) : ofList as = ofList bs := by
  refine (sorted_ofList as).ext (sorted_ofList bs) fun key => ?_
  cases ha : (ofList as).get? key with
  | none =>
    have hnot : key ∉ (ofList bs).keys := by
      intro hmem
      have hkey : key ∈ keys as := (h.map Prod.fst).mem_iff.mpr (mem_keys_ofList.mp hmem)
      exact get?_eq_none_iff.mp ha (mem_keys_ofList.mpr hkey)
    exact (get?_eq_none_iff.mpr hnot).symm
  | some v =>
    have hv := mem_of_get?_ofList ha
    refine (get?_ofList_of_unique (h.mem_iff.mp hv) fun w hw => ?_).symm
    exact congrArg Prod.snd (List.inj_on_of_nodup_map hkeys (h.mem_iff.mpr hw) hv rfl)

theorem ofList_append_congr (h : ofList as = ofList bs) (cs : List (String × α)) :
    ofList (as ++ cs) = ofList (bs ++ cs) := by
  rw [ofList, ofList] at h
  rw [ofList, ofList, List.foldl_append, List.foldl_append, h]

end Entries

end SiteContent.Dict
