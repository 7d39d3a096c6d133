import Mathlib.Data.List.Induction
import SiteContent.Validation.Location

/-! Which places can be told apart by their rendered paths. Joining keys by dots loses where one key
ends and the next begins, unless the keys are free of the marks of a path. -/

namespace SiteContent

/-- A text in which no mark of a path stands. -/
def PlainName (name : String) : Prop :=
  name ≠ "" ∧ '.' ∉ name.toList ∧ '[' ∉ name.toList ∧ ']' ∉ name.toList

namespace Step

def Legible : Step → Prop
  | .key name => PlainName name
  | .index _ => True

end Step

namespace Location

variable {path other name name' : String} {i j : Nat} {s t : Step} {l m : Location}

theorem toDigits_injective {i j : Nat} (h : Nat.toDigits 10 i = Nat.toDigits 10 j) : i = j := by
  rw [← @Nat.ofDigitChars_ten_toDigits i, h, Nat.ofDigitChars_ten_toDigits]

theorem bracket_notMem_toDigits (i : Nat) : '[' ∉ Nat.toDigits 10 i := by
  intro h
  have hdigit : '['.isDigit = true := Nat.isDigit_of_mem_toDigits (by decide) (by decide) h
  exact absurd hdigit (by decide)

theorem append_mark_inj {α : Type} {mark : α} {as bs xs ys : List α} (hxs : mark ∉ xs)
    (hys : mark ∉ ys) (h : as ++ mark :: xs = bs ++ mark :: ys) : as = bs ∧ xs = ys := by
  -- The mark stands in neither rest, so both lists are cut at its last place.
  rcases List.append_eq_append_iff.mp h with ⟨cs, rfl, hcs⟩ | ⟨cs, rfl, hcs⟩
  · cases cs with
    | nil => simpa using hcs
    | cons c cs => exact absurd (by simp [(List.cons.inj hcs).2]) hxs
  · cases cs with
    | nil => simpa [eq_comm] using hcs
    | cons c cs => exact absurd (by simp [(List.cons.inj hcs).2]) hys

theorem toList_extendPath_index : (extendPath path (.index i)).toList =
    (path.toList ++ '[' :: Nat.toDigits 10 i) ++ [']'] := by
  simp [extendPath]

theorem extendPath_empty : extendPath "" (.key name) = name :=
  rfl

theorem toList_extendPath_key (h : path ≠ "") :
    (extendPath path (.key name)).toList = path.toList ++ '.' :: name.toList := by
  simp [extendPath, h]

theorem extendPath_index_inj (h : extendPath path (.index i) = extendPath other (.index j)) :
    path = other ∧ i = j := by
  have hchars := congrArg String.toList h
  rw [toList_extendPath_index, toList_extendPath_index] at hchars
  obtain ⟨hpath, hdigits⟩ := append_mark_inj (bracket_notMem_toDigits i)
    (bracket_notMem_toDigits j) (List.append_cancel_right hchars)
  exact ⟨String.toList_inj.mp hpath, toDigits_injective hdigits⟩

theorem extendPath_key_inj (hname : PlainName name) (hname' : PlainName name')
    (h : extendPath path (.key name) = extendPath other (.key name')) :
    path = other ∧ name = name' := by
  have hchars := congrArg String.toList h
  by_cases hpath : path = ""
  · by_cases hother : other = ""
    · rw [hpath, hother, extendPath_empty, extendPath_empty] at h
      exact ⟨hpath.trans hother.symm, h⟩
    · rw [hpath, extendPath_empty, toList_extendPath_key hother] at hchars
      exact absurd (by simp [hchars]) hname.2.1
  · by_cases hother : other = ""
    · rw [hother, extendPath_empty, toList_extendPath_key hpath] at hchars
      exact absurd (by simp [← hchars]) hname'.2.1
    · rw [toList_extendPath_key hpath, toList_extendPath_key hother] at hchars
      obtain ⟨hbefore, hafter⟩ := append_mark_inj hname.2.1 hname'.2.1 hchars
      exact ⟨String.toList_inj.mp hbefore, String.toList_inj.mp hafter⟩

theorem extendPath_key_ne_index (hname : PlainName name) :
    extendPath path (.key name) ≠ extendPath other (.index i) := by
  intro h
  have hlast := congrArg (·.toList.getLast?) h
  have hends : (extendPath path (.key name)).toList.getLast? = name.toList.getLast? := by
    have hne : name.toList ≠ [] := by simpa using hname.1
    by_cases hpath : path = ""
    · rw [hpath, extendPath_empty]
    · rw [toList_extendPath_key hpath, List.getLast?_append, List.getLast?_cons,
        List.getLast?_eq_some_getLast hne, Option.getD_some, Option.some_or]
  -- A path ends in a bracket when its last step is an index.
  rw [hends, toList_extendPath_index, List.getLast?_concat] at hlast
  exact hname.2.2.2 (List.mem_of_getLast? hlast)

theorem extendPath_inj (hs : s.Legible) (ht : t.Legible)
    (h : extendPath path s = extendPath other t) : path = other ∧ s = t := by
  cases s with
  | key name =>
    cases t with
    | key name' => simpa using extendPath_key_inj hs ht h
    | index j => exact absurd h (extendPath_key_ne_index hs)
  | index i =>
    cases t with
    | key name' => exact absurd h.symm (extendPath_key_ne_index ht)
    | index j => simpa using extendPath_index_inj h

theorem extendPath_ne_empty (hs : s.Legible) : extendPath path s ≠ "" := by
  intro h
  have hchars := congrArg String.toList h
  cases s with
  | index i => simp [toList_extendPath_index] at hchars
  | key name =>
    by_cases hpath : path = ""
    · rw [hpath, extendPath_empty] at h
      exact hs.1 h
    · simp [toList_extendPath_key hpath] at hchars

theorem render_concat : render (l ++ [s]) = extendPath l.render s := by
  simp [render, renderFrom]

/-- Places whose keys are plain have the same path only if they are the same. -/
theorem render_inj (hl : ∀ s ∈ l, s.Legible) (hm : ∀ s ∈ m, s.Legible)
    (h : l.render = m.render) : l = m := by
  induction l using List.reverseRecOn generalizing m with
  | nil =>
    cases m using List.reverseRecOn with
    | nil => rfl
    | append_singleton m t =>
      rw [render_concat] at h
      exact absurd h.symm (extendPath_ne_empty (hm t (by simp)))
  | append_singleton l s ih =>
    cases m using List.reverseRecOn with
    | nil =>
      rw [render_concat] at h
      exact absurd h (extendPath_ne_empty (hl s (by simp)))
    | append_singleton m t =>
      rw [render_concat, render_concat] at h
      obtain ⟨hpath, rfl⟩ := extendPath_inj (hl s (by simp)) (hm t (by simp)) h
      rw [ih (fun s hs => hl s (by simp [hs])) (fun s hs => hm s (by simp [hs])) hpath]

end Location

end SiteContent
