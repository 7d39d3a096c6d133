/-! Lists of names, and the first name that one repeats. -/

namespace SiteContent.Names

/-- The first name that is among `seen` or equals an earlier one. -/
def firstRepeat? : List String → List String → Option String
  | _, [] => none
  | seen, n :: rest => if n ∈ seen then some n else firstRepeat? (n :: seen) rest

theorem firstRepeat?_eq_none_iff (seen names : List String) :
    firstRepeat? seen names = none ↔ names.Nodup ∧ ∀ n ∈ names, n ∉ seen := by
  induction names generalizing seen with
  | nil => simp [firstRepeat?]
  | cons n rest ih =>
    rw [firstRepeat?]
    split
    · simp_all
    · rename_i h
      rw [ih]
      simp only [List.nodup_cons, List.mem_cons, not_or]
      constructor
      · rintro ⟨hr, hn⟩
        refine ⟨⟨fun hm => (hn n hm).1 rfl, hr⟩, ?_⟩
        rintro m (rfl | hm)
        · exact h
        · exact (hn m hm).2
      · rintro ⟨⟨hn, hr⟩, hs⟩
        exact ⟨hr, fun m hm => ⟨fun e => hn (e ▸ hm), hs m (.inr hm)⟩⟩

/-- Among things of different names, the first of a name is the only one. -/
theorem find?_of_nodup {α : Type} {name : α → String} {as : List α} {a : α}
    (h : (as.map name).Nodup) (ha : a ∈ as) : as.find? (fun b => name b = name a) = some a := by
  induction as with
  | nil => simp at ha
  | cons b bs ih =>
    obtain ⟨hb, hbs⟩ := List.nodup_cons.mp h
    rcases List.mem_cons.mp ha with rfl | ha
    · simp
    · have hne : name b ≠ name a := fun he => hb (List.mem_map.mpr ⟨a, ha, he.symm⟩)
      simp [hne, ih hbs ha]

end SiteContent.Names
