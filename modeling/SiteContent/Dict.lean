/-! Dictionaries keyed by strings, as association lists in increasing order of keys. -/

namespace SiteContent

abbrev Dict (α : Type) := List (String × α)

namespace Dict

variable {α β : Type}

def get? : Dict α → String → Option α
  | [], _ => none
  | (k, v) :: rest, key => if k = key then some v else get? rest key

/-- Puts `value` under `key` at its place, over any value held there. -/
def insert : Dict α → String → α → Dict α
  | [], key, value => [(key, value)]
  | (k, v) :: rest, key, value =>
    if key < k then (key, value) :: (k, v) :: rest
    else if key = k then (key, value) :: rest
    else (k, v) :: insert rest key value

/-- Later entries win. -/
def ofList (entries : List (String × α)) : Dict α :=
  entries.foldl (fun d e => d.insert e.1 e.2) []

def keys (d : Dict α) : List String :=
  d.map (·.1)

def contains (d : Dict α) (key : String) : Bool :=
  (d.get? key).isSome

def mapValues (f : α → β) (d : Dict α) : Dict β :=
  d.map fun e => (e.1, f e.2)

/-- Keys strictly increase. -/
def Sorted (d : Dict α) : Prop :=
  d.Pairwise fun a b => a.1 < b.1

theorem get?_insert_self (d : Dict α) (key : String) (value : α) :
    (d.insert key value).get? key = some value := by
  induction d with
  | nil => simp [insert, get?]
  | cons e rest ih =>
    rw [insert]
    split
    · simp [get?]
    · split
      · simp [get?]
      · rename_i h
        simp [get?, Ne.symm h, ih]

theorem get?_insert_of_ne (d : Dict α) {key other : String} (value : α) (h : key ≠ other) :
    (d.insert key value).get? other = d.get? other := by
  induction d with
  | nil => simp [insert, get?, h]
  | cons e rest ih =>
    rw [insert]
    split
    · simp [get?, h]
    · split
      · rename_i hk
        subst hk
        simp [get?, h]
      · simp [get?, ih]

theorem get?_mapValues (f : α → β) (d : Dict α) (key : String) :
    (d.mapValues f).get? key = (d.get? key).map f := by
  induction d with
  | nil => rfl
  | cons e rest ih =>
    simp only [mapValues, List.map_cons, get?] at ih ⊢
    split <;> simp_all

theorem mem_of_get?_eq_some {d : Dict α} {key : String} {value : α}
    (h : d.get? key = some value) : (key, value) ∈ d := by
  induction d with
  | nil => simp [get?] at h
  | cons e rest ih =>
    rw [get?] at h
    split at h
    · rename_i hk
      obtain rfl := Option.some.inj h
      subst hk
      exact List.mem_cons_self
    · exact List.mem_cons_of_mem _ (ih h)

theorem get?_eq_none_iff {d : Dict α} {key : String} : d.get? key = none ↔ key ∉ d.keys := by
  induction d with
  | nil => simp [get?, keys]
  | cons e rest ih =>
    rw [get?]
    split
    · rename_i hk
      simp [keys, hk]
    · rename_i hk
      simp only [ih, keys, List.map_cons, List.mem_cons, not_or]
      exact ⟨fun h => ⟨Ne.symm hk, h⟩, fun h => h.2⟩

theorem isSome_get?_iff {d : Dict α} {key : String} : (d.get? key).isSome ↔ key ∈ d.keys := by
  rw [Option.isSome_iff_ne_none, ne_eq, get?_eq_none_iff, Decidable.not_not]

theorem isSome_get?_of_mem {d : Dict α} {key : String} {value : α} (h : (key, value) ∈ d) :
    (d.get? key).isSome :=
  isSome_get?_iff.mpr (List.mem_map.mpr ⟨_, h, rfl⟩)

end Dict

end SiteContent
