import Mathlib.Data.List.Forall2
import SiteContent.Schema.Codec

/-! When reading a record succeeds, told key by key: what counts of an object is the value it has
under each key, not where the entry stands. -/

namespace SiteContent

namespace Dict

variable {α : Type}

@[simp] theorem get?_nil (key : String) : get? ([] : Dict α) key = none :=
  rfl

@[simp] theorem get?_cons_self (key : String) (v : α) (es : Dict α) :
    get? ((key, v) :: es) key = some v := by
  simp [get?]

theorem get?_cons_of_ne {key other : String} (h : key ≠ other) (v : α) (es : Dict α) :
    get? ((key, v) :: es) other = get? es other := by
  simp [get?, h]

theorem get?_append (es es' : Dict α) (key : String) :
    get? (es ++ es') key = (get? es key).or (get? es' key) := by
  induction es with
  | nil => rfl
  | cons e es ih =>
    rw [List.cons_append, get?, get?]
    split
    · rfl
    · exact ih

end Dict

namespace Json

theorem get?_entryIf (condition : Bool) (k : String) (v : Json) (key : String) :
    Dict.get? (entryIf condition k v) key = if condition ∧ k = key then some v else none := by
  cases condition <;> simp [entryIf, Dict.get?]

theorem get?_entryIf_of_ne {k key : String} (h : k ≠ key) (condition : Bool) (v : Json) :
    Dict.get? (entryIf condition k v) key = none := by
  simp [get?_entryIf, h]

theorem get?_entryOfOption {α : Type} (k : String) (encode : α → Json) (o : Option α)
    (key : String) : Dict.get? (entryOfOption k encode o) key =
      if k = key then o.map encode else none := by
  cases o <;> simp [entryOfOption, Dict.get?]

end Json

namespace Decoder

variable {α : Type} {d : Decoder α}

theorem each_map {β : Type} {encode : β → Json} {f : β → α} {bs : List β}
    (h : ∀ b ∈ bs, d (encode b) = .ok (f b)) : each d (bs.map encode) = .ok (bs.map f) := by
  induction bs with
  | nil => rfl
  | cons b bs ih =>
    obtain ⟨hb, hbs⟩ := List.forall_mem_cons.mp h
    rw [List.map_cons, each, hb, ih hbs]
    rfl

theorem dict_ofDict {β : Type} {encode : β → Json} {f : β → α} (bs : Dict β)
    (h : ∀ e ∈ bs, d (encode e.2) = .ok (f e.2)) :
    dict d (Json.ofDict encode bs) = .ok (bs.mapValues f) := by
  rw [Json.ofDict, dict]
  induction bs with
  | nil => rfl
  | cons b bs ih =>
    obtain ⟨hb, hbs⟩ := List.forall_mem_cons.mp h
    rw [Dict.mapValues, List.map_cons, eachEntry, hb, ← Dict.mapValues, ih hbs]
    rfl

theorem list_string (ss : List String) : list string (Json.ofStrings ss) = .ok ss := by
  have h : each string (ss.map Json.str) = .ok (ss.map id) := each_map fun s _ => rfl
  rwa [List.map_id] at h

end Decoder

namespace Record

variable {α β : Type} {es : Dict Json} {key name : String} {d : Decoder α} {v : Json} {a : α}

theorem map_find? (key : String) (es : Dict Json) :
    (find? key es).map (·.2) = Dict.get? es key := by
  induction es with
  | nil => rfl
  | cons e es ih =>
    rw [find?, Dict.get?]
    split
    · rfl
    · rw [← ih, Option.map_map]
      rfl

theorem exists_find? (h : Dict.get? es key = some v) : ∃ i, find? key es = some (i, v) := by
  rw [← map_find?, Option.map_eq_some_iff] at h
  obtain ⟨⟨i, _⟩, hi, rfl⟩ := h
  exact ⟨i, hi⟩

theorem find?_eq_none (h : Dict.get? es key = none) : find? key es = none := by
  rwa [← map_find?, Option.map_eq_none_iff] at h

theorem read_pure : (pure a : Record α).read es = .ok a :=
  rfl

theorem read_seq {f : Record (α → β)} {x : Record α} {g : α → β} (hf : f.read es = .ok g)
    (hx : x.read es = .ok a) : (f <*> x).read es = .ok (g a) := by
  change both (f.read es) (x.read es) = .ok (g a)
  rw [hf, hx, both]

theorem read_map {x : Record α} (g : α → β) (hx : x.read es = .ok a) :
    (g <$> x).read es = .ok (g a) :=
  read_seq (f := pure g) rfl hx

theorem read_required (h : Dict.get? es key = some v) (hd : d v = .ok a) :
    (required key d).read es = .ok a := by
  obtain ⟨i, hi⟩ := exists_find? h
  simp [required, hi, hd, place, Except.mapError]

theorem read_withDefault {value : α} (h : Dict.get? es key = some v) (hd : d v = .ok a) :
    (withDefault key value d).read es = .ok a := by
  obtain ⟨i, hi⟩ := exists_find? h
  simp [withDefault, hi, hd, place, Except.mapError]

theorem read_withDefault_absent {value : α} (h : Dict.get? es key = none) :
    (withDefault key value d).read es = .ok value := by
  simp [withDefault, find?_eq_none h]

/-- A default stands for a value that was left out as being equal to it. -/
theorem read_entryIf {b : α} {c : Bool}
    (h : Dict.get? es key = Dict.get? (Json.entryIf c key v) key)
    (hd : c = true → d v = .ok a) (hb : c = false → b = a) :
    (withDefault key b d).read es = .ok a := by
  cases c with
  | true => exact read_withDefault (h.trans (Dict.get?_cons_self _ _ _)) (hd rfl)
  | false => exact hb rfl ▸ read_withDefault_absent h

theorem read_unlessEmpty {d : Decoder (List α)} (bs : List β) {as : List α}
    (h : Dict.get? es key = Dict.get? (Json.entryIf (!bs.isEmpty) key v) key)
    (hd : d v = .ok as) (hnil : bs = [] → as = []) : (withDefault key [] d).read es = .ok as :=
  read_entryIf h (fun _ => hd) fun he => (hnil (by simpa using he)).symm

theorem read_optional (h : Dict.get? es key = some v) (hv : v ≠ .null) (hd : d v = .ok a) :
    (optional key d).read es = .ok (some a) := by
  refine read_withDefault h ?_
  cases v with
  | null => exact absurd rfl hv
  | _ => simp [hd, Except.map]

theorem read_optional_null (h : Dict.get? es key = some .null) :
    (optional key d).read es = .ok none :=
  read_withDefault h rfl

theorem read_optional_absent (h : Dict.get? es key = none) :
    (optional key d).read es = .ok none :=
  read_withDefault_absent h

theorem read_shared {read : List (String × Json) → Except DecodeError α} (h : read es = .ok a) :
    (shared read).read es = .ok a := by
  simp [shared, h, place, Except.mapError]

theorem run_eq_ok {r : Record α} (h : r.read es = .ok a) : r.run es = .ok a := by
  simp [run, h, Except.mapError]

theorem decode_obj {r : Record α} (h : r.read es = .ok a) : r.decode name (.obj es) = .ok a :=
  run_eq_ok h

theorem decodeObject_obj {r : Record α} (h : r.read es = .ok a) :
    r.decodeObject (.obj es) = .ok a :=
  run_eq_ok h

theorem tagged_eq_ok {tag : Decoder β} {fields : β → Record α} {b : β}
    (hv : Dict.get? es key = some v) (hb : tag v = .ok b) (h : (fields b).read es = .ok a) :
    tagged key tag fields es = .ok a := by
  obtain ⟨i, hi⟩ := exists_find? hv
  simp [tagged, hi, hb, run_eq_ok h, bind, Except.bind, Except.mapError]

end Record

end SiteContent
