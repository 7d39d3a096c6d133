import SiteContent.Proofs.Carrying

/-! What validation leaves alone. Whatever an author has written stays where it is, but for keys
that a schema does not declare; all that is added are defaults of absent fields. -/

namespace SiteContent

namespace Json

theorem Canonical.entry {es : Dict Json} {key : String} {v : Json} (h : CanonicalEntries es)
    (hv : es.get? key = some v) : v.Canonical := by
  induction es with
  | nil => simp [Dict.get?] at hv
  | cons e es ih =>
    rw [Dict.get?] at hv
    split at hv
    · obtain rfl := Option.some.inj hv
      exact h.1
    · exact ih h.2 hv

theorem Canonical.element {vs : List Json} {i : Nat} {v : Json} (h : CanonicalElements vs)
    (hv : vs[i]? = some v) : v.Canonical := by
  induction vs generalizing i with
  | nil => simp at hv
  | cons x vs ih =>
    cases i with
    | zero =>
      obtain rfl : x = v := by simpa using hv
      exact h.1
    | succ i => exact ih h.2 (by simpa using hv)

end Json

open Walk

variable {defs : Definitions} {policy : Policy} {v w : Json} {k l : Kind Node} {s : Step}
  {p : Location} {es r : Dict Json}

theorem Walk.Inside.canonical (hi : Inside v k s w l) (h : v.Canonical) : w.Canonical := by
  cases hi with
  | field _ hv => exact Json.Canonical.entry h.2 hv
  | tag hv => exact Json.Canonical.entry h.2 hv
  | item hv => exact Json.Canonical.element h hv
  | entry hv => exact Json.Canonical.entry h.2 hv
  | element hv => exact Json.Canonical.element h hv

theorem Walk.Located.canonical (hl : Located defs v k p w l) (h : v.Canonical) : w.Canonical := by
  induction hl with
  | here => exact h
  | forward _ _ ih => exact ih h
  | step hi _ ih => exact ih (hi.canonical h)

/-- How an object relates to the one that is made of it along a kind that declares its keys. -/
structure Completed (policy : Policy) (k : Kind Node) (es r : Dict Json) : Prop where
  added : ∀ key x, es.get? key = none → r.get? key = some x →
    ∃ f ∈ fieldsOn es k, f.name = key ∧ f.node.default = some x
  unset : ∀ f ∈ fieldsOn es k, es.get? f.name = none → f.node.default = none →
    r.get? f.name = none
  preserved : policy = .preserve → ∀ key, key ∉ k.names → r.get? key = es.get? key
  dropped : policy ≠ .preserve → ∀ key, key ∉ k.names → r.get? key = none

/-- How the value at a place relates to the one that is there after validation. The elements of an
array are places of their own, so that with its length it keeps their order. -/
structure Completes (policy : Policy) (k : Kind Node) (v r : Json) : Prop where
  scalar : v.isScalar = true → r = v
  free : k = .any → r = v
  array : ∀ vs, v = .arr vs → ∃ ws, r = .arr ws ∧ ws.length = vs.length
  object : ∀ es, v = .obj es → ∃ es', r = .obj es' ∧
    (k.isKeyed = true → Completed policy k es es')
  /-- No part is left out but those under undeclared keys. -/
  covered : k.target? = none → ∀ s x, v.child? s = some x → (∃ l, Inside v k s x l) ∨
    k.isKeyed = true ∧ ∃ key, s = .key key ∧ key ∉ k.names

theorem Walk.Rebuilt.completed (h : Rebuilt defs policy es k r) (hk : k.Record)
    (hes : es.Sorted) : Completed policy k es r := by
  have hadded : ∀ key x, es.get? key = none → r.get? key = some x →
      ∃ f ∈ fieldsOn es k, f.name = key ∧ f.node.default = some x := by
    intro key x hg hx
    rcases h.written key x hx with ⟨f, hf, rfl, he⟩ | hkept
    · rw [entered?, hg] at he
      exact ⟨f, hf, rfl, he⟩
    · rw [hes.get?_of_mem (mem_of_kept hkept)] at hg
      cases hg
  refine ⟨hadded, fun f hf hg hd => ?_, fun hp key hkey => ?_, fun hp key hkey => ?_⟩
  · rw [h.get?_name hk hf, entered?, hg, hd]
  · cases hg : es.get? key with
    | none =>
      refine Option.eq_none_iff_forall_ne_some.mpr fun x hx => ?_
      obtain ⟨f, hf, rfl, _⟩ := hadded key x hg hx
      exact hkey (name_mem_names hf)
    | some x =>
      refine h.found key x (.inr (.undeclared hp hkey (Dict.mem_of_get?_eq_some hg))) ?_
      rintro y (⟨f, hf, rfl, _⟩ | hkept)
      · exact absurd (name_mem_names hf) hkey
      · exact Option.some.inj ((hes.get?_of_mem (mem_of_kept hkept)).symm.trans hg)
  · exact h.get?_undeclared hp hkey

/-- A key of an object that conforms is undeclared, or the name of a field or of the tag. -/
theorem Conforms.inside_or_undeclared (h : Conforms defs policy (.obj es) k) (hk : k.Record)
    {key : String} {x : Json} (hx : es.get? key = some x) :
    (∃ l, Inside (.obj es) k (.key key) x l) ∨ key ∉ k.names := by
  refine or_iff_not_imp_right.mpr fun hkey => ?_
  rw [not_not] at hkey
  cases hk with
  | object _ =>
    obtain ⟨f, hf, rfl⟩ := List.mem_map.mp hkey
    exact ⟨_, .field hf hx⟩
  | @oneOf u hu =>
    cases h with
    | @oneOf _ _ c hc hmem htag _ _ hothers _ =>
      have hfields := fieldsOn_oneOf hu hc hmem htag
      rcases List.mem_cons.mp hkey with rfl | hkey
      · exact ⟨_, .tag hx⟩
      rcases List.mem_append.mp hkey with hkey | hkey
      · obtain ⟨f, hf, rfl⟩ := List.mem_map.mp hkey
        exact ⟨_, .field (hfields ▸ List.mem_append_left _ hf) hx⟩
      · obtain ⟨other, hother, rfl⟩ := List.mem_map.mp hkey
        by_cases hsame : other.tag = c.tag
        · obtain rfl := List.inj_on_of_nodup_map hu.tags_distinct hother hc hsame
          exact ⟨_, .field (hfields ▸ List.mem_append_right _ (List.mem_singleton_self _)) hx⟩
        · rw [hothers other hother hsame] at hx
          cases hx

theorem Json.child?_of_isScalar (h : v.isScalar = true) : v.child? s = none := by
  cases v with
  | arr _ => simp [Json.isScalar] at h
  | obj _ => simp [Json.isScalar] at h
  | _ => cases s <;> rfl

theorem completes_scalar (h : v.isScalar = true) :
    Completes policy k v (value defs policy v k).result where
  scalar _ := result_of_isScalar h
  free _ := result_of_isScalar h
  array vs hv := by
    subst hv
    simp [Json.isScalar] at h
  object es hv := by
    subst hv
    simp [Json.isScalar] at h
  covered _ s x hx := by
    rw [Json.child?_of_isScalar h] at hx
    cases hx

theorem completes_any : Completes policy .any v (value defs policy v .any).result where
  scalar _ := result_any
  free _ := result_any
  array vs hv := ⟨vs, hv ▸ result_any, rfl⟩
  object es hv := ⟨es, hv ▸ result_any, nofun⟩
  covered _ s x hx := by
    refine .inl ⟨.any, ?_⟩
    cases v with
    | obj es =>
      cases s with
      | key name => exact .entry hx
      | index i => cases hx
    | arr vs =>
      cases s with
      | key name => cases hx
      | index i => exact .element hx
    | _ => cases s <;> cases hx

theorem completes_array {vs : List Json} {items : Node} {nonEmpty : Bool} :
    Completes policy (.array items nonEmpty) (.arr vs)
      (value defs policy (.arr vs) (.array items nonEmpty)).result where
  scalar := nofun
  free := nofun
  array ws hv := by
    obtain rfl := Json.arr.inj hv
    exact ⟨_, result_array, List.length_map _⟩
  object := nofun
  covered _ s x hx := by
    cases s with
    | key name => cases hx
    | index i => exact .inl ⟨_, .item hx⟩

theorem completes_record (hk : k.Record) (hkeyed : k.isKeyed = true)
    (hc : Conforms defs policy (.obj es) k) (hes : es.Sorted) :
    Completes policy k (.obj es) (value defs policy (.obj es) k).result where
  scalar := nofun
  free he := by simp [he, Kind.isKeyed] at hkeyed
  array := nofun
  object es' he := by
    obtain rfl := Json.obj.inj he
    obtain ⟨r, hr, h⟩ := exists_rebuilt defs policy es hk
    exact ⟨r, hr, fun _ => h.completed hk hes⟩
  covered _ s x hx := by
    cases s with
    | key name => exact (hc.inside_or_undeclared hk hx).imp_right fun h => ⟨hkeyed, name, rfl, h⟩
    | index i => cases hx

namespace SchemaGraph

/-- What a walk makes of a value that conforms differs from the value by defaults and undeclared
keys alone. -/
theorem WellFormed.completes {root : Schema} (h : WellFormed defs root)
    (ho : Occurs defs root k) (hc : Conforms defs policy v k) (hv : v.Canonical) :
    Completes policy k v (value defs policy v k).result := by
  have hself := hc
  induction hc with
  | object _ _ _ => exact completes_record (h.record ho rfl) rfl hself hv.1
  | oneOf _ _ _ _ _ _ _ => exact completes_record (h.record ho rfl) rfl hself hv.1
  | array _ _ => exact completes_array
  | any => exact completes_any
  | @reference v t n hn hc ih =>
    have hf : defs.Forwards (.reference t) n.kind := .intro hn
    have hi := ih (ho.forwards hf) hv hc
    rw [h.result_of_forwards ho hf]
    refine ⟨hi.scalar, nofun, hi.array, fun es he => ?_, nofun⟩
    obtain ⟨r, hr, _⟩ := hi.object es he
    exact ⟨r, hr, nofun⟩
  | _ => exact completes_scalar rfl

end SchemaGraph

namespace Collection

variable {c : Collection} {raw : Json} {d : Document}

/-- Whatever a document holds at a location that passes no undeclared key, the validated document
holds there as well, completed by defaults. -/
theorem validate_completes (hraw : raw.Canonical) (h : c.validate policy raw = .ok d)
    (hl : Located c.definitions raw (.object c.schema) p w k) :
    ∃ r, d.value.at? p = some r ∧ Completes policy k w r := by
  have hconforms := conforms_of_validate h
  have hw := c.wellFormed.conforms_located c.occurs_root hconforms hl
  refine ⟨(value c.definitions policy w k).result, ?_, ?_⟩
  · rw [value_of_validate h]
    exact (c.wellFormed.located_result c.occurs_root hconforms hl).at?
  · exact c.wellFormed.completes (c.occurs_root.located hl) hw (hl.canonical hraw)

/-- A string with blanks around it inside a list, beside a key that is stripped and a field that
takes its default. -/
theorem validate_completes_stripped : ∃ (c : Collection) (raw : Json) (d : Document),
    raw.Canonical ∧ c.validate .strip raw = .ok d ∧ d.value ≠ raw ∧
      Located c.definitions raw (.object c.schema) [.key "tags", .index 0]
        (.str " x ") (.string true) ∧
      ∃ r, d.value.at? [.key "tags", .index 0] = some r ∧
        Completes .strip (.string true) (.str " x ") r := by
  let tags : Field Node := ⟨"tags", .array .text⟩
  let size : Field Node := ⟨"size", Node.string.withDefault (.str "small")⟩
  let c : Collection := ⟨⟨"", .page, default, ⟨[tags, size]⟩, []⟩, rfl⟩
  let raw := Json.obj [("extra", .null), ("tags", .arr [.str " x "])]
  have hsorted : raw.entries.Sorted :=
    List.pairwise_pair.mpr (by decide : "extra" < "tags")
  have hraw : raw.Canonical := ⟨hsorted, trivial, ⟨trivial, trivial⟩, trivial⟩
  have hd : c.validate .strip raw =
      .ok ⟨"", [("size", .str "small"), ("tags", .arr [.str " x "])]⟩ := by
    decide +kernel
  have htags : Inside raw (.object c.schema) (.key "tags") (.arr [.str " x "])
      (.array .text false) := .field (f := tags) List.mem_cons_self rfl
  have hplace : Located c.definitions raw (.object c.schema) [.key "tags", .index 0]
      (.str " x ") (.string true) := .step htags (.step (.item rfl) .here)
  exact ⟨c, raw, _, hraw, hd, by decide, hplace, validate_completes hraw hd hplace⟩

end Collection

end SiteContent
