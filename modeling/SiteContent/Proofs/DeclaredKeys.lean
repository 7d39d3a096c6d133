import SiteContent.Proofs.Carrying

/-! Under a policy that does not preserve undeclared keys the walk keeps none of them. A default is
put in with all its keys, whatever the policy. -/

namespace SiteContent

namespace Walk

/-- No object at a place that is described as an object or a union has an undeclared key. -/
def AllDeclared (defs : Definitions) (v : Json) (k : Kind Node) : Prop :=
  ∀ (p : Location) (es : Dict Json) (l : Kind Node), Located defs v k p (.obj es) l →
    l.isKeyed = true → ∀ key ∈ es.keys, key ∈ l.names

variable {defs : Definitions} {policy : Policy} {v w : Json} {k l m : Kind Node} {p q : Location}
  {es : Dict Json}

theorem Located.trans {x : Json} (h : Located defs v k p w l) (h' : Located defs w l q x m) :
    Located defs v k (p ++ q) x m := by
  induction h with
  | here => exact h'
  | forward hf _ ih => exact .forward hf (ih h')
  | step hi _ ih => exact .step hi (ih h')

theorem AllDeclared.located (h : AllDeclared defs v k) (hl : Located defs v k p w l) :
    AllDeclared defs w l :=
  fun _ _ _ hx => h _ _ _ (hl.trans hx)

theorem keys_declared (hp : policy ≠ .preserve) (hk : k.isKeyed = true → k.Record)
    (hc : Conforms defs policy v k) (hr : (value defs policy v k).result = .obj es)
    (hkeyed : k.isKeyed = true) : ∀ key ∈ es.keys, key ∈ k.names := by
  have hrecord : ∀ es', v = .obj es' → ∀ key ∈ es.keys, key ∈ k.names := by
    rintro es' rfl key hkey
    obtain ⟨r, hr', h⟩ := exists_rebuilt defs policy es' (hk hkeyed)
    obtain rfl := Json.obj.inj (hr.symm.trans hr')
    refine Classical.byContradiction fun hnot => ?_
    exact Dict.get?_eq_none_iff.mp (h.get?_undeclared hp hnot) hkey
  cases hc with
  | object _ _ _ => exact hrecord _ rfl
  | oneOf _ _ _ _ _ _ _ => exact hrecord _ rfl
  | _ => simp [Kind.isKeyed] at hkeyed

end Walk

namespace Collection

open Walk

variable {c : Collection} {policy : Policy} {raw : Json} {d : Document}

/-- Unless they are preserved, no undeclared key is in a validated document exactly when none is in
the defaults that the validation has put in. -/
theorem allDeclared_validate_iff (hp : policy ≠ .preserve) (h : c.validate policy raw = .ok d) :
    AllDeclared c.definitions d.value (.object c.schema) ↔ ∀ v k,
      Injects c.definitions raw (.object c.schema) v k → AllDeclared c.definitions v k := by
  have hwf := c.wellFormed
  have hconforms := conforms_of_validate h
  rw [value_of_validate h]
  constructor
  · intro hall v k hi
    obtain ⟨p, hp⟩ := hwf.exists_located_of_injects c.occurs_root hconforms hi
    exact hall.located hp
  · intro hall p es l hl hkeyed
    rcases hwf.located_of_result c.occurs_root hconforms hl with
      ⟨x, hx, hr⟩ | ⟨v, m, q, hv, hq⟩
    · have hx' := hwf.conforms_located c.occurs_root hconforms hx
      exact keys_declared hp (hwf.record (c.occurs_root.located hx)) hx' hr.symm hkeyed
    · exact hall v m hv q es l hq hkeyed

/-- A default has a key that its schema does not declare. -/
theorem exists_undeclared_key : ∃ (c : Collection) (raw : Json) (d : Document),
    c.validate .strip raw = .ok d ∧ c.validate .reject raw = .ok d ∧
      ¬ AllDeclared c.definitions d.value (.object c.schema) := by
  let inner := Node.object (.ofList [("x", Node.string.optional)])
  let schema := Shape.ofList [("a", inner.withDefault (.obj [("extra", .num (.int 1))]))]
  let c : Collection := ⟨⟨"", .page, default, schema, []⟩, rfl⟩
  refine ⟨c, .obj [], ⟨"", [("a", .obj [("extra", .num (.int 1))])]⟩, rfl, rfl, fun h => ?_⟩
  have hplace : Located c.definitions (.obj [("a", .obj [("extra", .num (.int 1))])])
      (.object c.schema) [.key "a"] (.obj [("extra", .num (.int 1))]) inner.kind :=
    .step (.field (f := ⟨"a", inner.withDefault (.obj [("extra", .num (.int 1))])⟩)
      List.mem_cons_self rfl) .here
  have hmem := h _ _ _ hplace rfl "extra" List.mem_cons_self
  exact absurd hmem (by decide)

theorem allDeclared_strip_object_default : ∃ (c : Collection) (raw : Json) (d : Document),
    Policy.strip ≠ .preserve ∧ c.validate .strip raw = .ok d ∧ raw.get? "extra" ≠ none ∧
      d.value.at? [.key "a", .key "x"] = some (.str "d") ∧
      AllDeclared c.definitions d.value (.object c.schema) := by
  let inner := Node.object (.ofList [("x", Node.string.optional)])
  let schema := Shape.ofList [("a", inner.withDefault (.obj [("x", .str "d")]))]
  let c : Collection := ⟨⟨"", .page, default, schema, []⟩, rfl⟩
  have hextra : (Json.obj [("extra", .null)]).get? "extra" = some .null := rfl
  have hraw : c.validate .strip (.obj [("extra", .null)]) =
      .ok ⟨"", [("a", .obj [("x", .str "d")])]⟩ := rfl
  have hdefault : AllDeclared c.definitions (.obj [("x", .str "d")]) inner.kind := by
    intro p es l hl
    cases hl with
    | here => exact fun _ => by decide
    | forward hf _ => cases hf
    | step hi hl =>
      cases hi with
      | field hf hv =>
        obtain rfl := List.mem_singleton.mp hf
        obtain rfl := Option.some.inj hv
        cases hl with
        | forward hf _ => cases hf
        | step hi _ => cases hi
  refine ⟨c, .obj [("extra", .null)], _, by decide, hraw, by simp [hextra], rfl, ?_⟩
  refine (allDeclared_validate_iff (by decide) hraw).mpr fun v k hi => ?_
  cases hi with
  | here hf _ hd =>
    obtain rfl := List.mem_singleton.mp hf
    obtain rfl := Option.some.inj hd
    exact hdefault
  | inside hdesc _ =>
    cases hdesc with
    | field hf hv =>
      obtain rfl := List.mem_singleton.mp hf
      cases hv
  | forward hf _ => cases hf

end Collection

end SiteContent
