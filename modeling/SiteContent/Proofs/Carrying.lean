import SiteContent.Proofs.Idempotence
import SiteContent.Proofs.Places
import SiteContent.Proofs.Termination

/-! Where the places of a rebuilt value come from. A place of the value that was walked stays where
it is and holds what the walk makes of it; all other places lie in defaults that were put in. -/

namespace SiteContent

namespace Walk

variable {defs : Definitions} {policy : Policy} {v w d : Json} {k l m : Kind Node} {s : Step}
  {p : Location} {es r : Dict Json} {f : Field Node}

theorem result_of_isScalar (h : v.isScalar = true) : (value defs policy v k).result = v := by
  rw [value_eq, resolved]
  cases defs.resolve k with
  | gap g => rfl
  | kind l =>
    refine result_answer_scalar ?_ ?_
    · rintro vs rfl
      simp [Json.isScalar] at h
    · rintro es rfl
      simp [Json.isScalar] at h

theorem result_any : (value defs policy v .any).result = v := by
  rw [value_of_target?_eq_none rfl]
  cases v <;> rfl

theorem isKeyed_of_mem_fieldsOn (hf : f ∈ fieldsOn es k) : k.isKeyed = true := by
  cases k with
  | object _ => rfl
  | oneOf _ => rfl
  | _ => simp [fieldsOn] at hf

theorem Rebuilt.inside_field (h : Rebuilt defs policy es k r) (hk : k.Record)
    (hs : Shaped policy es k) (hf : f ∈ fieldsOn es k) (hx : entered? defs policy es f = some w) :
    Inside (.obj r) k (.key f.name) w f.node.kind :=
  .field (h.fieldsOn_eq hk hs ▸ hf) (h.get?_name hk hf ▸ hx)

theorem Rebuilt.get?_undeclared {key : String} (h : Rebuilt defs policy es k r)
    (hp : policy ≠ .preserve) (hkey : key ∉ k.names) : r.get? key = none := by
  refine Option.eq_none_iff_forall_ne_some.mpr fun x hx => ?_
  rcases h.written key x hx with ⟨f, hf, rfl, _⟩ | hkept
  · exact hkey (name_mem_names hf)
  · cases hkept with
    | undeclared hpreserve _ _ => exact hp hpreserve
    | tag _ => exact hkey List.mem_cons_self

/-- A step into the value is a step into what the walk makes of it. -/
theorem Inside.result (hi : Inside v k s w l) (hk : k.isKeyed = true → k.Record)
    (hc : Conforms defs policy v k) :
    Inside (value defs policy v k).result k s (value defs policy w l).result l := by
  cases hi with
  | @field es k f _ hf hv =>
    have hrecord := hk (isKeyed_of_mem_fieldsOn hf)
    obtain ⟨r, hr, h⟩ := exists_rebuilt defs policy es hrecord
    rw [hr]
    exact h.inside_field hrecord (hc.shaped hrecord) hf (by rw [entered?, hv])
  | @tag es u v hv =>
    have hrecord := hk rfl
    obtain ⟨r, hr, h⟩ := exists_rebuilt defs policy es hrecord
    obtain ⟨t, ht, _⟩ := (hc.shaped hrecord).1 u rfl
    cases hrecord with
    | oneOf hu =>
      obtain rfl := Option.some.inj ((tagOf?_eq_some.mp ht).1.symm.trans hv)
      rw [hr, result_of_isScalar rfl]
      exact .tag (tagOf?_eq_some.mp (h.tagOf? hu ht)).1
  | item hv =>
    rw [result_array]
    exact .item (by rw [List.getElem?_map, hv, Option.map_some])
  | entry hv =>
    rw [result_any, result_any]
    exact .entry hv
  | element hv =>
    rw [result_any, result_any]
    exact .element hv

theorem Rebuilt.of_inside (h : Rebuilt defs policy es k r) (hk : k.Record)
    (hs : Shaped policy es k) (hi : Inside (.obj r) k s w l) :
    (∃ v, Inside (.obj es) k s v l ∧ w = (value defs policy v l).result) ∨
      Injects defs (.obj es) k w l := by
  cases hi with
  | @field _ _ f _ hf hw =>
    rw [h.fieldsOn_eq hk hs] at hf
    rw [h.get?_name hk hf, entered?] at hw
    cases hg : es.get? f.name with
    | none =>
      rw [hg] at hw
      exact .inr (.here hf hg hw)
    | some v =>
      rw [hg] at hw
      exact .inl ⟨v, .field hf hg, (Option.some.inj hw).symm⟩
  | @tag _ u _ hw =>
    obtain ⟨t, ht, _⟩ := hs.1 u rfl
    cases hk with
    | oneOf hu =>
      obtain rfl := Option.some.inj ((tagOf?_eq_some.mp (h.tagOf? hu ht)).1.symm.trans hw)
      exact .inl ⟨_, .tag (tagOf?_eq_some.mp ht).1, (result_of_isScalar rfl).symm⟩
  | entry _ => cases hk

theorem not_injects_of_no_node (hk : k = .any ∨ ∃ e, k = .enumeration e) :
    ¬ Injects defs v k d m := by
  have hfields : ∀ es, fieldsOn es k = [] := by
    rcases hk with rfl | ⟨e, rfl⟩ <;> exact fun _ => rfl
  intro h
  cases h with
  | here hf _ _ => simp [hfields] at hf
  | inside hdesc _ =>
    cases hdesc with
    | field hf _ => simp [hfields] at hf
    | item _ => simp at hk
  | forward hf _ =>
    cases hf with
    | intro _ => simp at hk

theorem Inside.injects (hi : Inside v k s w l) (h : Injects defs w l d m) :
    Injects defs v k d m := by
  cases hi with
  | field hf hv => exact .inside (.field hf hv) h
  | tag _ => exact absurd h (not_injects_of_no_node (.inr ⟨_, rfl⟩))
  | item hv => exact .inside (.item (List.mem_of_getElem? hv)) h
  | entry _ => exact absurd h (not_injects_of_no_node (.inl rfl))
  | element _ => exact absurd h (not_injects_of_no_node (.inl rfl))

/-- A step into what the walk makes of a value is a step into the value, or into a default. -/
theorem Inside.of_result (hi : Inside (value defs policy v k).result k s w l)
    (hk : k.isKeyed = true → k.Record) (hc : Conforms defs policy v k) :
    (∃ x, Inside v k s x l ∧ w = (value defs policy x l).result) ∨ Injects defs v k w l := by
  have hshape := hc
  cases hshape with
  | @object es _ =>
    obtain ⟨r, hr, h⟩ := exists_rebuilt defs policy es (hk rfl)
    exact h.of_inside (hk rfl) (hc.shaped (hk rfl)) (hr ▸ hi)
  | @oneOf es _ =>
    obtain ⟨r, hr, h⟩ := exists_rebuilt defs policy es (hk rfl)
    exact h.of_inside (hk rfl) (hc.shaped (hk rfl)) (hr ▸ hi)
  | array _ _ =>
    rw [result_array] at hi
    cases hi with
    | item hw =>
      rw [List.getElem?_map, Option.map_eq_some_iff] at hw
      obtain ⟨x, hx, rfl⟩ := hw
      exact .inl ⟨x, .item hx, rfl⟩
  | any =>
    rw [result_any] at hi
    cases hi with
    | field hf _ => simp [fieldsOn] at hf
    | entry hw => exact .inl ⟨w, .entry hw, result_any.symm⟩
    | element hw => exact .inl ⟨w, .element hw, result_any.symm⟩
  | reference _ _ =>
    generalize (value defs policy v _).result = x at hi
    cases hi with
    | field hf _ => simp [fieldsOn] at hf
  | _ =>
    rw [result_of_isScalar rfl] at hi
    cases hi

end Walk

open Walk

namespace SchemaGraph

variable {defs : Definitions} {root : Schema} {policy : Policy} {v w d : Json} {k l m : Kind Node}
  {p : Location}

theorem WellFormed.result_of_forwards (h : WellFormed defs root) (ho : Occurs defs root k)
    (hf : defs.Forwards k l) (v : Json) :
    (value defs policy v k).result = (value defs policy v l).result := by
  cases ho with
  | node hn => rw [h.value_of_forwards hn hf]
  | tag => cases hf
  | any => cases hf

/-- Where a place of a value was, there is what the walk makes of it. -/
theorem WellFormed.located_result (h : WellFormed defs root) (ho : Occurs defs root k)
    (hc : Conforms defs policy v k) (hl : Located defs v k p w l) :
    Located defs (value defs policy v k).result k p (value defs policy w l).result l := by
  induction hl with
  | here => exact .here
  | forward hf _ ih =>
    rw [h.result_of_forwards ho hf]
    exact .forward hf (ih (ho.forwards hf) ((conforms_iff_of_forwards (.single hf)).mp hc))
  | step hi _ ih =>
    exact .step (hi.result (h.record ho) hc) (ih (ho.inside hi) (hc.inside (h.record ho) hi))

/-- A default that is put in has a place in the result. -/
theorem WellFormed.exists_located_of_injects (h : WellFormed defs root) (ho : Occurs defs root k)
    (hc : Conforms defs policy v k) (hi : Injects defs v k d m) :
    ∃ p, Located defs (value defs policy v k).result k p d m := by
  induction hi with
  | @here es k f d hf hg hd =>
    have hrecord := h.record ho (isKeyed_of_mem_fieldsOn hf)
    obtain ⟨r, hr, hrebuilt⟩ := exists_rebuilt defs policy es hrecord
    rw [hr]
    exact ⟨_, .step (hrebuilt.inside_field hrecord (hc.shaped hrecord) hf
      (by rw [entered?, hg, hd])) .here⟩
  | inside hdesc _ ih =>
    obtain ⟨s, hi⟩ := hdesc.exists_inside
    obtain ⟨p, hp⟩ := ih (ho.inside hi) (hc.inside (h.record ho) hi)
    exact ⟨s :: p, .step (hi.result (h.record ho) hc) hp⟩
  | forward hf _ ih =>
    obtain ⟨p, hp⟩ := ih (ho.forwards hf) ((conforms_iff_of_forwards (.single hf)).mp hc)
    rw [h.result_of_forwards ho hf]
    exact ⟨p, .forward hf hp⟩

/-- Every place of the result is one of the value, or lies in a default that was put in. -/
theorem WellFormed.located_of_result (h : WellFormed defs root) (ho : Occurs defs root k)
    (hc : Conforms defs policy v k) (hl : Located defs (value defs policy v k).result k p w l) :
    (∃ x, Located defs v k p x l ∧ w = (value defs policy x l).result) ∨
      ∃ d m q, Injects defs v k d m ∧ Located defs d m q w l := by
  generalize hr : (value defs policy v k).result = r at hl
  induction hl generalizing v with
  | here => exact .inl ⟨v, .here, hr.symm⟩
  | forward hf _ ih =>
    have hc' := (conforms_iff_of_forwards (.single hf)).mp hc
    rcases ih (ho.forwards hf) hc' (h.result_of_forwards ho hf v ▸ hr) with
      ⟨x, hx, hw⟩ | ⟨d, m, q, hd, hq⟩
    · exact .inl ⟨x, .forward hf hx, hw⟩
    · exact .inr ⟨d, m, q, .forward hf hd, hq⟩
  | @step _ _ _ _ _ _ s p hi hl ih =>
    subst hr
    rcases hi.of_result (h.record ho) hc with ⟨y, hy, rfl⟩ | hd
    · rcases ih (ho.inside hy) (hc.inside (h.record ho) hy) rfl with
        ⟨x, hx, hw⟩ | ⟨d, m, q, hd, hq⟩
      · exact .inl ⟨x, .step hy hx, hw⟩
      · exact .inr ⟨d, m, q, hy.injects hd, hq⟩
    · exact .inr ⟨_, _, p, hd, hl⟩

end SchemaGraph

namespace Collection

variable {c : Collection} {policy : Policy} {raw : Json} {d : Document}

theorem conforms_of_validate (h : c.validate policy raw = .ok d) :
    Conforms c.definitions policy raw (.object c.schema) :=
  (c.wellFormed.agrees .root policy raw).mp (validate_eq_ok_iff.mp h).1

theorem value_of_validate (h : c.validate policy raw = .ok d) :
    d.value = (Walk.value c.definitions policy raw (.object c.schema)).result := by
  obtain ⟨hclean, rfl⟩ := validate_eq_ok_iff.mp h
  exact obj_entries_walk hclean

theorem occurs_root (c : Collection) :
    SchemaGraph.Occurs c.definitions c.schema (.object c.schema) :=
  .node .root

end Collection

end SiteContent
