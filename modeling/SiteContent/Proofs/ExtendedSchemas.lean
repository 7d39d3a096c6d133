import SiteContent.Proofs.Reading
import SiteContent.Proofs.ReportOrder
import SiteContent.Schema.Composition

/-! Validating against a schema that was extended: what is found is what the base finds and then
what the extension finds, and what is made of a document is what both make of it together. -/

namespace SiteContent

namespace Dict

variable {α : Type} {as bs : List (String × α)} {key : String}

theorem get?_ofList_append : (ofList (as ++ bs)).get? key =
    ((ofList bs).get? key).or ((ofList as).get? key) := by
  rw [get?_ofList, get?_ofList, get?_ofList, List.reverse_append, get?_append]

/-- Entries under different keys do not get in each other's way. -/
theorem perm_ofList_append (h : List.Disjoint (keys as) (keys bs)) :
    (ofList (as ++ bs)).Perm (ofList as ++ ofList bs) := by
  have hkeys : List.Disjoint (ofList as).keys (ofList bs).keys :=
    fun key ha hb => h (mem_keys_ofList.mp ha) (mem_keys_ofList.mp hb)
  have hdisjoint : List.Disjoint (ofList as) (ofList bs) :=
    fun e ha hb => hkeys (List.mem_map.mpr ⟨e, ha, rfl⟩) (List.mem_map.mpr ⟨e, hb, rfl⟩)
  have hnodup : (ofList as ++ ofList bs).Nodup :=
    (sorted_ofList as).nodup.append (sorted_ofList bs).nodup hdisjoint
  refine (List.perm_ext_iff_of_nodup (sorted_ofList _).nodup hnodup).mpr ?_
  rintro ⟨key, v⟩
  rw [List.mem_append, (sorted_ofList _).mem_iff, (sorted_ofList _).mem_iff,
    (sorted_ofList _).mem_iff, get?_ofList_append]
  cases hb : (ofList bs).get? key with
  | none => simp
  | some w =>
    have hnone : (ofList as).get? key = none := by
      have hmem : key ∈ (ofList bs).keys := isSome_get?_iff.mp (by simp [hb])
      exact get?_eq_none_iff.mpr fun ha => hkeys ha hmem
    simp [hnone]

end Dict

theorem Shape.extend_eq_ok_iff {α : Type} {base extension merged : Shape α} :
    base.extend extension = .ok merged ↔ merged = ⟨base.fields ++ extension.fields⟩ ∧
      extension.names.Nodup ∧ List.Disjoint base.names extension.names := by
  have hfirst := Names.firstRepeat?_eq_none_iff base.names extension.names
  have hdisjoint : (∀ n ∈ extension.names, n ∉ base.names) ↔
      List.Disjoint base.names extension.names := List.disjoint_right.symm
  rw [hdisjoint] at hfirst
  rw [extend]
  cases hr : Names.firstRepeat? base.names extension.names with
  | none => simp [hfirst.mp hr, eq_comm]
  | some n =>
    have hnot : ¬ (extension.names.Nodup ∧ List.Disjoint base.names extension.names) := by
      intro h
      simp [hfirst.mpr h] at hr
    simp [hnot]

namespace Walk

variable {defs : Definitions} {policy : Policy} {es : Dict Json} {s : Schema}
  {fs gs : List (Field Node)} {v : Json} {k : Kind Node} {d : Diagnostic} {key : String}

theorem diagnostics_undeclared_of_ne_reject (hp : policy ≠ .reject) (known : String → Bool) :
    (undeclared policy known es).diagnostics = [] := by
  cases policy with
  | reject => exact absurd rfl hp
  | _ => rfl

theorem diagnostics_object_append (hp : policy ≠ .reject) :
    (value defs policy (.obj es) (.object ⟨fs ++ gs⟩)).diagnostics =
      (value defs policy (.obj es) (.object ⟨fs⟩)).diagnostics ++
        (value defs policy (.obj es) (.object ⟨gs⟩)).diagnostics := by
  simp only [value_of_target?_eq_none (k := .object _) rfl, answer, diagnostics_object_eq,
    diagnostics_undeclared_of_ne_reject hp, sections, List.map_append, List.flatMap_append,
    List.append_nil]

theorem result_strip : (value defs .strip (.obj es) (.object s)).result =
    .obj (Dict.ofList (writtenFields defs .strip es s.fields)) := by
  rw [value_of_target?_eq_none rfl]
  simp [answer, object, assemble, Walked.map, Walked.all, undeclared, Walked.accept,
    writtenFields, List.flatMap_def, Json.entries, Function.comp_def]

/-- Absent fields and undeclared keys are found below the object that they are about. -/
theorem location_ne_nil (hd : d ∈ (value defs policy v k).diagnostics)
    (hc : d.cause = .missingField ∨ d.cause = .unknownField) : d.location ≠ [] := by
  obtain ⟨q, r, w, l, hlocation, _, hfault⟩ := exists_fault_of_mem_diagnostics hd
  rw [hlocation]
  rcases hc with hc | hc <;> rw [hc] at hfault <;> cases hfault <;> simp

theorem unknownField_mem_iff :
    (⟨[.key key], .unknownField⟩ : Diagnostic) ∈
        (value defs .reject (.obj es) (.object s)).diagnostics ↔
      key ∈ es.keys ∧ key ∉ s.names := by
  constructor
  · intro hd
    rcases traced_of_mem_diagnostics rfl hd with hfault | ⟨_, _, _, e, _, he, heq⟩
    · cases hfault with
      | undeclared _ _ hkey hv => exact ⟨Dict.isSome_get?_iff.mp (Option.isSome_of_mem hv), hkey⟩
    · -- Nothing inside a part is found at the part itself.
      obtain ⟨hlocation, hcause⟩ := Diagnostic.mk.inj heq
      obtain ⟨_, hnil⟩ := List.cons.inj hlocation
      exact absurd hnil (location_ne_nil he (.inr hcause))
  · rintro ⟨hkey, hnot⟩
    obtain ⟨v, hv⟩ := Option.isSome_iff_exists.mp (Dict.isSome_get?_iff.mpr hkey)
    exact mem_diagnostics_of_undeclared rfl rfl hnot hv

end Walk

namespace Collection

open Walk

variable {base extension merged : Collection} {es : Dict Json}

theorem exists_validate_iff_findings {c : Collection} {policy : Policy} {raw : Json} :
    (∃ d, c.validate policy raw = .ok d) ↔ c.findings policy raw = [] := by
  simp only [validate_eq_ok_iff, exists_and_left, exists_eq, and_true, findings_eq]

theorem findings_extend {policy : Policy}
    (h : base.schema.extend extension.schema = .ok merged.schema)
    (hbase : base.definitions = merged.definitions)
    (hextension : extension.definitions = merged.definitions) (hp : policy ≠ .reject) :
    merged.findings policy (.obj es) =
      base.findings policy (.obj es) ++ extension.findings policy (.obj es) := by
  obtain ⟨hmerged, _⟩ := Shape.extend_eq_ok_iff.mp h
  simp only [findings_eq, walk, hbase, hextension, hmerged]
  exact diagnostics_object_append hp

theorem fields_of_validate_strip {c : Collection} {d : Document}
    (h : c.validate .strip (.obj es) = .ok d) :
    d.fields = Dict.ofList (writtenFields c.definitions .strip es c.schema.fields) := by
  obtain ⟨_, rfl⟩ := validate_eq_ok_iff.mp h
  simp only [walk, result_strip, Json.entries]

theorem validate_strip_extend {d d₁ d₂ : Document}
    (h : base.schema.extend extension.schema = .ok merged.schema)
    (hbase : base.definitions = merged.definitions)
    (hextension : extension.definitions = merged.definitions)
    (hd : merged.validate .strip (.obj es) = .ok d)
    (hd₁ : base.validate .strip (.obj es) = .ok d₁)
    (hd₂ : extension.validate .strip (.obj es) = .ok d₂) :
    List.Disjoint d₁.fields.keys d₂.fields.keys ∧ d.fields.Perm (d₁.fields ++ d₂.fields) := by
  obtain ⟨hmerged, _, hdisjoint⟩ := Shape.extend_eq_ok_iff.mp h
  have hwritten : List.Disjoint
      (Dict.keys (writtenFields base.definitions .strip es base.schema.fields))
      (Dict.keys (writtenFields extension.definitions .strip es extension.schema.fields)) :=
    fun key ha hb =>
      hdisjoint ((keys_writtenFields_sublist _).subset ha) ((keys_writtenFields_sublist _).subset hb)
  rw [fields_of_validate_strip hd, fields_of_validate_strip hd₁, fields_of_validate_strip hd₂]
  constructor
  · intro key ha hb
    exact hwritten (Dict.mem_keys_ofList.mp ha) (Dict.mem_keys_ofList.mp hb)
  · have happend : writtenFields merged.definitions .strip es merged.schema.fields =
        writtenFields base.definitions .strip es base.schema.fields ++
          writtenFields extension.definitions .strip es extension.schema.fields := by
      simp only [writtenFields, hbase, hextension, hmerged, List.flatMap_append]
    rw [happend]
    exact Dict.perm_ofList_append hwritten

/-- A schema that was extended accepts what both of its parts accept, and makes of it what both
make of it. -/
theorem validate_extend (h : base.schema.extend extension.schema = .ok merged.schema)
    (hbase : base.definitions = merged.definitions)
    (hextension : extension.definitions = merged.definitions) (es : Dict Json) :
    (∀ policy, policy ≠ .reject →
      merged.findings policy (.obj es) =
          base.findings policy (.obj es) ++ extension.findings policy (.obj es) ∧
        ((∃ d, merged.validate policy (.obj es) = .ok d) ↔
          (∃ d, base.validate policy (.obj es) = .ok d) ∧
            ∃ d, extension.validate policy (.obj es) = .ok d)) ∧
    (∀ d, merged.validate .strip (.obj es) = .ok d →
      ∃ d₁ d₂, base.validate .strip (.obj es) = .ok d₁ ∧
        extension.validate .strip (.obj es) = .ok d₂ ∧
        List.Disjoint d₁.fields.keys d₂.fields.keys ∧ d.fields.Perm (d₁.fields ++ d₂.fields)) ∧
    ∀ key, ⟨[.key key], .unknownField⟩ ∈ merged.findings .reject (.obj es) ↔
      ⟨[.key key], .unknownField⟩ ∈ base.findings .reject (.obj es) ∧
        ⟨[.key key], .unknownField⟩ ∈ extension.findings .reject (.obj es) := by
  have haccepts : ∀ policy, policy ≠ .reject →
      ((∃ d, merged.validate policy (.obj es) = .ok d) ↔
        (∃ d, base.validate policy (.obj es) = .ok d) ∧
          ∃ d, extension.validate policy (.obj es) = .ok d) := by
    intro policy hp
    simp only [exists_validate_iff_findings, findings_extend h hbase hextension hp,
      List.append_eq_nil_iff]
  refine ⟨fun policy hp => ⟨findings_extend h hbase hextension hp, haccepts policy hp⟩, ?_, ?_⟩
  · intro d hd
    obtain ⟨⟨d₁, hd₁⟩, d₂, hd₂⟩ := (haccepts .strip (by decide)).mp ⟨d, hd⟩
    exact ⟨d₁, d₂, hd₁, hd₂, validate_strip_extend h hbase hextension hd hd₁ hd₂⟩
  · intro key
    obtain ⟨hmerged, _⟩ := Shape.extend_eq_ok_iff.mp h
    have hnames : key ∈ merged.schema.names ↔
        key ∈ base.schema.names ∨ key ∈ extension.schema.names := by
      simp [hmerged, Shape.names]
    simp only [findings_eq, walk, unknownField_mem_iff, hnames]
    tauto

theorem validate_extend_page :
    ∃ (base extension merged : Collection) (es : Dict Json) (d : Document),
    base.schema.extend extension.schema = .ok merged.schema ∧
    merged.validate .strip (.obj es) = .ok d ∧
    d.fields = [("slug", .str "a"), ("title", .str "A")] ∧
    (∃ d₁ d₂, base.validate .strip (.obj es) = .ok d₁ ∧
      extension.validate .strip (.obj es) = .ok d₂ ∧
      List.Disjoint d₁.fields.keys d₂.fields.keys ∧ d.fields.Perm (d₁.fields ++ d₂.fields)) ∧
    ⟨[.key "extra"], .unknownField⟩ ∈ merged.findings .reject (.obj es) := by
  let title : Field Node := ⟨"title", .text⟩
  let slug : Field Node := ⟨"slug", Node.string.withDefault (.str "a")⟩
  let base : Collection := ⟨⟨"", .page, default, ⟨[title]⟩, []⟩, rfl⟩
  let extension : Collection := ⟨⟨"", .page, default, ⟨[slug]⟩, []⟩, rfl⟩
  let merged : Collection := ⟨⟨"", .page, default, ⟨[title, slug]⟩, []⟩, rfl⟩
  let es : Dict Json := [("extra", .null), ("title", .str "A")]
  have h : base.schema.extend extension.schema = .ok merged.schema := rfl
  obtain ⟨_, hstrip, hreject⟩ := validate_extend h rfl rfl es
  exact ⟨base, extension, merged, es, _, h, rfl, by decide, hstrip _ rfl,
    (hreject "extra").mpr ⟨by decide, by decide⟩⟩

end Collection

end SiteContent
