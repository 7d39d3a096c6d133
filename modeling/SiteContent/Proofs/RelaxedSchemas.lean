import SiteContent.Proofs.DeclarationOrder
import SiteContent.Proofs.ExtendedSchemas

/-! Relaxing a schema: its own fields may be absent, and nothing else is different. The graph passes
the same checks, a walk rebuilds the same value, and of what it found only the absence of the
schema's own fields is no longer reported. -/

namespace SiteContent

/-- A diagnostic says that the object itself lacks a field of the schema. -/
def Shape.Lacks (s : Schema) (d : Diagnostic) : Prop :=
  ∃ name ∈ s.names, d = ⟨[.key name], .missingField⟩

instance (s : Schema) (d : Diagnostic) : Decidable (s.Lacks d) :=
  inferInstanceAs (Decidable (∃ name ∈ s.names, d = ⟨[.key name], .missingField⟩))

namespace Shape

variable {s : Schema}

theorem fields_relax :
    (relax s).fields = s.fields.map fun f => { f with node := f.node.optional } :=
  rfl

theorem names_relax : (relax s).names = s.names := by
  simp [relax, Shape.names]

theorem contains_relax : (relax s).contains = s.contains := by
  funext name
  rw [Bool.eq_iff_iff, contains_iff, contains_iff, names_relax]

end Shape

namespace Check

variable {defs : Definitions} {enter : Enter} {path : String} {trail : Trail} {depth : Nat}

/-- No check asks whether a value may be absent. -/
theorem node_optional (n : Node) :
    node defs enter path trail depth n.optional = node defs enter path trail depth n := by
  obtain ⟨k, required, default, hints⟩ := n
  rw [Node.optional, node, node]

theorem fields_relax (seen : List String) (fs : List (Field Node)) :
    fields defs enter path trail depth seen (fs.map fun f => { f with node := f.node.optional }) =
      fields defs enter path trail depth seen fs := by
  induction fs generalizing seen with
  | nil => rfl
  | cons f fs ih =>
    rw [List.map_cons, fields, fields, node_optional, ih]

theorem graph_relax (defs : Definitions) (s : Schema) :
    graph defs (Shape.relax s) = graph defs s := by
  rw [graph, graph, Shape.relax, fields_relax]

end Check

namespace Walk

variable {defs : Definitions} {policy : Policy} {es : Dict Json} {members : Dict Walker}
  {s : Schema} {f : Field Node} {d : Diagnostic}

theorem not_lacks_of_unknownField (h : d.cause = .unknownField) : ¬ s.Lacks d := by
  rintro ⟨name, _, rfl⟩
  cases h

/-- What is found in the value of a field is found below the key of the field. -/
theorem not_lacks_under {v : Json} {k : Kind Node} {name : String}
    (hd : d ∈ (value defs policy v k).diagnostics) : ¬ s.Lacks (d.under (.key name)) := by
  rintro ⟨_, _, heq⟩
  obtain ⟨hlocation, hcause⟩ := Diagnostic.mk.inj heq
  exact location_ne_nil hd (.inl hcause) (List.cons.inj hlocation).2

theorem result_field_relax : (field members { f with node := f.node.optional }).result =
    (field members f).result := by
  rw [field, field]
  cases members.get? f.name with
  | some walker => rfl
  | none =>
    have hdefault : f.node.optional.default = f.node.default := rfl
    rw [hdefault]
    cases f.node.default with
    | some v => rfl
    | none => cases hr : f.node.required <;> simp [Node.optional, Walked.accept, Walked.report]

theorem diagnostics_field_relax (hf : f ∈ s.fields) :
    (field (es.mapValues (value defs policy)) { f with node := f.node.optional }).diagnostics =
      (field (es.mapValues (value defs policy)) f).diagnostics.filter fun d => ¬ s.Lacks d := by
  rw [field, field, Dict.get?_mapValues]
  cases es.get? f.name with
  | some v =>
    refine (List.filter_eq_self.mpr fun d hd => ?_).symm
    obtain ⟨e, he, rfl⟩ := List.mem_map.mp hd
    exact decide_eq_true (not_lacks_under he)
  | none =>
    have hdefault : f.node.optional.default = f.node.default := rfl
    rw [hdefault]
    cases f.node.default with
    | some v => rfl
    | none =>
      have hlacks : s.Lacks ⟨[.key f.name], .missingField⟩ :=
        ⟨f.name, List.mem_map.mpr ⟨f, hf, rfl⟩, rfl⟩
      cases hr : f.node.required <;> simp [Node.optional, Walked.accept, Walked.report, hlacks]

theorem result_relax : (value defs policy (.obj es) (.object (Shape.relax s))).result =
    (value defs policy (.obj es) (.object s)).result := by
  have hfields : ∀ members : Dict Walker, ((Shape.relax s).fields.map (field members)).map
      (·.result) = (s.fields.map (field members)).map (·.result) := by
    intro members
    simp only [Shape.relax, List.map_map]
    exact List.map_congr_left fun f _ => result_field_relax
  simp only [value_of_target?_eq_none (k := .object _) rfl, answer, object, assemble, Walked.map,
    Walked.all, List.map_append, hfields, Shape.contains_relax]

theorem diagnostics_relax : (value defs policy (.obj es) (.object (Shape.relax s))).diagnostics =
    (value defs policy (.obj es) (.object s)).diagnostics.filter fun d => ¬ s.Lacks d := by
  have hundeclared : ((undeclared policy s.contains es).diagnostics.filter
      fun d => ¬ s.Lacks d) = (undeclared policy s.contains es).diagnostics := by
    refine List.filter_eq_self.mpr fun d hd => decide_eq_true ?_
    obtain ⟨_, _, _, _, _, rfl⟩ := mem_diagnostics_undeclared.mp hd
    exact not_lacks_of_unknownField rfl
  simp only [value_of_target?_eq_none (k := .object _) rfl, answer, diagnostics_object_eq, sections,
    List.filter_append, hundeclared, Shape.contains_relax, List.flatMap_map, List.filter_flatMap,
    fieldSection, Shape.fields_relax]
  refine congrArg (· ++ _) (List.flatMap_congr fun f hf => ?_)
  exact diagnostics_field_relax hf

end Walk

namespace Collection

variable {c c' : Collection} {policy : Policy} {es : Dict Json}

theorem findings_relax (hs : c'.schema = Shape.relax c.schema)
    (hdefs : c'.definitions = c.definitions) : c'.findings policy (.obj es) =
      (c.findings policy (.obj es)).filter fun d => ¬ c.schema.Lacks d := by
  rw [findings_eq, findings_eq, walk, walk, hs, hdefs, Walk.diagnostics_relax]

theorem result_walk_relax (hs : c'.schema = Shape.relax c.schema)
    (hdefs : c'.definitions = c.definitions) :
    (c'.walk policy (.obj es)).result = (c.walk policy (.obj es)).result := by
  rw [walk, walk, hs, hdefs, Walk.result_relax]

/-- An absent field of the schema gets its default. -/
theorem get?_default {doc : Document} (h : c.validate policy (.obj es) = .ok doc)
    {f : Field Node} (hf : f ∈ c.schema.fields) (habsent : es.get? f.name = none) {v : Json}
    (hv : f.node.default = some v) : doc.fields.get? f.name = some v := by
  have hk : (Kind.object c.schema).Record := .object (c.wellFormed.fields_distinct _ _ _ .root rfl)
  obtain ⟨r, hr, hrebuilt⟩ := Walk.exists_rebuilt c.definitions policy es hk
  obtain ⟨_, rfl⟩ := validate_eq_ok_iff.mp h
  have hget := hrebuilt.get?_name hk hf
  rw [Walk.entered?, habsent, hv] at hget
  rw [walk, hr]
  exact hget

end Collection

namespace Declaration

open Collection

/-- A relaxed schema builds as well. It no longer reports that its own fields are absent and reports
everything else; what was accepted is accepted with the same result, and defaults still stand in
for absent fields. -/
theorem build_relax {d : Declaration} {c : Collection} (h : d.build = .ok c) :
    ∃ c', { d with schema := Shape.relax d.schema }.build = .ok c' ∧
      ∀ policy (es : Dict Json),
      c'.findings policy (.obj es) =
        ((c.findings policy (.obj es)).filter fun x => ¬ d.schema.Lacks x) ∧
      (∀ doc, c.validate policy (.obj es) = .ok doc → c'.validate policy (.obj es) = .ok doc) ∧
      ∀ doc, c'.validate policy (.obj es) = .ok doc → ∀ f ∈ d.schema.fields,
        es.get? f.name = none → ∀ v, f.node.default = some v →
          doc.fields.get? f.name = some v := by
  obtain ⟨c', hc'⟩ : ∃ c', { d with schema := Shape.relax d.schema }.build = .ok c' := by
    rw [build_eq_ok_iff, Check.graph_relax]
    exact build_eq_ok_iff.mp ⟨c, h⟩
  have hd := toDeclaration_of_build h
  have hd' := toDeclaration_of_build hc'
  subst hd
  have hs : c'.schema = Shape.relax c.schema := by rw [hd']
  have hdefs : c'.definitions = c.definitions := by rw [hd']
  refine ⟨c', hc', fun policy es => ⟨findings_relax hs hdefs, fun doc hdoc => ?_, ?_⟩⟩
  · obtain ⟨hclean, rfl⟩ := validate_eq_ok_iff.mp hdoc
    have hname : c'.name = c.name := by rw [hd']
    refine validate_eq_ok_iff.mpr ⟨?_, by rw [hname, result_walk_relax hs hdefs]⟩
    rw [← findings_eq, findings_relax hs hdefs, findings_eq, hclean, List.filter_nil]
  · intro doc hdoc f hf habsent v hv
    have hf' : { f with node := f.node.optional } ∈ c'.schema.fields := by
      rw [hs]
      exact List.mem_map.mpr ⟨f, hf, rfl⟩
    exact get?_default hdoc hf' habsent hv

/-- The title is absent, and so is a name inside the author. -/
theorem build_relax_page : ∃ (d : Declaration) (c c' : Collection) (es : Dict Json)
    (doc : Document), d.build = .ok c ∧
      { d with schema := Shape.relax d.schema }.build = .ok c' ∧
      c.findings .reject (.obj es) = [⟨[.key "title"], .missingField⟩,
        ⟨[.key "author", .key "name"], .missingField⟩, ⟨[.key "extra"], .unknownField⟩] ∧
      c'.findings .reject (.obj es) = [⟨[.key "author", .key "name"], .missingField⟩,
        ⟨[.key "extra"], .unknownField⟩] ∧
      c'.validate .reject (.obj []) = .ok doc ∧ doc.fields.get? "draft" = some (.bool false) := by
  let author : Schema := .ofList [("name", Node.text)]
  let draft : Field Node := ⟨"draft", Node.boolean.withDefault (.bool false)⟩
  let schema : Schema := ⟨[⟨"title", .text⟩, ⟨"author", .object author⟩, draft]⟩
  let d : Declaration := ⟨"", .page, default, schema, []⟩
  let c : Collection := ⟨d, rfl⟩
  let es : Dict Json := [("author", .obj []), ("extra", .null)]
  have h : d.build = .ok c := rfl
  obtain ⟨c', hc', hall⟩ := build_relax h
  obtain ⟨hfindings, _, _⟩ := hall .reject es
  obtain ⟨_, _, hdefaults⟩ := hall .reject []
  have hfound : c.findings .reject (.obj es) = [⟨[.key "title"], .missingField⟩,
      ⟨[.key "author", .key "name"], .missingField⟩, ⟨[.key "extra"], .unknownField⟩] := rfl
  obtain rfl := Except.ok.inj hc'
  rw [hfound] at hfindings
  exact ⟨d, c, _, es, _, h, rfl, hfound, hfindings, rfl,
    hdefaults _ rfl draft (.tail _ (.tail _ (.head _))) rfl _ rfl⟩

end Declaration

end SiteContent
