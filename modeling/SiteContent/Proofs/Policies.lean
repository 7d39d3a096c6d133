import Mathlib.Data.List.Basic
import SiteContent.Proofs.Conformance

/-! What is found in one value under each of the policies. It is the same, in the same order, but
for the complaints of rejection about undeclared keys. -/

namespace SiteContent

namespace Walk

/-- The diagnostics that do not hang on the policy. Only rejection complains of undeclared keys. -/
def lasting (policy : Policy) (ds : List Diagnostic) : List Diagnostic :=
  ds.filter fun d => policy ≠ .reject || d.cause ≠ .unknownField

section Diagnostics

variable {defs : Definitions} {policy p q : Policy} {v : Json} {k : Kind Node} {es : Dict Json}

theorem lasting_append (ds ds' : List Diagnostic) :
    lasting policy (ds ++ ds') = lasting policy ds ++ lasting policy ds' :=
  List.filter_append ..

theorem lasting_flatMap {α : Type} (as : List α) (g : α → List Diagnostic) :
    lasting policy (as.flatMap g) = as.flatMap fun a => lasting policy (g a) :=
  List.filter_flatMap ..

theorem lasting_under (s : Step) (ds : List Diagnostic) :
    lasting policy (ds.map (·.under s)) = (lasting policy ds).map (·.under s) :=
  List.filter_map ..

theorem lasting_eq_self {ds : List Diagnostic} (h : ∀ d ∈ ds, d.cause ≠ .unknownField) :
    lasting policy ds = ds :=
  List.filter_eq_self.mpr fun d hd => by simp [h d hd]

theorem lasting_of_ne_reject (hp : policy ≠ .reject) (ds : List Diagnostic) :
    lasting policy ds = ds :=
  List.filter_eq_self.mpr fun d _ => by simp [hp]

theorem lasting_report {α : Type} {a : α} {l : Location} {c : Cause} (h : c ≠ .unknownField) :
    lasting policy (Walked.report a l c).diagnostics = [⟨l, c⟩] :=
  lasting_eq_self (by simpa [Walked.report] using h)

theorem lasting_undeclared (known : String → Bool) :
    lasting policy (undeclared policy known es).diagnostics = [] := by
  cases policy with
  | reject =>
    refine List.filter_eq_nil_iff.mpr fun d hd => ?_
    obtain ⟨e, _, rfl⟩ := List.mem_map.mp hd
    simp
  | _ => rfl

theorem lasting_tag (u : TaggedUnion Node) :
    lasting policy (tag u es).diagnostics = (tag u es).diagnostics := by
  rw [tag]
  split
  · exact lasting_report (by simp)
  · split
    · rfl
    · exact lasting_report (by simp)
  · exact lasting_report (by simp [mismatch])

/-- Two walks of a value find the same, but for undeclared keys. -/
def Alike (defs : Definitions) (p q : Policy) (v : Json) (k : Kind Node) : Prop :=
  lasting p (value defs p v k).diagnostics = lasting q (value defs q v k).diagnostics

theorem lasting_field {f : Field Node}
    (h : ∀ w, es.get? f.name = some w → Alike defs p q w f.node.kind) :
    lasting p (field (es.mapValues (value defs p)) f).diagnostics =
      lasting q (field (es.mapValues (value defs q)) f).diagnostics := by
  rw [field, field, Dict.get?_mapValues, Dict.get?_mapValues]
  cases hg : es.get? f.name with
  | some w =>
    simp only [Option.map_some, Walked.map, Walked.under, lasting_under]
    exact congrArg _ (h w hg)
  | none =>
    cases f.node.default with
    | some d => rfl
    | none =>
      cases f.node.required with
      | true =>
        have hmissing : ∀ r, lasting r (Walked.report ([] : Written) [.key f.name]
            .missingField).diagnostics = [⟨[.key f.name], .missingField⟩] :=
          fun r => lasting_report (by simp)
        exact (hmissing p).trans (hmissing q).symm
      | false => rfl

theorem lasting_fields {fs : List (Field Node)}
    (h : ∀ f ∈ fs, ∀ w, es.get? f.name = some w → Alike defs p q w f.node.kind) :
    lasting p (fs.flatMap fun f => (field (es.mapValues (value defs p)) f).diagnostics) =
      lasting q (fs.flatMap fun f => (field (es.mapValues (value defs q)) f).diagnostics) := by
  rw [lasting_flatMap, lasting_flatMap]
  exact List.flatMap_congr fun f hf => lasting_field (h f hf)

theorem diagnostics_assemble_append (ws ws' : List (Walked Written)) :
    (assemble (ws ++ ws')).diagnostics = (assemble ws).diagnostics ++ (assemble ws').diagnostics :=
  List.flatMap_append ..

theorem diagnostics_assemble_map {α : Type} (as : List α) (g : α → Walked Written) :
    (assemble (as.map g)).diagnostics = as.flatMap fun a => (g a).diagnostics :=
  List.flatMap_map ..

theorem diagnostics_assemble_cons (w : Walked Written) (ws : List (Walked Written)) :
    (assemble (w :: ws)).diagnostics = w.diagnostics ++ (assemble ws).diagnostics :=
  List.flatMap_cons ..

theorem diagnostics_assemble_singleton (w : Walked Written) :
    (assemble [w]).diagnostics = w.diagnostics :=
  List.flatMap_singleton ..

theorem contains_mapValues {α β : Type} (f : α → β) (d : Dict α) (key : String) :
    (d.mapValues f).contains key = d.contains key := by
  rw [Dict.contains, Dict.contains, Dict.get?_mapValues, Option.isSome_map]

theorem lasting_payloads {u : TaggedUnion Node} {c : Variant Node}
    (h : ∀ w, es.get? c.payload.name = some w → Alike defs p q w c.payload.node.kind) :
    lasting p (assemble (payloads u (es.mapValues (value defs p)) c)).diagnostics =
      lasting q (assemble (payloads u (es.mapValues (value defs q)) c)).diagnostics := by
  have hothers : ∀ {r : Policy} {cs : List (Variant Node)}, lasting r (assemble (cs.map fun v =>
      .report [] [.key v.payload.name] (.forbiddenField u.tag c.tag))).diagnostics =
        cs.map fun v => ⟨[.key v.payload.name], .forbiddenField u.tag c.tag⟩ := by
    intro r cs
    rw [diagnostics_assemble_map, lasting_flatMap, List.map_eq_flatMap]
    exact List.flatMap_congr fun v _ => lasting_report (by simp)
  simp only [payloads, contains_mapValues, diagnostics_assemble_cons, lasting_append, hothers,
    lasting_field h]

theorem lasting_object {s : Schema}
    (h : ∀ f ∈ s.fields, ∀ w, es.get? f.name = some w → Alike defs p q w f.node.kind) :
    lasting p (object p s es (es.mapValues (value defs p))).diagnostics =
      lasting q (object q s es (es.mapValues (value defs q))).diagnostics := by
  simp only [object, diagnostics_assemble_append, diagnostics_assemble_map,
    diagnostics_assemble_singleton, lasting_append, lasting_undeclared, lasting_fields h]

theorem lasting_union {u : TaggedUnion Node} (h : ∀ f ∈ fieldsOn es (.oneOf u), ∀ w,
      es.get? f.name = some w → Alike defs p q w f.node.kind) :
    lasting p (union p u es (es.mapValues (value defs p))).diagnostics =
      lasting q (union q u es (es.mapValues (value defs q))).diagnostics := by
  have hcommon := lasting_fields fun f hf => h f (List.mem_append_left _ hf)
  simp only [union, diagnostics_assemble_append, diagnostics_assemble_map,
    diagnostics_assemble_singleton, lasting_append, lasting_undeclared, lasting_tag, hcommon]
  rw [← selected?]
  cases hsel : selected? u es with
  | none => rfl
  | some c =>
    have hc : c.payload ∈ fieldsOn es (.oneOf u) := by simp [fieldsOn, hsel]
    simp only [Option.map_some, Option.getD_some, lasting_payloads (h _ hc)]

theorem lasting_array {items : Node} {nonEmpty : Bool} {vs : List Json}
    (h : ∀ w ∈ vs, Alike defs p q w items.kind) :
    lasting p (array items nonEmpty (vs.map (value defs p))).diagnostics =
      lasting q (array items nonEmpty (vs.map (value defs q))).diagnostics := by
  have hitems : ∀ r, lasting r (Walked.all (itemWalks defs r items vs)).diagnostics =
      vs.zipIdx.flatMap fun e =>
        (lasting r (value defs r e.1 items.kind).diagnostics).map (·.under (.index e.2)) := by
    intro r
    simp only [Walked.all, itemWalks, List.flatMap_map, lasting_flatMap, Walked.under,
      lasting_under]
  have hall : lasting p (Walked.all (itemWalks defs p items vs)).diagnostics =
      lasting q (Walked.all (itemWalks defs q items vs)).diagnostics := by
    rw [hitems, hitems]
    refine List.flatMap_congr fun e he => ?_
    exact congrArg _ (h e.1 (List.fst_mem_of_mem_zipIdx he))
  rw [array_eq, array_eq]
  dsimp only
  split
  · have hcons : ∀ {r : Policy} {ds : List Diagnostic},
        lasting r (⟨[], .emptyField⟩ :: ds) = ⟨[], .emptyField⟩ :: lasting r ds :=
      List.filter_cons_of_pos (by simp)
    rw [hcons, hcons]
    exact congrArg _ hall
  · exact hall

theorem lasting_answer (h : ∀ w l, Descends v k w l → Alike defs p q w l) :
    lasting p (answer p v (v.elements.map (value defs p)) (v.entries.mapValues (value defs p))
        k).diagnostics =
      lasting q (answer q v (v.elements.map (value defs q)) (v.entries.mapValues (value defs q))
        k).diagnostics := by
  have hfields : ∀ {es : Dict Json}, v = .obj es → ∀ f ∈ fieldsOn es k, ∀ w,
      es.get? f.name = some w → Alike defs p q w f.node.kind := by
    rintro es rfl f hf w hw
    exact h w _ (.field hf hw)
  have hleaf : ∀ w : Walked Json, (∀ d ∈ w.diagnostics, d.cause ≠ .unknownField) →
      lasting p w.diagnostics = lasting q w.diagnostics :=
    fun w hw => (lasting_eq_self hw).trans (lasting_eq_self hw).symm
  have hmismatch : ∀ expected, lasting p (Walked.report v [] (mismatch v expected)).diagnostics =
      lasting q (Walked.report v [] (mismatch v expected)).diagnostics :=
    fun expected => hleaf _ (by simp [Walked.report, mismatch])
  cases v with
  | obj es =>
    cases k with
    | object s => exact lasting_object (hfields rfl)
    | oneOf u => exact lasting_union (hfields rfl)
    | any => rfl
    | _ => exact hmismatch _
  | arr vs =>
    cases k with
    | array items nonEmpty => exact lasting_array fun w hw => h w _ (.item hw)
    | any => rfl
    | _ => exact hmismatch _
  | str s =>
    cases k with
    | string nonEmpty =>
      simp only [answer]
      split
      · exact hleaf _ (by simp [Walked.report])
      · rfl
    | enumeration e =>
      simp only [answer]
      split
      · rfl
      · exact hleaf _ (by simp [Walked.report])
    | any => rfl
    | _ => exact hmismatch _
  | bool b =>
    cases k with
    | boolean | any => rfl
    | _ => exact hmismatch _
  | num n =>
    cases k with
    | number | any => rfl
    | _ => exact hmismatch _
  | null =>
    cases k with
    | any => rfl
    | _ => exact hmismatch _

theorem alike (defs : Definitions) (p q : Policy) (v : Json) (k : Kind Node) :
    Alike defs p q v k := by
  induction v using Json.parts_induction generalizing k with
  | h v ih =>
    rw [Alike, value_eq, value_eq, resolved, resolved]
    cases defs.resolve k with
    | gap g => rfl
    | kind l => exact lasting_answer fun w m hd => ih w hd.mem_parts m

end Diagnostics

end Walk

end SiteContent
