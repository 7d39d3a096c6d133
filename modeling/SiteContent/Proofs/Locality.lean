import SiteContent.Proofs.Faults
import SiteContent.Proofs.Reading

/-! What one place of a document has to do with what is found elsewhere: nothing, unless it holds
the tag of a union. -/

namespace SiteContent

/-- Two values that are the same but for what they hold at a location. -/
inductive Json.SameBut : Location → Json → Json → Prop
  | here {v w : Json} : SameBut [] v w
  | entry {es es' : Dict Json} {key : String} {v w : Json} {p : Location} :
      es.get? key = none → SameBut p v w →
      SameBut (.key key :: p) (.obj (es ++ (key, v) :: es')) (.obj (es ++ (key, w) :: es'))
  | element {vs vs' : List Json} {v w : Json} {p : Location} :
      SameBut p v w →
      SameBut (.index vs.length :: p) (.arr (vs ++ v :: vs')) (.arr (vs ++ w :: vs'))

/-- The diagnostics that are located neither at a location nor below it. -/
def elsewhere (p : Location) (ds : List Diagnostic) : List Diagnostic :=
  ds.filter fun d => ¬ p <+: d.location

section Elsewhere

variable {p : Location} {s : Step}

theorem elsewhere_nil (ds : List Diagnostic) : elsewhere [] ds = [] :=
  List.filter_eq_nil_iff.mpr fun d _ => by simp

theorem elsewhere_append (ds ds' : List Diagnostic) :
    elsewhere p (ds ++ ds') = elsewhere p ds ++ elsewhere p ds' :=
  List.filter_append ..

theorem elsewhere_flatMap {α : Type} (as : List α) (g : α → List Diagnostic) :
    elsewhere p (as.flatMap g) = as.flatMap fun a => elsewhere p (g a) :=
  List.filter_flatMap ..

theorem elsewhere_under (ds : List Diagnostic) :
    elsewhere (s :: p) (ds.map (·.under s)) = (elsewhere p ds).map (·.under s) := by
  simp only [elsewhere, List.filter_map]
  congr 2
  funext d
  simp [Diagnostic.under, List.cons_prefix_cons]

end Elsewhere

open Walk

/-- A location is not that of the tag of a union that a kind describes. -/
def NoTag (defs : Definitions) (v : Json) (k : Kind Node) (p : Location) : Prop :=
  ∀ q u w, Located defs v k q w (.oneOf u) → p ≠ q ++ [.key u.tag]

variable {defs : Definitions} {policy : Policy} {v w : Json} {k l : Kind Node} {s : Step}
  {p : Location} {es es' : Dict Json} {key : String}

theorem NoTag.inside (h : NoTag defs v k (s :: p)) (hi : Inside v k s w l) :
    NoTag defs w l p := by
  intro q u x hl he
  exact h (s :: q) u x (.step hi hl) (congrArg (s :: ·) he)

theorem NoTag.of_forwards (h : NoTag defs v k p)
    (hf : Relation.ReflTransGen defs.Forwards k l) : NoTag defs v l p :=
  fun q u x hl => h q u x (hl.of_forwards hf)

namespace Walk

theorem keys_entry (v w : Json) :
    Dict.keys (es ++ (key, v) :: es') = Dict.keys (es ++ (key, w) :: es') := by
  simp [Dict.keys]

theorem diagnostics_undeclared_congr (known : String → Bool) (h : es.keys = es'.keys) :
    (undeclared policy known es).diagnostics = (undeclared policy known es').diagnostics := by
  have hmap : ∀ d : Dict Json, (undeclared .reject known d).diagnostics =
      (d.keys.filter fun name => !known name).map fun name =>
        (⟨[.key name], .unknownField⟩ : Diagnostic) := by
    intro d
    simp only [undeclared, Dict.keys, List.filter_map, List.map_map]
    rfl
  cases policy with
  | reject => rw [hmap, hmap, h]
  | _ => rfl

section Entry

variable (hnone : es.get? key = none)
include hnone

theorem get?_entry (v : Json) (name : String) :
    Dict.get? (es ++ (key, v) :: es') name =
      if name = key then some v else Dict.get? (es ++ es') name := by
  rw [Dict.get?_append, Dict.get?_append, Dict.get?]
  by_cases h : name = key
  · simp [h, hnone]
  · simp [h, Ne.symm h]

theorem contains_entry (v w : Json) (name : String) :
    Dict.contains (es ++ (key, v) :: es') name = Dict.contains (es ++ (key, w) :: es') name := by
  simp only [Dict.contains, get?_entry hnone]
  split <;> rfl

theorem elsewhere_field {f : Field Node}
    (h : f.name = key → elsewhere p (value defs policy v f.node.kind).diagnostics =
      elsewhere p (value defs policy w f.node.kind).diagnostics) :
    elsewhere (.key key :: p)
        (field (Dict.mapValues (value defs policy) (es ++ (key, v) :: es')) f).diagnostics =
      elsewhere (.key key :: p)
        (field (Dict.mapValues (value defs policy) (es ++ (key, w) :: es')) f).diagnostics := by
  simp only [field, Dict.get?_mapValues, get?_entry hnone]
  by_cases hname : f.name = key
  · subst hname
    simp only [if_true, Option.map_some, Walked.map, Walked.under, elsewhere_under]
    exact congrArg _ (h rfl)
  · simp only [if_neg hname]

theorem elsewhere_fields {fs : List (Field Node)}
    (h : ∀ f ∈ fs, f.name = key → elsewhere p (value defs policy v f.node.kind).diagnostics =
      elsewhere p (value defs policy w f.node.kind).diagnostics) :
    elsewhere (.key key :: p) (fs.flatMap fun f =>
        (field (Dict.mapValues (value defs policy) (es ++ (key, v) :: es')) f).diagnostics) =
      elsewhere (.key key :: p) (fs.flatMap fun f =>
        (field (Dict.mapValues (value defs policy) (es ++ (key, w) :: es')) f).diagnostics) := by
  rw [elsewhere_flatMap, elsewhere_flatMap]
  exact List.flatMap_congr fun f hf => elsewhere_field hnone (h f hf)

theorem elsewhere_object {s : Schema}
    (h : ∀ f ∈ s.fields, f.name = key →
      elsewhere p (value defs policy v f.node.kind).diagnostics =
        elsewhere p (value defs policy w f.node.kind).diagnostics) :
    elsewhere (.key key :: p) (object policy s (es ++ (key, v) :: es')
        (Dict.mapValues (value defs policy) (es ++ (key, v) :: es'))).diagnostics =
      elsewhere (.key key :: p) (object policy s (es ++ (key, w) :: es')
        (Dict.mapValues (value defs policy) (es ++ (key, w) :: es'))).diagnostics := by
  simp only [object, diagnostics_assemble_append, diagnostics_assemble_map,
    diagnostics_assemble_singleton, elsewhere_append, elsewhere_fields hnone h,
    diagnostics_undeclared_congr s.contains (keys_entry v w)]

theorem elsewhere_payloads {u : TaggedUnion Node} {c : Variant Node}
    (h : c.payload.name = key →
      elsewhere p (value defs policy v c.payload.node.kind).diagnostics =
        elsewhere p (value defs policy w c.payload.node.kind).diagnostics) :
    elsewhere (.key key :: p) (assemble (payloads u
        (Dict.mapValues (value defs policy) (es ++ (key, v) :: es')) c)).diagnostics =
      elsewhere (.key key :: p) (assemble (payloads u
        (Dict.mapValues (value defs policy) (es ++ (key, w) :: es')) c)).diagnostics := by
  simp only [payloads, contains_mapValues, contains_entry hnone v w, diagnostics_assemble_cons,
    elsewhere_append, elsewhere_field hnone h]

section Tag

variable {u : TaggedUnion Node} (hsame : v.SameBut p w) (htag : u.tag = key → p ≠ [])
include hsame htag

/-- A change inside the value under the tag leaves it a container, which is no tag. -/
theorem tag_entry :
    tag u (es ++ (key, v) :: es') = tag u (es ++ (key, w) :: es') ∧
      tagOf? u (es ++ (key, v) :: es') = tagOf? u (es ++ (key, w) :: es') := by
  simp only [tag, tagOf?, get?_entry hnone]
  by_cases hname : u.tag = key
  · simp only [if_pos hname]
    cases hsame with
    | here => exact absurd rfl (htag hname)
    | entry _ _ => exact ⟨rfl, rfl⟩
    | element _ => exact ⟨rfl, rfl⟩
  · simp only [if_neg hname, and_self]

theorem elsewhere_union
    (h : ∀ f ∈ fieldsOn (es ++ (key, v) :: es') (.oneOf u), f.name = key →
      elsewhere p (value defs policy v f.node.kind).diagnostics =
        elsewhere p (value defs policy w f.node.kind).diagnostics) :
    elsewhere (.key key :: p) (union policy u (es ++ (key, v) :: es')
        (Dict.mapValues (value defs policy) (es ++ (key, v) :: es'))).diagnostics =
      elsewhere (.key key :: p) (union policy u (es ++ (key, w) :: es')
        (Dict.mapValues (value defs policy) (es ++ (key, w) :: es'))).diagnostics := by
  obtain ⟨hwalk, hselect⟩ : tag u (es ++ (key, v) :: es') = tag u (es ++ (key, w) :: es') ∧
      tagOf? u (es ++ (key, v) :: es') = tagOf? u (es ++ (key, w) :: es') :=
    tag_entry hnone hsame htag
  have hcommon : ∀ f ∈ u.common.fields, f.name = key →
      elsewhere p (value defs policy v f.node.kind).diagnostics =
        elsewhere p (value defs policy w f.node.kind).diagnostics :=
    fun f hf => h f (List.mem_append_left _ hf)
  simp only [union, ← hselect, ← hwalk, diagnostics_assemble_append, diagnostics_assemble_map,
    diagnostics_assemble_singleton, elsewhere_append, elsewhere_fields hnone hcommon,
    diagnostics_undeclared_congr u.knows (keys_entry v w)]
  rw [← selected?]
  cases hsel : selected? u (es ++ (key, v) :: es') with
  | none => rfl
  | some c =>
    have hc : c.payload ∈ fieldsOn (es ++ (key, v) :: es') (.oneOf u) := by simp [fieldsOn, hsel]
    simp only [Option.map_some, Option.getD_some, elsewhere_payloads hnone (h _ hc)]

end Tag

end Entry

theorem elsewhere_array {items : Node} {nonEmpty : Bool} {vs vs' : List Json}
    (h : elsewhere p (value defs policy v items.kind).diagnostics =
      elsewhere p (value defs policy w items.kind).diagnostics) :
    elsewhere (.index vs.length :: p)
        (array items nonEmpty ((vs ++ v :: vs').map (value defs policy))).diagnostics =
      elsewhere (.index vs.length :: p)
        (array items nonEmpty ((vs ++ w :: vs').map (value defs policy))).diagnostics := by
  have hinside : ∀ x, (array items nonEmpty ((vs ++ x :: vs').map (value defs policy))).diagnostics
      = (Walked.all (itemWalks defs policy items (vs ++ x :: vs'))).diagnostics := by
    intro x
    have hne : (vs ++ x :: vs').isEmpty = false := by simp
    simp only [array_eq, hne, Bool.and_false, Bool.false_eq_true, if_false, Walked.map]
  rw [hinside, hinside]
  simp only [Walked.all, itemWalks, List.zipIdx_append, List.zipIdx_cons,
    List.map_append, List.map_cons, List.flatMap_append, List.flatMap_cons, elsewhere_append,
    Nat.zero_add, Walked.under, elsewhere_under, h]

end Walk

/-- What is found away from a location does not hang on what is held there. -/
theorem elsewhere_diagnostics (h : v.SameBut p w) (hk : NoTag defs v k p) :
    elsewhere p (value defs policy v k).diagnostics =
      elsewhere p (value defs policy w k).diagnostics := by
  induction h generalizing k with
  | here => rw [elsewhere_nil, elsewhere_nil]
  | @entry es es' key v w p hnone hsame ih =>
    rw [value_eq, value_eq, resolved, resolved]
    cases hr : defs.resolve k with
    | gap g => rfl
    | kind k' =>
      have hk' := hk.of_forwards (Definitions.follow_eq_kind hr).1
      have hbelow : ∀ f ∈ fieldsOn (es ++ (key, v) :: es') k', f.name = key →
          elsewhere p (value defs policy v f.node.kind).diagnostics =
            elsewhere p (value defs policy w f.node.kind).diagnostics := by
        rintro f hf rfl
        have hv : Dict.get? (es ++ (f.name, v) :: es') f.name = some v := by
          rw [get?_entry hnone, if_pos rfl]
        exact ih (hk'.inside (.field hf hv))
      cases k' with
      | object s => exact elsewhere_object hnone hbelow
      | oneOf u =>
        refine elsewhere_union hnone hsame (fun htag hp => ?_) hbelow
        exact hk' [] u _ .here (by rw [hp, htag, List.nil_append])
      | _ => rfl
  | @element vs vs' v w p _ ih =>
    rw [value_eq, value_eq, resolved, resolved]
    cases hr : defs.resolve k with
    | gap g => rfl
    | kind k' =>
      have hk' := hk.of_forwards (Definitions.follow_eq_kind hr).1
      cases k' with
      | array items nonEmpty =>
        exact elsewhere_array (ih (hk'.inside (.item (by simp))))
      | _ => rfl

/-- Documents that differ in what they hold at one location, which is no union's tag, have the same
faults away from it, in the same order. -/
theorem Collection.elsewhere_findings (c : Collection) (policy : Policy) {raw raw' : Json}
    (h : raw.SameBut p raw')
    (htag : ∀ q u w, Located c.definitions raw (.object c.schema) q w (.oneOf u) →
      p ≠ q ++ [.key u.tag]) :
    elsewhere p (c.findings policy raw) = elsewhere p (c.findings policy raw') := by
  rw [findings_eq, findings_eq]
  exact elsewhere_diagnostics h htag

/-- A payload that is blank in one document and null in the other, beside a blank title. -/
theorem Collection.elsewhere_findings_payload : ∃ (c : Collection) (raw raw' : Json) (p : Location),
    raw.SameBut p raw' ∧
      (∀ q u w, Located c.definitions raw (.object c.schema) q w (.oneOf u) →
        p ≠ q ++ [.key u.tag]) ∧
      c.findings .reject raw ≠ c.findings .reject raw' ∧
      elsewhere p (c.findings .reject raw) = elsewhere p (c.findings .reject raw') ∧
      elsewhere p (c.findings .reject raw) = [⟨[.key "title"], .emptyField⟩] := by
  let union : TaggedUnion Node := ⟨"kind", ⟨"kind", ["text", "image"]⟩, .empty,
    [⟨"text", ⟨"body", .text⟩⟩, ⟨"image", ⟨"src", .text⟩⟩]⟩
  let card : Field Node := ⟨"card", .oneOf union⟩
  let title : Field Node := ⟨"title", .text⟩
  let c : Collection := ⟨⟨"", .page, default, ⟨[card, title]⟩, []⟩, rfl⟩
  let raw (body : Json) : Json :=
    .obj [("card", .obj [("body", body), ("kind", .str "text")]), ("title", .str "")]
  have hsame : (raw (.str "")).SameBut [.key "card", .key "body"] (raw .null) :=
    @Json.SameBut.entry [] _ _ _ _ _ rfl (@Json.SameBut.entry [] _ _ _ _ _ rfl .here)
  have hfields : ∀ es f, f ∈ fieldsOn es (.object c.schema) → f = card ∨ f = title := by
    simp [c, fieldsOn]
  have htag : ∀ q u w, Located c.definitions (raw (.str "")) (.object c.schema) q w (.oneOf u) →
      [Step.key "card", .key "body"] ≠ q ++ [.key u.tag] := by
    intro q u w hl he
    obtain ⟨hq, hu⟩ := List.append_inj' (show [Step.key "card"] ++ [.key "body"] = _ from he) rfl
    subst hq
    cases hl with
    | forward hf _ => cases hf
    | step hi hl =>
      generalize Step.key "card" = s at hi
      cases hi with
      | field hf _ =>
        rcases hfields _ _ hf with rfl | rfl
        · cases hl with
          | here => simp [union] at hu
          | forward hf _ => cases hf
        · cases hl with
          | forward hf _ => cases hf
  exact ⟨c, _, _, _, hsame, htag, by decide, elsewhere_findings c .reject hsame htag, by decide⟩

end SiteContent
