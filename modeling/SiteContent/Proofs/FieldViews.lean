import SiteContent.Proofs.Reading
import SiteContent.Proofs.Trimming
import SiteContent.View.Page

/-! Typed values beside the kinds that describe them. What is stated here is what a value, and a
field of a record, has to do for the JSON form of a page to be the stripped document. -/

namespace SiteContent

namespace Json

@[simp] theorem entryOfOption_some (key : String) (v : Json) :
    entryOfOption key id (some v) = [(key, v)] :=
  rfl

@[simp] theorem entryOfOption_map {α : Type} (key : String) (encode : α → Json) (o : Option α) :
    entryOfOption key id (o.map encode) = entryOfOption key encode o := by
  cases o <;> rfl

theorem trimmed?_some {lists : List Location} (h : [] ∉ lists) (v : Json) :
    trimmed? lists (some v) = some (v.dropEmpty lists) := by
  simp [trimmed?, isEmptyAt, h, Option.filter]

/-- Of an array that may be left out when it is empty, nothing else is left out. -/
theorem trimmed?_arr (vs : List Json) :
    trimmed? [[]] (some (.arr vs)) = if vs = [] then none else some (.arr vs) := by
  have hdrop : (Json.arr vs).dropEmpty [[]] = .arr vs := by
    refine congrArg Json.arr (List.ext_getElem? fun i => ?_)
    rw [getElem?_pruneElements]
    cases vs[i]? with
    | none => rfl
    | some v => exact congrArg some (prune_eq_self (fun _ _ => by simp [isEmptyAt]) v)
  by_cases hvs : vs = []
  · subst hvs
    rfl
  · simp [trimmed?, isEmptyAt, hvs, Option.filter, hdrop]

end Json

namespace View

open Walk
open Location (below)

/-- A field of a record of values: how it is read, and what is written for it if anything is. -/
structure FieldView where
  type : Type
  name : String
  record : Record type
  entry? : type → Option Json

variable {α γ : Type}

/-- Nothing is written for an empty list. -/
def listOrNone (encode : α → Json) (as : List α) : Option Json :=
  if as.isEmpty then none else some (.arr (as.map encode))

@[simp] theorem entryOfOption_listOrNone (key : String) (encode : α → Json) (as : List α) :
    Json.entryOfOption key id (listOrNone encode as) = entryOfList key encode as := by
  cases as <;> rfl

namespace FieldView

@[simp] def required (name : String) (d : Decoder α) (encode : α → Json) : FieldView :=
  ⟨α, name, .required name d, fun a => some (encode a)⟩

@[simp] def optional (name : String) (d : Decoder α) (encode : α → Json) : FieldView :=
  ⟨Option α, name, .optional name d, Option.map encode⟩

@[simp] def withDefault (name : String) (a : α) (d : Decoder α) (encode : α → Json) : FieldView :=
  ⟨α, name, .withDefault name a d, fun a => some (encode a)⟩

@[simp] def list (name : String) (d : Decoder α) (encode : α → Json) : FieldView :=
  ⟨List α, name, optionalList name d, listOrNone encode⟩

end FieldView

/-- One value for each field. -/
def Values : List FieldView → Type
  | [] => Unit
  | f :: fs => f.type × Values fs

/-- What makes a `γ` of one value for each field. -/
def Maker (γ : Type) : List FieldView → Type
  | [] => γ
  | f :: fs => f.type → Maker γ fs

@[simp] def make : (fs : List FieldView) → Maker γ fs → Values fs → γ
  | [], g, _ => g
  | _ :: fs, g, as => make fs (g as.1) as.2

/-- Reads the fields one after the other. -/
def chain : (fs : List FieldView) → Record (Maker γ fs) → Record γ
  | [], x => x
  | f :: fs, x => chain fs (x <*> f.record)

@[simp] def parts : (fs : List FieldView) → Values fs → List (String × Option Json)
  | [], _ => []
  | f :: fs, as => (f.name, f.entry? as.1) :: parts fs as.2

theorem map_fst_parts (fs : List FieldView) (as : Values fs) :
    (parts fs as).map (·.1) = fs.map (·.name) := by
  induction fs with
  | nil => rfl
  | cons f fs ih => exact congrArg (f.name :: ·) (ih as.2)

section Mirrors

variable {defs : Definitions} {policy : Policy} {lists : List Location} {v w : Json}
  {k : Kind Node} {es r : Dict Json} {f : Field Node} {d : Decoder α} {encode : α → Json} {a : α}

/-- A typed value is what a validated one is read as, and its JSON form is what is left of the
stripped one. -/
structure Typed (defs : Definitions) (policy : Policy) (lists : List Location) (v : Json)
    (k : Kind Node) (d : Decoder α) (encode : α → Json) (a : α) : Prop where
  decoded : d (value defs policy v k).result = .ok a
  encoded : (encode a).sorted = (value defs .strip v k).result.dropEmpty lists
  settled : Settled defs .reject (encode a).sorted k

/-- Whatever conforms to the kind has its typed value. -/
def Mirrors (defs : Definitions) (lists : List Location) (k : Kind Node) (d : Decoder α)
    (encode : α → Json) : Prop :=
  ∀ policy v, Conforms defs policy v k →
    (value defs policy v k).result ≠ .null ∧ ∃ a, Typed defs policy lists v k d encode a

/-- What a field finds in an object, and what the walk of the object leaves in its place. -/
structure Supplied (defs : Definitions) (policy : Policy) (es r : Dict Json) (f : Field Node) :
    Prop where
  conforms : ∀ v, es.get? f.name = some v → Conforms defs policy v f.node.kind
  omissible : es.get? f.name = none → f.node.Omissible
  entered : r.get? f.name = entered? defs policy es f

/-- What is written for a field is what is left of it after stripping. -/
structure Shown (defs : Definitions) (lists : List Location) (es : Dict Json) (f : Field Node)
    (o : Option Json) : Prop where
  left : o.map Json.sorted = Json.trimmed? (below f.name lists) (entered? defs .strip es f)
  settled : ∀ v, o = some v → Settled defs .reject v.sorted f.node.kind
  absent : o = none → f.node.required = false ∧ f.node.default = none

theorem Shown.present (hw : es.get? f.name = some w) (hlists : [] ∉ below f.name lists)
    (h : Typed defs policy (below f.name lists) w f.node.kind d encode a) :
    Shown defs lists es f (some (encode a)) where
  left := by rw [entered?, hw, Json.trimmed?_some hlists, Option.map_some, h.encoded]
  settled v hv := Option.some.inj hv ▸ h.settled
  absent := nofun

theorem Shown.missing (hw : es.get? f.name = none) (hrequired : f.node.required = false)
    (hdefault : f.node.default = none) : Shown defs lists es f none where
  left := by rw [entered?, hw, hdefault]; rfl
  settled := nofun
  absent _ := ⟨hrequired, hdefault⟩

/-- Of an optional list nothing is written when it is empty. -/
theorem Shown.list {as : List α}
    (hentered : entered? defs .strip es f = some (Json.arr (as.map encode)).sorted)
    (hsettled : Settled defs .reject (Json.arr (as.map encode)).sorted f.node.kind)
    (hlists : below f.name lists = [[]]) (hrequired : f.node.required = false)
    (hdefault : f.node.default = none) :
    Shown defs lists es f (listOrNone encode as) where
  left := by
    rw [hentered, hlists, Json.sorted_arr, Json.trimmed?_arr]
    cases as <;> simp [listOrNone, Json.sorted_arr]
  settled v hv := by
    cases as with
    | nil => cases hv
    | cons a as => exact Option.some.inj hv ▸ hsettled
  absent _ := ⟨hrequired, hdefault⟩

/-- A field of a record agrees with a field of a schema. -/
def FieldView.Mirrors (defs : Definitions) (lists : List Location) (f : Field Node)
    (g : FieldView) : Prop :=
  g.name = f.name ∧ ∀ policy es r, Supplied defs policy es r f →
    ∃ a, g.record.read r = .ok a ∧ Shown defs lists es f (g.entry? a)

/-- The fields of a schema agree with those of a record, one by one. -/
abbrev FieldsMirror (defs : Definitions) (lists : List Location) (fs : List (Field Node))
    (gs : List FieldView) : Prop :=
  List.Forall₂ (FieldView.Mirrors defs lists) fs gs

theorem Supplied.of_some (h : Supplied defs policy es r f) (hw : es.get? f.name = some w) :
    r.get? f.name = some (value defs policy w f.node.kind).result := by
  rw [h.entered, entered?, hw]

theorem Supplied.of_none (h : Supplied defs policy es r f) (hw : es.get? f.name = none) :
    r.get? f.name = f.node.default := by
  rw [h.entered, entered?, hw]

/-- Whether a field must be there or not, while nothing stands for it and it is not dropped. -/
def isPlain (required : Bool) (lists : List Location) (f : Field Node) : Bool :=
  f.node.required == required && f.node.default.isNone && !(below f.name lists).contains []

theorem isPlain_iff {required : Bool} : isPlain required lists f = true ↔
    f.node.required = required ∧ f.node.default = none ∧ [] ∉ below f.name lists := by
  simp [isPlain, and_assoc]

namespace FieldView.Mirrors

theorem required (hplain : isPlain true lists f = true)
    (h : View.Mirrors defs (below f.name lists) f.node.kind d encode) :
    FieldView.Mirrors defs lists f (.required f.name d encode) := by
  obtain ⟨hrequired, hdefault, hlists⟩ := isPlain_iff.mp hplain
  refine ⟨rfl, fun policy es r hs => ?_⟩
  cases hw : es.get? f.name with
  | none => simpa [Node.Omissible, hrequired, hdefault] using hs.omissible hw
  | some w =>
    obtain ⟨_, a, ha⟩ := h policy w (hs.conforms w hw)
    exact ⟨a, Record.read_required (hs.of_some hw) ha.decoded, .present hw hlists ha⟩

theorem optional (hplain : isPlain false lists f = true)
    (h : View.Mirrors defs (below f.name lists) f.node.kind d encode) :
    FieldView.Mirrors defs lists f (.optional f.name d encode) := by
  obtain ⟨hrequired, hdefault, hlists⟩ := isPlain_iff.mp hplain
  refine ⟨rfl, fun policy es r hs => ?_⟩
  cases hw : es.get? f.name with
  | none =>
    have hr := (hs.of_none hw).trans hdefault
    exact ⟨none, Record.read_optional_absent hr, .missing hw hrequired hdefault⟩
  | some w =>
    obtain ⟨hnull, a, ha⟩ := h policy w (hs.conforms w hw)
    exact ⟨some a, Record.read_optional (hs.of_some hw) hnull ha.decoded, .present hw hlists ha⟩

/-- A walk puts the default of the schema in, so that a record never needs its own. -/
theorem withDefault (h : View.Mirrors defs (below f.name lists) f.node.kind d encode) (b : α)
    (hdefault : (f.node.default, (below f.name lists).contains []) = (some w, false))
    (hscalar : w.isScalar = true) (hw : Conforms defs .strip w f.node.kind) :
    FieldView.Mirrors defs lists f (.withDefault f.name b d encode) := by
  obtain ⟨hdefault, hnot⟩ := Prod.mk.inj hdefault
  have hlists : [] ∉ below f.name lists := by simpa using hnot
  refine ⟨rfl, fun policy es r hs => ?_⟩
  cases hg : es.get? f.name with
  | none =>
    obtain ⟨_, a, ha⟩ := h .strip w hw
    have hencoded := ha.encoded
    have hdecoded := ha.decoded
    rw [result_of_isScalar hscalar] at hencoded hdecoded
    refine ⟨a, Record.read_withDefault ((hs.of_none hg).trans hdefault) hdecoded, ?_, ?_, nofun⟩
    · rw [entered?, hg, hdefault]
      exact (congrArg some hencoded).trans (Json.trimmed?_some hlists w).symm
    · exact fun v hv => Option.some.inj hv ▸ ha.settled
  | some v =>
    obtain ⟨_, a, ha⟩ := h policy v (hs.conforms v hg)
    exact ⟨a, Record.read_withDefault (hs.of_some hg) ha.decoded, .present hg hlists ha⟩

end FieldView.Mirrors

namespace Mirrors

theorem of_scalar (hscalar : v.isScalar = true) (hnull : v ≠ .null) (hv : d v = .ok a)
    (hencode : encode a = v) (hsettled : (value defs .reject v k).diagnostics = []) :
    (value defs policy v k).result ≠ .null ∧ ∃ a, Typed defs policy lists v k d encode a := by
  have hsorted : v.sorted = v := by
    cases v with
    | arr _ => simp [Json.isScalar] at hscalar
    | obj _ => simp [Json.isScalar] at hscalar
    | _ => rfl
  have hresult : ∀ q, (value defs q v k).result = v := fun q => result_of_isScalar hscalar
  refine ⟨(hresult policy).symm ▸ hnull, a, ?_, ?_, ?_⟩
  · rw [hresult, hv]
  · rw [hresult, hencode, hsorted, Json.dropEmpty_of_isScalar hscalar]
  · rw [hencode, hsorted]
    exact ⟨hsettled, hresult _⟩

theorem string {nonEmpty : Bool} :
    Mirrors defs lists (.string nonEmpty) Decoder.string Json.str := by
  intro policy v hv
  cases hv with
  | string hs => exact of_scalar rfl nofun rfl rfl (string_agrees.mpr (.string hs))

theorem boolean : Mirrors defs lists .boolean Decoder.bool Json.bool := by
  intro policy v hv
  cases hv with
  | boolean => exact of_scalar rfl nofun rfl rfl (by rw [value_of_target?_eq_none rfl]; rfl)

theorem exists_decode_vocabulary {β : Type} [Vocabulary β] {s : String}
    (hs : s ∈ Vocabulary.values β) :
    ∃ b : β, Decoder.vocabulary β (.str s) = .ok b ∧ Vocabulary.literal b = s := by
  obtain ⟨b, hb, rfl⟩ := List.mem_map.mp hs
  obtain ⟨e, he⟩ : ∃ e, ((Vocabulary.all : List β).map fun a => (Vocabulary.literal a, a)).find?
      (fun e => e.1 = Vocabulary.literal b) = some e :=
    Option.isSome_iff_exists.mp (List.find?_isSome.mpr
      ⟨(_, b), List.mem_map.mpr ⟨b, hb, rfl⟩, decide_eq_true rfl⟩)
  obtain ⟨c, _, rfl⟩ := List.mem_map.mp (List.mem_of_find?_eq_some he)
  have hc := List.find?_some he
  refine ⟨c, ?_, of_decide_eq_true hc⟩
  rw [Decoder.vocabulary, Decoder.choice, Decoder.literal, he]

theorem vocabulary {β : Type} [Vocabulary β] : Mirrors defs lists
    (.enumeration (Vocabulary.enumeration β)) (.vocabulary β) Vocabulary.encode := by
  intro policy v hv
  cases hv with
  | @enumeration s _ hs =>
    obtain ⟨b, hb, hliteral⟩ := exists_decode_vocabulary hs
    exact of_scalar rfl nofun hb (congrArg Json.str hliteral)
      (enumeration_agrees.mpr (.enumeration hs))

theorem exists_elements {items : Node} {vs : List Json} (h : Mirrors defs [] items.kind d encode)
    (hvs : ∀ v ∈ vs, Conforms defs policy v items.kind) :
    ∃ as, Decoder.each d (vs.map fun v => (value defs policy v items.kind).result) = .ok as ∧
      (as.map fun a => (encode a).sorted) =
        (vs.map fun v => (value defs .strip v items.kind).result) ∧
      ∀ a ∈ as, Settled defs .reject (encode a).sorted items.kind := by
  induction vs with
  | nil => exact ⟨[], rfl, rfl, by simp⟩
  | cons v vs ih =>
    obtain ⟨hv, hvs⟩ := List.forall_mem_cons.mp hvs
    obtain ⟨_, a, ha⟩ := h policy v hv
    obtain ⟨as, hread, hsorted, hsettled⟩ := ih hvs
    refine ⟨a :: as, ?_, ?_, List.forall_mem_cons.mpr ⟨ha.settled, hsettled⟩⟩
    · rw [List.map_cons, Decoder.each, ha.decoded, hread]
      rfl
    · rw [List.map_cons, List.map_cons, hsorted, ha.encoded, Json.dropEmpty_nil]

theorem array {items : Node} {nonEmpty : Bool} (h : Mirrors defs [] items.kind d encode) :
    Mirrors defs [] (.array items nonEmpty) (.list d) fun as => .arr (as.map encode) := by
  intro policy v hv
  cases hv with
  | @array vs _ _ hvs hne =>
    obtain ⟨as, hread, hsorted, hsettled⟩ := h.exists_elements hvs
    have hencoded : (Json.arr (as.map encode)).sorted =
        .arr (vs.map fun v => (value defs .strip v items.kind).result) := by
      rw [Json.sorted_arr, List.map_map, ← hsorted]
      rfl
    refine ⟨by simp [result_array], as, ?_, ?_, ?_⟩
    · rw [result_array]
      exact hread
    · rw [hencoded, result_array, Json.dropEmpty_nil]
    · rw [hencoded, Settled, diagnostics_array, result_array, ← hsorted, List.map_map]
      refine ⟨⟨List.forall_mem_map.mpr fun a ha => (hsettled a ha).1, fun hn => ?_⟩, ?_⟩
      · rw [hsorted]
        exact fun he => hne hn (List.map_eq_nil_iff.mp he)
      · exact congrArg Json.arr (List.map_congr_left fun a ha => (hsettled a ha).2)

end Mirrors

theorem FieldView.Mirrors.list {items : Node} {nonEmpty : Bool}
    (hlist : (f.node.kind, f.node.required, f.node.default, below f.name lists) =
      (.array items nonEmpty, false, none, [[]]))
    (h : View.Mirrors defs [] items.kind d encode) :
    FieldView.Mirrors defs lists f (.list f.name d encode) := by
  simp only [Prod.mk.injEq] at hlist
  obtain ⟨hkind, hrequired, hdefault, hlists⟩ := hlist
  refine ⟨rfl, fun policy es r hs => ?_⟩
  cases hw : es.get? f.name with
  | none =>
    have hr := (hs.of_none hw).trans hdefault
    exact ⟨[], Record.read_withDefault_absent hr, .missing hw hrequired hdefault⟩
  | some w =>
    obtain ⟨_, as, has⟩ := View.Mirrors.array h policy w (hkind ▸ hs.conforms w hw)
    refine ⟨as, Record.read_withDefault (hs.of_some hw) (hkind ▸ has.decoded), ?_⟩
    refine .list ?_ (hkind ▸ has.settled) hlists hrequired hdefault
    rw [entered?, hw, hkind, has.encoded, Json.dropEmpty_nil]

end Mirrors

end View

end SiteContent
