import SiteContent.Proofs.Reading
import SiteContent.Proofs.SchemaGraph

/-! Reading a schema back from its JSON form. All of it comes back but a default that is null, which
reads as no default. -/

namespace SiteContent

namespace Json

theorem depth_le_depthElements {v : Json} {vs : List Json} (h : v ∈ vs) :
    v.depth ≤ depthElements vs := by
  induction vs with
  | nil => simp at h
  | cons w vs ih =>
    rcases List.mem_cons.mp h with rfl | h
    · exact Nat.le_max_left _ _
    · exact Nat.le_trans (ih h) (Nat.le_max_right _ _)

theorem depth_le_depthEntries {v : Json} {es : Dict Json} (h : v ∈ es.map (·.2)) :
    v.depth ≤ depthEntries es := by
  induction es with
  | nil => simp at h
  | cons e es ih =>
    rcases List.mem_cons.mp h with rfl | h
    · exact Nat.le_max_left _ _
    · exact Nat.le_trans (ih h) (Nat.le_max_right _ _)

theorem depth_lt_of_mem_parts {v w : Json} (h : w ∈ v.parts) : w.depth < v.depth := by
  cases v with
  | arr vs =>
    have hw : w ∈ vs := by simpa [parts, elements, entries] using h
    exact Nat.lt_succ_of_le (depth_le_depthElements hw)
  | obj es =>
    have hw : w ∈ es.map (·.2) := by simpa [parts, elements, entries] using h
    exact Nat.lt_succ_of_le (depth_le_depthEntries hw)
  | _ => simp [parts, elements, entries] at h

end Json

namespace Node

mutual

/-- The node without defaults that are null. -/
def dropNulls : Node → Node
  | ⟨k, required, default, hints⟩ =>
    ⟨dropNullsKind k, required, default.filter fun v => v ≠ .null, hints⟩

def dropNullsKind : Kind Node → Kind Node
  | .object ⟨fs⟩ => .object ⟨dropNullsFields fs⟩
  | .array items nonEmpty => .array (dropNulls items) nonEmpty
  | .oneOf ⟨tag, tags, ⟨common⟩, vs⟩ =>
    .oneOf ⟨tag, tags, ⟨dropNullsFields common⟩, dropNullsVariants vs⟩
  | k => k

def dropNullsFields : List (Field Node) → List (Field Node)
  | [] => []
  | ⟨name, n⟩ :: fs => ⟨name, dropNulls n⟩ :: dropNullsFields fs

def dropNullsVariants : List (Variant Node) → List (Variant Node)
  | [] => []
  | ⟨tag, ⟨name, n⟩⟩ :: vs => ⟨tag, ⟨name, dropNulls n⟩⟩ :: dropNullsVariants vs

end

end Node

def Field.dropNulls (f : Field Node) : Field Node :=
  ⟨f.name, f.node.dropNulls⟩

def Variant.dropNulls (c : Variant Node) : Variant Node :=
  ⟨c.tag, c.payload.dropNulls⟩

def Shape.dropNulls (s : Schema) : Schema :=
  ⟨s.fields.map Field.dropNulls⟩

def TaggedUnion.dropNulls (u : TaggedUnion Node) : TaggedUnion Node :=
  ⟨u.tag, u.tags, u.common.dropNulls, u.variants.map Variant.dropNulls⟩

def Variant.encode (c : Variant Node) : Json :=
  .obj [("tag", .str c.tag), ("payload", c.payload.encode)]

namespace Node

theorem dropNullsFields_eq_map (fs : List (Field Node)) :
    dropNullsFields fs = fs.map Field.dropNulls := by
  induction fs with
  | nil => rfl
  | cons f fs ih => rw [dropNullsFields, ih]; rfl

theorem dropNullsVariants_eq_map (vs : List (Variant Node)) :
    dropNullsVariants vs = vs.map Variant.dropNulls := by
  induction vs with
  | nil => rfl
  | cons c vs ih => rw [dropNullsVariants, ih]; rfl

theorem dropNullsKind_object (s : Schema) : dropNullsKind (.object s) = .object s.dropNulls := by
  rw [Shape.dropNulls, ← dropNullsFields_eq_map]
  rfl

theorem dropNullsKind_oneOf (u : TaggedUnion Node) :
    dropNullsKind (.oneOf u) = .oneOf u.dropNulls := by
  rw [TaggedUnion.dropNulls, Shape.dropNulls, ← dropNullsFields_eq_map, ← dropNullsVariants_eq_map]
  rfl

theorem encodeFields_eq_map (fs : List (Field Node)) : encodeFields fs = fs.map Field.encode := by
  induction fs with
  | nil => rfl
  | cons f fs ih => rw [encodeFields, ih]; rfl

theorem encodeVariants_eq_map (vs : List (Variant Node)) :
    encodeVariants vs = vs.map Variant.encode := by
  induction vs with
  | nil => rfl
  | cons c vs ih => rw [encodeVariants, ih]; rfl

theorem kindEntries_object (s : Schema) :
    kindEntries (.object s) =
      [("type", .str "object"), ("fields", .arr (s.fields.map Field.encode))] := by
  rw [← encodeFields_eq_map]
  rfl

theorem kindEntries_oneOf (u : TaggedUnion Node) : kindEntries (.oneOf u) =
    [("type", .str "one_of"), ("tag", .str u.tag), ("tags", u.tags.encode),
      ("common", u.common.encode), ("variants", .arr (u.variants.map Variant.encode))] := by
  rw [← encodeVariants_eq_map]
  rfl

theorem get?_entries (n : Node) {key : String} (hkey : key ∉ ["required", "default", "hints"]) :
    Dict.get? n.entries key = Dict.get? (kindEntries n.kind) key := by
  obtain ⟨k, r, d, h⟩ := n
  simp only [List.mem_cons, List.not_mem_nil, or_false, not_or, ← ne_eq] at hkey
  obtain ⟨hr, hd, hh⟩ := hkey
  simp [entries, Dict.get?_append, Json.get?_entryIf, Json.get?_entryOfOption, Dict.get?, hr.symm,
    hd.symm, hh.symm]

theorem get?_kindEntries (k : Kind Node) {key : String}
    (hkey : key ∈ ["required", "default", "hints"]) : Dict.get? (kindEntries k) key = none := by
  have hall : ∀ key ∈ ["required", "default", "hints"], Dict.get? (kindEntries k) key = none := by
    cases k with
    | object s => simp [kindEntries_object, Dict.get?]
    | oneOf u => simp [kindEntries_oneOf, Dict.get?]
    | enumeration e => simp [kindEntries, Enumeration.entries, Dict.get?]
    | _ => simp [kindEntries, Json.get?_entryIf, Dict.get?]
  exact hall key hkey

end Node

namespace Enumeration

theorem read_record {e : Enumeration} {es : Dict Json}
    (hname : es.get? "enum" = some (.str e.name))
    (hmembers : es.get? "members" = some (Json.ofStrings e.members)) :
    record.read es = .ok e :=
  Record.read_seq (Record.read_map Enumeration.mk (Record.read_required hname rfl))
    (Record.read_required hmembers (Decoder.list_string _))

theorem decode_encode (e : Enumeration) : decode e.encode = .ok e :=
  Record.decode_obj (read_record rfl rfl)

end Enumeration

namespace Hints

theorem decode_encode (h : Hints) : decode h.encode = .ok h := by
  have hentries :
      Decoder.dict .string (Json.ofDict .str h.entries) = .ok (h.entries.mapValues id) :=
    Decoder.dict_ofDict h.entries fun e _ => rfl
  have hid : h.entries.mapValues id = h.entries := List.map_id _
  rw [decode, encode, hentries, hid]
  rfl

theorem eq_empty_of_isEmpty {h : Hints} (he : h.isEmpty = true) : h = .empty := by
  obtain ⟨entries⟩ := h
  simpa [isEmpty, empty] using he

end Hints

namespace Node

open Record

/-- A record of nodes gives a node back, except for null defaults, wherever the node's entries lie
under the keys that they have. -/
def ReadsBack (node : Record Node) (n : Node) : Prop :=
  ∀ es : Dict Json, (∀ key, key ≠ "name" → es.get? key = Dict.get? n.entries key) →
    node.read es = .ok n.dropNulls

section Parts

variable {node : Record Node}

theorem ReadsBack.decodeObject {n : Node} (h : ReadsBack node n) :
    node.decodeObject n.encode = .ok n.dropNulls :=
  decodeObject_obj (h _ fun _ _ => rfl)

theorem ReadsBack.field {f : Field Node} (h : ReadsBack node f.node) :
    (fieldRecord node).decodeObject f.encode = .ok f.dropNulls := by
  have hnode := h (("name", .str f.name) :: f.node.entries) fun key hkey =>
    Dict.get?_cons_of_ne hkey.symm _ _
  exact decodeObject_obj
    (read_seq (read_map Field.mk (read_required rfl rfl)) (read_shared (run_eq_ok hnode)))

theorem list_fields {fs : List (Field Node)} (h : ∀ f ∈ fs, ReadsBack node f.node) :
    Decoder.list (fieldRecord node).decodeObject (.arr (fs.map Field.encode)) =
      .ok (fs.map Field.dropNulls) :=
  Decoder.each_map fun f hf => (h f hf).field

theorem decodeShape_encode {s : Schema} (h : ∀ f ∈ s.fields, ReadsBack node f.node) :
    decodeShape node s.encode = .ok s.dropNulls := by
  rw [Shape.encode, encodeFields_eq_map]
  exact decode_obj (read_map Shape.mk (read_required rfl (list_fields h)))

theorem ReadsBack.variant {c : Variant Node} (h : ReadsBack node c.payload.node) :
    decodeVariant node c.encode = .ok c.dropNulls :=
  decode_obj (read_seq (read_map Variant.mk (read_required rfl rfl)) (read_required rfl h.field))

theorem list_variants {vs : List (Variant Node)} (h : ∀ c ∈ vs, ReadsBack node c.payload.node) :
    Decoder.list (decodeVariant node) (.arr (vs.map Variant.encode)) =
      .ok (vs.map Variant.dropNulls) :=
  Decoder.each_map fun c hc => (h c hc).variant

theorem read_nonEmpty {es : Dict Json} {nonEmpty : Bool} (h : es.get? "non_empty" =
      Dict.get? (Json.entryIf nonEmpty "non_empty" (.bool true)) "non_empty") :
    (Record.withDefault "non_empty" false .bool).read es = .ok nonEmpty :=
  read_entryIf h (fun hn => by rw [hn]; rfl) fun hn => hn.symm

/-- The part of a node's entries that tells its kind gives the kind back. -/
theorem tagged_kindEntries {k : Kind Node} (h : ∀ e m, (e, m) ∈ k.parts → ReadsBack node m)
    {es : Dict Json} (hes : ∀ key ∉ ["name", "required", "default", "hints"],
      es.get? key = Dict.get? (kindEntries k) key) :
    tagged "type" (.sharedTag kindTags) (kindRecord node) es = .ok (dropNullsKind k) := by
  cases k with
  | string nonEmpty =>
    have hnonEmpty := read_nonEmpty (hes "non_empty" (by decide))
    exact tagged_eq_ok (hes "type" (by decide)) rfl (read_map Kind.string hnonEmpty)
  | boolean => exact tagged_eq_ok (hes "type" (by decide)) rfl read_pure
  | number => exact tagged_eq_ok (hes "type" (by decide)) rfl read_pure
  | enumeration e =>
    have he := Enumeration.read_record (e := e) (hes "enum" (by decide)) (hes "members" (by decide))
    exact tagged_eq_ok (hes "type" (by decide)) rfl (read_map Kind.enumeration he)
  | object s =>
    simp only [kindEntries_object] at hes
    have hfields := list_fields fun f hf => h (.field f.name) f.node (List.mem_map.mpr ⟨f, hf, rfl⟩)
    rw [dropNullsKind_object]
    exact tagged_eq_ok (hes "type" (by decide)) rfl
      (read_map Kind.object (read_map Shape.mk (read_required (hes "fields" (by decide)) hfields)))
  | array items nonEmpty =>
    have hitems := (h .items items List.mem_cons_self).decodeObject
    have hnonEmpty := read_nonEmpty (hes "non_empty" (by decide))
    exact tagged_eq_ok (hes "type" (by decide)) rfl (read_seq
      (read_map Kind.array (read_required (hes "items" (by decide)) hitems)) hnonEmpty)
  | oneOf u =>
    simp only [kindEntries_oneOf] at hes
    have hcommon := decodeShape_encode fun f hf => h (.field f.name) f.node
      (List.mem_append_left _ (List.mem_map.mpr ⟨f, hf, rfl⟩))
    have hvariants := list_variants fun c hc => h (.field c.payload.name) c.payload.node
      (List.mem_append_right _ (List.mem_map.mpr ⟨c, hc, rfl⟩))
    have htag := read_map (TaggedUnion.mk (α := Node))
      (read_required (d := .string) (hes "tag" (by decide)) rfl)
    have htags := read_seq htag
      (read_required (hes "tags" (by decide)) (Enumeration.decode_encode u.tags))
    have hunion := read_seq (read_seq htags (read_required (hes "common" (by decide)) hcommon))
      (read_required (hes "variants" (by decide)) hvariants)
    rw [dropNullsKind_oneOf]
    exact tagged_eq_ok (hes "type" (by decide)) rfl (read_map Kind.oneOf hunion)
  | any => exact tagged_eq_ok (hes "type" (by decide)) rfl read_pure
  | reference t =>
    exact tagged_eq_ok (hes "type" (by decide)) rfl
      (read_map Kind.reference (read_required (hes "target" (by decide)) rfl))

theorem read_default {es : Dict Json} {d : Option Json} (h : es.get? "default" = d) :
    (Record.optional "default" .json).read es = .ok (d.filter fun v => v ≠ .null) := by
  cases d with
  | none => exact read_optional_absent h
  | some v =>
    by_cases hv : v = .null
    · subst hv
      exact read_optional_null h
    · simpa [Option.filter, hv] using read_optional (d := .json) h hv rfl

/-- So does the whole record, when one of less fuel gives back the parts. -/
theorem readsBack_succ {n : Node} {fuel : Nat}
    (h : ∀ e m, (e, m) ∈ n.kind.parts → ReadsBack (recordWithin fuel) m) :
    ReadsBack (recordWithin (fuel + 1)) n := by
  intro es hes
  obtain ⟨k, r, d, hints⟩ := n
  have hkind := tagged_kindEntries h fun key hkey => by
    simp only [List.mem_cons, List.not_mem_nil, or_false, not_or] at hkey
    exact (hes key hkey.1).trans (get?_entries _ (by simpa using hkey.2))
  have hrequired : es.get? "required" = some (.bool r) := by
    rw [hes _ (by decide)]
    simp [entries, Dict.get?_append, get?_kindEntries, Dict.get?]
  have hdefault : es.get? "default" = d := by
    rw [hes _ (by decide)]
    simp [entries, Dict.get?_append, get?_kindEntries, Json.get?_entryIf, Json.get?_entryOfOption,
      Dict.get?]
  have hhints : es.get? "hints" =
      Dict.get? (Json.entryIf (!hints.isEmpty) "hints" hints.encode) "hints" := by
    rw [hes _ (by decide)]
    simp [entries, Dict.get?_append, get?_kindEntries, Json.get?_entryOfOption, Dict.get?]
  have hread := read_entryIf (b := .empty) hhints (fun _ => hints.decode_encode) fun he =>
    (Hints.eq_empty_of_isEmpty (by simpa using he)).symm
  exact read_seq (read_seq (read_seq (read_map _ (read_shared hkind))
    (read_required hrequired rfl)) (read_default hdefault)) hread

end Parts

theorem depth_encode_field (f : Field Node) : f.encode.depth = f.node.encode.depth := by
  simp [Field.encode, encode, Json.depth, Json.depthEntries]

theorem depth_lt_of_mem_shape {s : Schema} {f : Field Node} (h : f ∈ s.fields) :
    f.node.encode.depth < s.encode.depth := by
  have hfields : Dict.get? s.encode.entries "fields" = some (.arr (s.fields.map Field.encode)) := by
    rw [Shape.encode, encodeFields_eq_map]
    rfl
  rw [← depth_encode_field]
  exact Nat.lt_trans
    (Json.depth_lt_of_mem_parts (Json.mem_parts_of_mem (List.mem_map.mpr ⟨f, h, rfl⟩)))
    (Json.depth_lt_of_mem_parts (Json.mem_parts_of_get? hfields))

theorem depth_lt_of_mem_variant (c : Variant Node) :
    c.payload.node.encode.depth < c.encode.depth := by
  have hpayload : Dict.get? c.encode.entries "payload" = some c.payload.encode := rfl
  rw [← depth_encode_field]
  exact Json.depth_lt_of_mem_parts (Json.mem_parts_of_get? hpayload)

theorem depth_lt_of_entry {n : Node} {key : String} {v : Json}
    (h : Dict.get? (kindEntries n.kind) key = some v) : v.depth < n.encode.depth := by
  have hv : Dict.get? n.entries key = some v := by
    obtain ⟨k, r, d, hints⟩ := n
    simp only [entries, List.append_assoc, Dict.get?_append, h, Option.some_or]
  exact Json.depth_lt_of_mem_parts (Json.mem_parts_of_get? hv)

theorem depth_lt_of_element {n : Node} {key : String} {vs : List Json} {v : Json}
    (h : Dict.get? (kindEntries n.kind) key = some (.arr vs)) (hv : v ∈ vs) :
    v.depth < n.encode.depth :=
  Nat.lt_trans (Json.depth_lt_of_mem_parts (Json.mem_parts_of_mem hv)) (depth_lt_of_entry h)

/-- The parts of a node are encoded inside it. -/
theorem depth_encode_lt {n m : Node} {e : Edge} (h : (e, m) ∈ n.kind.parts) :
    m.encode.depth < n.encode.depth := by
  cases hk : n.kind with
  | object s =>
    rw [hk] at h
    obtain ⟨f, hf, he⟩ := List.mem_map.mp h
    obtain ⟨_, rfl⟩ := Prod.mk.inj he
    have hfields : Dict.get? (kindEntries n.kind) "fields" =
        some (.arr (s.fields.map Field.encode)) := by
      rw [hk, kindEntries_object]
      rfl
    rw [← depth_encode_field]
    exact depth_lt_of_element hfields (List.mem_map.mpr ⟨f, hf, rfl⟩)
  | array items nonEmpty =>
    rw [hk] at h
    obtain ⟨_, rfl⟩ := Prod.mk.inj (List.mem_singleton.mp h)
    have hitems : Dict.get? (kindEntries n.kind) "items" = some m.encode := by
      rw [hk]
      rfl
    exact depth_lt_of_entry hitems
  | oneOf u =>
    have hcommon : Dict.get? (kindEntries n.kind) "common" = some u.common.encode := by
      rw [hk, kindEntries_oneOf]
      rfl
    have hvariants : Dict.get? (kindEntries n.kind) "variants" =
        some (.arr (u.variants.map Variant.encode)) := by
      rw [hk, kindEntries_oneOf]
      rfl
    rw [hk] at h
    rcases List.mem_append.mp h with h | h
    · obtain ⟨f, hf, he⟩ := List.mem_map.mp h
      obtain ⟨_, rfl⟩ := Prod.mk.inj he
      exact Nat.lt_trans (depth_lt_of_mem_shape hf) (depth_lt_of_entry hcommon)
    · obtain ⟨c, hc, he⟩ := List.mem_map.mp h
      obtain ⟨_, rfl⟩ := Prod.mk.inj he
      exact Nat.lt_trans (depth_lt_of_mem_variant c)
        (depth_lt_of_element hvariants (List.mem_map.mpr ⟨c, hc, rfl⟩))
  | _ => simp [hk, Kind.parts] at h

/-- Fuel for the depth of its JSON form is enough for a node. -/
theorem readsBack_recordWithin (n : Node) :
    ∀ fuel, n.encode.depth ≤ fuel → ReadsBack (recordWithin fuel) n := by
  induction n using Node.parts_induction with
  | h n ih =>
    intro fuel hfuel
    cases fuel with
    | zero => simp [encode, Json.depth] at hfuel
    | succ fuel =>
      refine readsBack_succ fun e m hm => ih e m hm fuel ?_
      have hlt := depth_encode_lt hm
      omega

theorem decode_encode (n : Node) : decode n.encode = .ok n.dropNulls :=
  (readsBack_recordWithin n _ (Nat.le_succ _)).decodeObject

end Node

theorem Shape.decode_encode (s : Schema) : decode s.encode = .ok s.dropNulls := by
  refine Node.decodeShape_encode fun f hf => Node.readsBack_recordWithin f.node _ ?_
  have hlt := Node.depth_lt_of_mem_shape hf
  omega

end SiteContent
