import SiteContent.Package
import SiteContent.Proofs.SchemaReading

/-! Reading an exported registry back, and which registries come back as they were. -/

namespace SiteContent

def Descriptor.dropNulls (d : Descriptor) : Descriptor :=
  { d with schema := d.schema.dropNulls, definitions := d.definitions.mapValues Node.dropNulls }

def Package.dropNulls (p : Package) : Package :=
  { p with
    collections := p.collections.map Descriptor.dropNulls
    fragments := p.fragments.mapValues Shape.dropNulls }

theorem Storage.decode_literal (s : Storage) : decode (.str s.literal) = .ok s := by
  cases s <;> rfl

namespace Descriptor

open Record

theorem decode_source (included : String) (excluded : List String) :
    sourceRecord.decode "SourceDescriptor" (.obj (("include", .str included) ::
      Json.entryIf (!excluded.isEmpty) "exclude" (Json.ofStrings excluded))) =
        .ok (included, excluded) :=
  decode_obj (read_seq (read_map Prod.mk (read_required rfl rfl))
    (read_unlessEmpty excluded rfl (Decoder.list_string excluded) id))

theorem decode_encode (d : Descriptor) : decode d.encode = .ok d.dropNulls := by
  have hdefinitions := Decoder.dict_ofDict d.definitions fun e _ => e.2.decode_encode
  have hread : decode d.encode = .ok _ := decode_obj
    (read_seq (read_seq (read_seq (read_seq (read_map _ (read_required rfl rfl))
      (read_required rfl d.storage.decode_literal))
      (read_required rfl (decode_source d.included d.excluded)))
      (read_required rfl d.schema.decode_encode))
      (read_unlessEmpty d.definitions rfl hdefinitions fun he => by rw [he]; rfl))
  exact hread

end Descriptor

namespace Package

open Record

theorem decode_encode (p : Package) : decode p.encode = .ok p.dropNulls := by
  have hcollections : Decoder.list Descriptor.decode (.arr (p.collections.map Descriptor.encode)) =
      .ok (p.collections.map Descriptor.dropNulls) :=
    Decoder.each_map fun d _ => d.decode_encode
  have henumerations : Decoder.list Enumeration.decode
      (.arr (p.enumerations.map Enumeration.encode)) = .ok (p.enumerations.map id) :=
    Decoder.each_map fun e _ => e.decode_encode
  have hfragments := Decoder.dict_ofDict p.fragments fun e _ => e.2.decode_encode
  rw [List.map_id] at henumerations
  have hread : decode p.encode = .ok _ := decode_obj
    (read_seq (read_seq (read_seq (read_seq (read_map _ (read_required rfl rfl))
      (read_required rfl rfl)) (read_required rfl hcollections))
      (read_unlessEmpty p.fragments
        (by simp [Dict.get?_append, Json.get?_entryIf_of_ne, Dict.get?]) hfragments
        fun he => by rw [he]; rfl))
      (read_unlessEmpty p.enumerations
        (by simp [Dict.get?_append, Json.get?_entryIf_of_ne, Dict.get?]) henumerations id))
  exact hread

end Package

section Fixed

theorem map_eq_self_iff {α : Type} {g : α → α} {as : List α} :
    as.map g = as ↔ ∀ a ∈ as, g a = a := by
  have h : as.map g = as.map id ↔ ∀ a ∈ as, g a = a := List.map_inj_left
  rwa [List.map_id] at h

theorem Field.dropNulls_eq_self_iff {f : Field Node} :
    f.dropNulls = f ↔ f.node.dropNulls = f.node := by
  obtain ⟨name, n⟩ := f
  simp [dropNulls]

theorem Shape.dropNulls_eq_self_iff {s : Schema} :
    s.dropNulls = s ↔ ∀ f ∈ s.fields, f.node.dropNulls = f.node := by
  obtain ⟨fs⟩ := s
  simp only [dropNulls, Shape.mk.injEq, map_eq_self_iff, Field.dropNulls_eq_self_iff]

theorem TaggedUnion.dropNulls_eq_self_iff {u : TaggedUnion Node} : u.dropNulls = u ↔
    (∀ f ∈ u.common.fields, f.node.dropNulls = f.node) ∧
      ∀ c ∈ u.variants, c.payload.node.dropNulls = c.payload.node := by
  have hvariant : ∀ c : Variant Node,
      c.dropNulls = c ↔ c.payload.node.dropNulls = c.payload.node := by
    rintro ⟨tag, f⟩
    simp [Variant.dropNulls, Field.dropNulls_eq_self_iff]
  obtain ⟨tag, tags, common, vs⟩ := u
  simp [dropNulls, Shape.dropNulls_eq_self_iff, map_eq_self_iff, hvariant]

theorem Node.dropNullsKind_eq_self_iff {k : Kind Node} :
    Node.dropNullsKind k = k ↔ ∀ p ∈ k.parts, p.2.dropNulls = p.2 := by
  cases k with
  | object s =>
    rw [dropNullsKind_object, Kind.object.injEq, Shape.dropNulls_eq_self_iff, Kind.parts,
      List.forall_mem_map]
  | array items nonEmpty => simp [dropNullsKind, Kind.parts]
  | oneOf u =>
    rw [dropNullsKind_oneOf, Kind.oneOf.injEq, TaggedUnion.dropNulls_eq_self_iff, Kind.parts,
      List.forall_mem_append, List.forall_mem_map, List.forall_mem_map]
  | _ => simp [dropNullsKind, Kind.parts]

theorem Node.dropNulls_eq_self_iff {n : Node} : n.dropNulls = n ↔
    n.default ≠ some .null ∧ ∀ p ∈ n.kind.parts, p.2.dropNulls = p.2 := by
  obtain ⟨k, r, d, h⟩ := n
  have hdefault : (d.filter fun v => v ≠ .null) = d ↔ d ≠ some .null := by
    cases d with
    | none => simp
    | some v => simp [Option.filter]
  rw [dropNulls, Node.mk.injEq, dropNullsKind_eq_self_iff, hdefault, and_comm]
  simp only [true_and, and_true]

end Fixed

/-- A node is another one or stands inside it. -/
inductive Node.Contains : Node → Node → Prop
  | self {n : Node} : Contains n n
  | part {n m l : Node} {e : Edge} : (e, m) ∈ n.kind.parts → Contains m l → Contains n l

theorem Node.dropNulls_eq_self_iff_contains (n : Node) :
    n.dropNulls = n ↔ ∀ m, n.Contains m → m.default ≠ some .null := by
  induction n using Node.parts_induction with
  | h n ih =>
    rw [dropNulls_eq_self_iff]
    constructor
    · rintro ⟨hself, hparts⟩ m hm
      cases hm with
      | self => exact hself
      | part he hm => exact (ih _ _ he).mp (hparts _ he) m hm
    · intro hall
      refine ⟨hall n .self, fun ⟨e, m⟩ hm => ?_⟩
      exact (ih e m hm).mpr fun l hl => hall l (.part hm hl)

namespace SchemaGraph

variable {defs : Definitions} {root : Schema}

theorem Sited.exists_contains {path : String} {n m : Node} (h : Sited defs root path n)
    (hm : n.Contains m) : ∃ q, Sited defs root q m := by
  induction hm generalizing path with
  | self => exact ⟨path, h⟩
  | part he _ ih => exact ih (h.part he)

/-- A graph has no null default exactly when its root and its definitions have none. -/
theorem forall_sited_iff : (∀ path n, Sited defs root path n → n.default ≠ some .null) ↔
    root.dropNulls = root ∧ ∀ e ∈ defs, e.2.dropNulls = e.2 := by
  have hroot : (Node.object root).dropNulls = .object root ↔ root.dropNulls = root := by
    rw [Node.dropNulls_eq_self_iff, Shape.dropNulls_eq_self_iff, Node.object, Node.ofKind,
      Kind.parts, List.forall_mem_map]
    simp
  constructor
  · intro hall
    have hnode : ∀ {path n}, Sited defs root path n → n.dropNulls = n := fun {path n} hn =>
      n.dropNulls_eq_self_iff_contains.mpr fun m hm =>
        (hn.exists_contains hm).elim fun q hq => hall q m hq
    exact ⟨hroot.mp (hnode .root), fun e he => hnode (.definition he)⟩
  · rintro ⟨hr, hdefs⟩ path n hn
    have hfixed : n.dropNulls = n := by
      induction hn with
      | root => exact hroot.mpr hr
      | definition he => exact hdefs _ he
      | part _ he ih => exact (Node.dropNulls_eq_self_iff.mp ih).2 _ he
      | target _ _ ht _ => exact hdefs _ (Dict.mem_of_get?_eq_some ht)
    exact (Node.dropNulls_eq_self_iff.mp hfixed).1

end SchemaGraph

theorem Dict.mapValues_eq_self_iff {α : Type} {g : α → α} {d : Dict α} :
    d.mapValues g = d ↔ ∀ e ∈ d, g e.2 = e.2 := by
  rw [mapValues, map_eq_self_iff]
  exact forall₂_congr fun e _ => by simp [Prod.ext_iff]

theorem Descriptor.dropNulls_eq_self_iff {d : Descriptor} : d.dropNulls = d ↔
    ∀ path n, SchemaGraph.Sited d.definitions d.schema path n → n.default ≠ some .null := by
  obtain ⟨name, storage, included, excluded, schema, definitions⟩ := d
  rw [SchemaGraph.forall_sited_iff, ← Dict.mapValues_eq_self_iff]
  simp [dropNulls]

namespace Package

theorem dropNulls_ofRegistry_iff {version : String} {r : Registry} :
    (ofRegistry version r).dropNulls = ofRegistry version r ↔ ∀ c ∈ r.collections, ∀ path n,
      SchemaGraph.Sited c.definitions c.schema path n → n.default ≠ some .null := by
  have hfragments : Fragment.all.mapValues Shape.dropNulls = Fragment.all := rfl
  simp only [ofRegistry, dropNulls, hfragments, Package.mk.injEq, true_and, and_true,
    map_eq_self_iff, List.forall_mem_map, Descriptor.dropNulls_eq_self_iff]
  rfl

/-- The export of a registry is read back as it was exactly when no schema has a null default; with
such defaults, all the rest is read back. The same holds of a single node. -/
theorem decode_encode_ofRegistry_iff (version : String) (r : Registry) :
    decode (ofRegistry version r).encode = .ok (ofRegistry version r).dropNulls ∧
    (decode (ofRegistry version r).encode = .ok (ofRegistry version r) ↔
      ∀ c ∈ r.collections, ∀ path n,
        SchemaGraph.Sited c.definitions c.schema path n → n.default ≠ some .null) ∧
    ∀ n : Node, Node.decode n.encode = .ok n ↔ ∀ m, n.Contains m → m.default ≠ some .null := by
  refine ⟨decode_encode _, ?_, fun n => ?_⟩
  · rw [decode_encode, Except.ok.injEq, dropNulls_ofRegistry_iff]
  · rw [Node.decode_encode, Except.ok.injEq, Node.dropNulls_eq_self_iff_contains]

/-- A null default of a node of any kind passes every check, and is lost. -/
theorem exists_decode_encode_ne : ∃ (d : Declaration) (c : Collection) (r : Registry),
    d.build = .ok c ∧ r.collections = [c] ∧
      decode (ofRegistry "" r).encode ≠ .ok (ofRegistry "" r) := by
  let n := Node.any.withDefault .null
  let d : Declaration := ⟨"", .page, default, .ofList [("a", n)], []⟩
  let c : Collection := ⟨d, rfl⟩
  let r : Registry := ⟨[c], by simp⟩
  refine ⟨d, c, r, rfl, rfl, fun h => ?_⟩
  rw [decode_encode, Except.ok.injEq, dropNulls_ofRegistry_iff] at h
  have hn : SchemaGraph.Sited c.definitions c.schema "a" n :=
    .part (e := .field "a") .root List.mem_cons_self
  exact h c List.mem_cons_self "a" n hn rfl

end Package

end SiteContent
