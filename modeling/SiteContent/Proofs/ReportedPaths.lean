import Mathlib.Order.Defs.Unbundled
import SiteContent.Proofs.PathText
import SiteContent.Proofs.ReportOrder

/-! The paths that a validation reports. Every place has one report at most, and no report lies
inside another; paths tell the places apart as long as no key looks like a path itself. -/

namespace SiteContent

/-- A key of some object in a value. -/
inductive Json.HasKey (key : String) : Json → Prop
  | here {es : Dict Json} : key ∈ es.keys → HasKey key (.obj es)
  | part {v w : Json} : w ∈ v.parts → HasKey key w → HasKey key v

namespace SchemaGraph

/-- A name that a schema gives to a key of some object. -/
def Declares (defs : Definitions) (root : Schema) (key : String) : Prop :=
  ∃ path n, Sited defs root path n ∧ key ∈ n.kind.names

end SchemaGraph

open Walk SchemaGraph

section Keys

variable {defs : Definitions} {root : Schema} {policy : Policy} {v w : Json} {k l : Kind Node}
  {s : Step} {p : Location} {cause : Cause} {es : Dict Json} {key : String}

theorem Json.hasKey_of_get? (h : es.get? key = some v) : (Json.obj es).HasKey key :=
  .here (Dict.isSome_get?_iff.mp (Option.isSome_of_mem h))

theorem Json.hasKey_iff : v.HasKey key ↔ key ∈ v.entries.keys ∨ ∃ w ∈ v.parts, w.HasKey key := by
  constructor
  · intro h
    cases h with
    | here h => exact .inl h
    | part hw h => exact .inr ⟨_, hw, h⟩
  · rintro (h | ⟨w, hw, h⟩)
    · cases v with
      | obj es => exact .here h
      | _ => cases h
    · exact .part hw h

theorem Json.not_hasKey_of_isScalar (h : v.isScalar = true) : ¬ v.HasKey key := by
  rw [hasKey_iff]
  cases v with
  | arr vs => cases h
  | obj es => cases h
  | _ => simp [parts, elements, entries, Dict.keys]

theorem SchemaGraph.Occurs.declares (ho : Occurs defs root k) (h : key ∈ k.names) :
    Declares defs root key := by
  cases ho with
  | node hn => exact ⟨_, _, hn, h⟩
  | tag => simp [Kind.names] at h
  | any => simp [Kind.names] at h

theorem Walk.Inside.names_or_hasKey (hi : Inside v k (.key key) w l) :
    key ∈ k.names ∨ v.HasKey key := by
  cases hi with
  | field hf _ => exact .inl (name_mem_names hf)
  | tag _ => exact .inl List.mem_cons_self
  | entry hv => exact .inr (Json.hasKey_of_get? hv)

theorem Fault.names_or_hasKey (h : Fault policy v k p cause) (hkey : .key key ∈ p) :
    key ∈ k.names ∨ v.HasKey key := by
  cases h with
  | missing hf _ _ _ =>
    obtain rfl := Step.key.inj (List.mem_singleton.mp hkey)
    exact .inl (name_mem_names hf)
  | untagged _ =>
    obtain rfl := Step.key.inj (List.mem_singleton.mp hkey)
    exact .inl List.mem_cons_self
  | forbidden _ _ _ _ _ hv | undeclared _ _ _ hv =>
    obtain rfl := Step.key.inj (List.mem_singleton.mp hkey)
    exact .inr (Json.hasKey_of_get? hv)
  | _ => simp at hkey

theorem Walk.Located.hasKey (hl : Located defs v k p w l) (h : w.HasKey key) : v.HasKey key := by
  induction hl with
  | here => exact h
  | forward _ _ ih => exact ih h
  | step hi _ ih => exact .part hi.mem_parts (ih h)

theorem SchemaGraph.Occurs.declares_or_hasKey (ho : Occurs defs root k)
    (hl : Located defs v k p w l) (hkey : .key key ∈ p) :
    Declares defs root key ∨ v.HasKey key := by
  induction hl with
  | here => simp at hkey
  | forward hf _ ih => exact ih (ho.forwards hf) hkey
  | step hi _ ih =>
    rcases List.mem_cons.mp hkey with rfl | hkey
    · exact hi.names_or_hasKey.imp_left ho.declares
    · exact (ih (ho.inside hi) hkey).imp_right (.part hi.mem_parts)

end Keys

namespace Collection

variable {c : Collection} {policy : Policy} {raw : Json} {d : Diagnostic} {key : String}

theorem declares_or_hasKey_of_mem_findings (hd : d ∈ c.findings policy raw)
    (hkey : .key key ∈ d.location) :
    Declares c.definitions c.schema key ∨ raw.HasKey key := by
  rw [findings_eq] at hd
  obtain ⟨q, r, v, k, hlocation, hl, hfault⟩ := exists_fault_of_mem_diagnostics hd
  rw [hlocation] at hkey
  rcases List.mem_append.mp hkey with hkey | hkey
  · exact c.occurs_root.declares_or_hasKey hl hkey
  · rcases hfault.names_or_hasKey hkey with hname | hhas
    · exact .inl ((c.occurs_root.located hl).declares hname)
    · exact .inr (hl.hasKey hhas)

/-- The places at which a validation reports. -/
def reported (c : Collection) (policy : Policy) (raw : Json) : List Location :=
  (c.findings policy raw).map (·.location)

theorem reported_inOrder (c : Collection) (policy : Policy) (hraw : raw.Canonical) :
    (c.reported policy raw).Pairwise (Precedes c.definitions raw (.object c.schema)) := by
  rw [reported, findings_eq]
  exact List.pairwise_map.mpr (c.wellFormed.inOrder .root hraw)

theorem legible_of_mem_reported
    (hplain : ∀ key, Declares c.definitions c.schema key ∨ raw.HasKey key → PlainName key)
    {l : Location} (hl : l ∈ c.reported policy raw) : ∀ s ∈ l, s.Legible := by
  obtain ⟨d, hd, rfl⟩ := List.mem_map.mp hl
  intro s hs
  cases s with
  | key key => exact hplain key (declares_or_hasKey_of_mem_findings hd hs)
  | index i => trivial

/-- Reports come in the strict order of the schema, so that no place is reported twice, and none
inside another. -/
theorem reported_ordered (c : Collection) (policy : Policy) (hraw : raw.Canonical) :
    IsStrictOrder Location (Precedes c.definitions raw (.object c.schema)) ∧
    (c.reported policy raw).Pairwise (Precedes c.definitions raw (.object c.schema)) ∧
    (c.reported policy raw).Nodup ∧
    ((c.reported policy raw).Pairwise fun l m => ¬ l <+: m ∧ ¬ m <+: l) ∧
    ((∀ key, Declares c.definitions c.schema key ∨ raw.HasKey key → PlainName key) →
      ((c.findings policy raw).map (·.toError.path)).Nodup) := by
  have horder := c.reported_inOrder policy hraw
  have hnodup : (c.reported policy raw).Nodup := horder.imp Precedes.ne
  have hirrefl : Std.Irrefl (Precedes c.definitions raw (.object c.schema)) :=
    ⟨fun _ h => absurd rfl (Precedes.ne h)⟩
  have htrans : IsTrans Location (Precedes c.definitions raw (.object c.schema)) :=
    ⟨fun _ _ _ => c.wellFormed.precedes_trans c.occurs_root⟩
  refine ⟨⟨⟩, horder, hnodup, horder.imp Precedes.not_prefix, fun hplain => ?_⟩
  · have hpaths : (c.findings policy raw).map (·.toError.path) =
        (c.reported policy raw).map Location.render := by
      rw [reported, List.map_map]
      rfl
    rw [hpaths]
    have hlegible : ∀ l ∈ c.reported policy raw, ∀ s ∈ l, s.Legible :=
      fun l hl => legible_of_mem_reported hplain hl
    exact hnodup.map_on fun l hl m hm => Location.render_inj (hlegible l hl) (hlegible m hm)

theorem reported_ordered_page : ∃ (c : Collection) (raw : Json), raw.Canonical ∧
    c.reported .reject raw =
      [[.key "b"], [.key "a", .index 0], [.key "a", .index 2], [.key "z"]] ∧
    (c.reported .reject raw).Pairwise (Precedes c.definitions raw (.object c.schema)) ∧
    ((c.findings .reject raw).map (·.toError.path)).Nodup := by
  let s : Schema := .ofList [("b", Node.string), ("a", Node.array Node.string)]
  let raw : Json := .obj [("a", .arr [.null, .str "x", .null]), ("z", .null)]
  have hraw : raw.Canonical :=
    ⟨List.pairwise_pair.mpr (by decide), ⟨trivial, trivial, trivial, trivial⟩, trivial, trivial⟩
  have hdeclared : ∀ key, Declares [] s key → key ∈ ["b", "a", "z"] := by
    have hkinds : ∀ path n, Sited [] s path n →
        n.kind = .object s ∨ n = Node.array Node.string ∨ n = Node.string := by
      intro path n hn
      induction hn with
      | root => exact .inl rfl
      | definition h => cases h
      | part _ hm ih =>
        rcases ih with h | rfl | rfl
        · rw [h] at hm
          rcases List.mem_pair.mp hm with he | he
          · exact .inr (.inr (Prod.mk.inj he).2)
          · exact .inr (.inl (Prod.mk.inj he).2)
        · exact .inr (.inr (Prod.mk.inj (List.mem_singleton.mp hm)).2)
        · cases hm
      | target _ _ h => cases h
    rintro key ⟨path, n, hn, hkey⟩
    rcases hkinds path n hn with h | rfl | rfl
    · rw [h] at hkey
      rcases List.mem_pair.mp hkey with rfl | rfl <;> decide
    · cases hkey
    · cases hkey
  have hkeys : ∀ key, raw.HasKey key → key ∈ ["b", "a", "z"] := by
    intro key h
    rcases Json.hasKey_iff.mp h with h | ⟨w, hw, h⟩
    · exact List.mem_cons_of_mem _ h
    rcases List.mem_pair.mp hw with rfl | rfl
    · rcases Json.hasKey_iff.mp h with h | ⟨x, hx, h⟩
      · cases h
      · have hscalar : ∀ x ∈ [Json.null, .str "x", .null], x.isScalar = true := by
          simp [Json.isScalar]
        exact absurd h (Json.not_hasKey_of_isScalar (hscalar x hx))
    · exact absurd h (Json.not_hasKey_of_isScalar rfl)
  have hplain : ∀ key, Declares [] s key ∨ raw.HasKey key → PlainName key := by
    have hnames : ∀ key ∈ ["b", "a", "z"], PlainName key := by simp [PlainName]
    exact fun key hkey => hnames key (hkey.elim (hdeclared key) (hkeys key))
  obtain ⟨_, horder, _, _, hpaths⟩ :=
    reported_ordered ⟨⟨"", .page, default, s, []⟩, rfl⟩ .reject hraw
  exact ⟨_, raw, hraw, rfl, horder, hpaths hplain⟩

end Collection

end SiteContent
