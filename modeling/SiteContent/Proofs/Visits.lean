import SiteContent.Proofs.SchemaGraph

/-! The search of a schema graph as the list of the checks that it makes, in its order. The list
does not depend on what the checks find; the answer of the search is the first one that fails. -/

namespace SiteContent.Check

/-- One check on the way of the search. -/
inductive Visit where
  /-- The name of a field, which must not be among those before it. -/
  | field (path : String) (seen : List String) (name : String)
  | cases (path : String) (u : TaggedUnion Node)
  | reference (target : String) (trail : Trail) (depth : Nat)
  | default (path : String) (kind : Kind Node) (value : Option Json)
  /-- More definitions are entered at once than there are. -/
  | spent (target : String)

def Visit.outcome (defs : Definitions) : Visit → Except SchemaError Unit
  | .field path seen name =>
    if name ∈ seen then .error (.fieldCollision name (context path)) else .ok ()
  | .cases path u => Check.cases path u
  | .reference target trail depth =>
    match Dict.get? defs target with
    | none => .error (.unresolvedReference target)
    | some _ =>
      match Dict.get? trail target with
      | some entered => if entered < depth then .ok () else .error (.unboundedRecursion target)
      | none => .ok ()
  | .default path kind value => Check.default defs path kind value
  | .spent target => .error (.unboundedRecursion target)

abbrev Onward := String → String → Trail → Nat → List Visit

mutual

def nodeVisits (go : Onward) (path : String) (trail : Trail) (depth : Nat) : Node → List Visit
  | ⟨k, _, d, _⟩ => kindVisits go path trail depth k ++ [.default path k d]

def kindVisits (go : Onward) (path : String) (trail : Trail) (depth : Nat) :
    Kind Node → List Visit
  | .object ⟨fs⟩ => fieldsVisits go path trail depth [] fs
  | .array items _ => nodeVisits go (path ++ "[]") trail (depth + 1) items
  | .oneOf ⟨tag, tags, ⟨common⟩, vs⟩ =>
    .cases path ⟨tag, tags, ⟨common⟩, vs⟩ :: (fieldsVisits go path trail depth [] common ++
      variantsVisits go path trail depth vs)
  | .reference target => go target path trail depth
  | .string _ | .boolean | .number | .enumeration _ | .any => []

def fieldsVisits (go : Onward) (path : String) (trail : Trail) (depth : Nat)
    (seen : List String) : List (Field Node) → List Visit
  | [] => []
  | ⟨name, n⟩ :: rest =>
    .field path seen name :: (nodeVisits go (join path name) trail depth n ++
      fieldsVisits go path trail depth (name :: seen) rest)

def variantsVisits (go : Onward) (path : String) (trail : Trail) (depth : Nat) :
    List (Variant Node) → List Visit
  | [] => []
  | ⟨_, ⟨name, n⟩⟩ :: rest =>
    nodeVisits go (join path name) trail depth n ++ variantsVisits go path trail depth rest

end

/-- The reference itself, and the visits of its definition unless the trail is inside it. -/
def enterVisits (defs : Definitions) : Nat → Onward
  | fuel, target, path, trail, depth =>
    .reference target trail depth ::
      match Dict.get? defs target with
      | none => []
      | some definition =>
        match Dict.get? trail target, fuel with
        | some _, _ => []
        | none, 0 => [.spent target]
        | none, fuel + 1 =>
          nodeVisits (enterVisits defs fuel) path ((target, depth) :: trail) depth definition

def definitionsVisits (defs : Definitions) (ds : List (String × Node)) : List Visit :=
  ds.flatMap fun (name, n) =>
    nodeVisits (enterVisits defs (List.length defs)) name [(name, 0)] 0 n

/-- Every check of a graph, in the order of the search. -/
def visits (defs : Definitions) (root : Schema) : List Visit :=
  nodeVisits (enterVisits defs (List.length defs)) "" [] 0 (.object root) ++
    definitionsVisits defs defs

section Run

variable {defs : Definitions} {ent : Enter} {go : Onward}

mutual

theorem node_eq_forM (h : ∀ t p tr d, ent t p tr d = forM (go t p tr d) (Visit.outcome defs))
    (path : String) (trail : Trail) (depth : Nat) :
    ∀ n : Node, node defs ent path trail depth n =
      forM (nodeVisits go path trail depth n) (Visit.outcome defs)
  | ⟨k, _, d, _⟩ => by
    simp [node, nodeVisits, kind_eq_forM h path trail depth k, Visit.outcome]

theorem kind_eq_forM (h : ∀ t p tr d, ent t p tr d = forM (go t p tr d) (Visit.outcome defs))
    (path : String) (trail : Trail) (depth : Nat) :
    ∀ k : Kind Node, kind defs ent path trail depth k =
      forM (kindVisits go path trail depth k) (Visit.outcome defs)
  | .object ⟨fs⟩ => by simp [kind, kindVisits, fields_eq_forM h path trail depth fs]
  | .array items _ => by
    simp [kind, kindVisits, node_eq_forM h (path ++ "[]") trail (depth + 1) items]
  | .oneOf ⟨_, _, ⟨common⟩, vs⟩ => by
    simp [kind, kindVisits, fields_eq_forM h path trail depth common,
      variants_eq_forM h path trail depth vs, Visit.outcome]
  | .reference t => by simp [kind, kindVisits, h]
  | .string _ | .boolean | .number | .enumeration _ | .any => by simp [kind, kindVisits]; rfl

theorem fields_eq_forM (h : ∀ t p tr d, ent t p tr d = forM (go t p tr d) (Visit.outcome defs))
    (path : String) (trail : Trail) (depth : Nat) :
    ∀ (fs : List (Field Node)) (seen : List String), fields defs ent path trail depth seen fs =
      forM (fieldsVisits go path trail depth seen fs) (Visit.outcome defs)
  | [], _ => by simp [fields, fieldsVisits]; rfl
  | ⟨name, n⟩ :: rest, seen => by
    simp [fields, fieldsVisits, node_eq_forM h (join path name) trail depth n,
      fields_eq_forM h path trail depth rest (name :: seen), Visit.outcome]
    split <;> rfl

theorem variants_eq_forM (h : ∀ t p tr d, ent t p tr d = forM (go t p tr d) (Visit.outcome defs))
    (path : String) (trail : Trail) (depth : Nat) :
    ∀ vs : List (Variant Node), variants defs ent path trail depth vs =
      forM (variantsVisits go path trail depth vs) (Visit.outcome defs)
  | [] => by simp [variants, variantsVisits]; rfl
  | ⟨_, ⟨name, n⟩⟩ :: rest => by
    simp [variants, variantsVisits, node_eq_forM h (join path name) trail depth n,
      variants_eq_forM h path trail depth rest]

end

end Run

theorem enter_eq_forM (defs : Definitions) (fuel : Nat) (target path : String) (trail : Trail)
    (depth : Nat) : enter defs fuel target path trail depth =
      forM (enterVisits defs fuel target path trail depth) (Visit.outcome defs) := by
  induction fuel generalizing target path trail depth with
  | zero =>
    cases hd : Dict.get? defs target with
    | none => simp [enter, enterVisits, Visit.outcome, hd]
    | some n =>
      cases ht : Dict.get? trail target with
      | none => simp [enter, enterVisits, Visit.outcome, hd, ht]; rfl
      | some entered => simp [enter, enterVisits, Visit.outcome, hd, ht]
  | succ fuel ih =>
    cases hd : Dict.get? defs target with
    | none => simp [enter, enterVisits, Visit.outcome, hd]
    | some n =>
      cases ht : Dict.get? trail target with
      | none =>
        simp only [enter, enterVisits, Visit.outcome, hd, ht, List.forM_cons]
        exact node_eq_forM ih path _ depth n
      | some entered => simp [enter, enterVisits, Visit.outcome, hd, ht]

theorem definitions_eq_forM (defs : Definitions) (ds : List (String × Node)) :
    definitions defs ds = forM (definitionsVisits defs ds) (Visit.outcome defs) := by
  induction ds with
  | nil => simp [definitions, definitionsVisits]; rfl
  | cons e rest ih =>
    obtain ⟨name, n⟩ := e
    rw [definitions, ih, node_eq_forM (enter_eq_forM defs _)]
    simp [definitionsVisits]

/-- The answer of the search is that of its checks, made one after another. -/
theorem graph_eq_forM (defs : Definitions) (root : Schema) :
    graph defs root = forM (visits defs root) (Visit.outcome defs) := by
  have hroot : fields defs (enter defs (List.length defs)) "" [] 0 [] root.fields =
      forM (nodeVisits (enterVisits defs (List.length defs)) "" [] 0 (.object root))
        (Visit.outcome defs) := by
    rw [← node_eq_forM (enter_eq_forM defs _)]
    obtain ⟨fs⟩ := root
    simp only [Node.object, Node.ofKind, node, kind, default]
    cases fields defs (enter defs (List.length defs)) "" [] 0 [] fs <;> rfl
  rw [graph, hroot, definitions_eq_forM, visits, List.forM_append]

section Outcomes

variable {α ε : Type} {f : α → Except ε Unit} {l : List α}

theorem forM_eq_ok_iff : forM l f = .ok () ↔ ∀ x ∈ l, f x = .ok () := by
  induction l with
  | nil => simp; rfl
  | cons x l ih =>
    cases hx : f x with
    | error e => simp [hx, bind, Except.bind]
    | ok u => simp [hx, bind, Except.bind, ← ih]

theorem forM_eq_error_iff {e : ε} : forM l f = .error e ↔
    ∃ before x after, l = before ++ x :: after ∧ (∀ y ∈ before, f y = .ok ()) ∧
      f x = .error e := by
  induction l with
  | nil => simp [pure, Except.pure]
  | cons x l ih =>
    cases hx : f x with
    | error e' =>
      simp only [List.forM_cons, hx, bind, Except.bind]
      constructor
      · intro h
        exact ⟨[], x, l, rfl, by simp, by rw [hx]; exact h⟩
      · rintro ⟨before, y, after, hl, hb, hy⟩
        cases before with
        | nil =>
          obtain ⟨rfl, _⟩ := List.cons.inj hl
          rw [← hx, hy]
        | cons z zs =>
          obtain ⟨rfl, _⟩ := List.cons.inj hl
          have hz := hb x List.mem_cons_self
          rw [hx] at hz
          cases hz
    | ok u =>
      simp only [List.forM_cons, hx, bind, Except.bind]
      rw [ih]
      constructor
      · rintro ⟨before, y, after, rfl, hb, hy⟩
        refine ⟨x :: before, y, after, rfl, ?_, hy⟩
        intro z hz
        rcases List.mem_cons.mp hz with rfl | hz
        · exact hx
        · exact hb z hz
      · rintro ⟨before, y, after, hl, hb, hy⟩
        cases before with
        | nil =>
          obtain ⟨rfl, _⟩ := List.cons.inj hl
          rw [hx] at hy
          cases hy
        | cons z zs =>
          obtain ⟨rfl, rfl⟩ := List.cons.inj hl
          exact ⟨zs, y, after, rfl, fun w hw => hb w (List.mem_cons_of_mem _ hw), hy⟩

end Outcomes

/-- The visits that a node of a kind makes itself, beside that of its default. -/
inductive Own (path : String) : Kind Node → Visit → Prop
  | field {s : Schema} {before after : List (Field Node)} {f : Field Node} :
      s.fields = before ++ f :: after →
      Own path (.object s) (.field path (before.map (·.name)).reverse f.name)
  | common {u : TaggedUnion Node} {before after : List (Field Node)} {f : Field Node} :
      u.common.fields = before ++ f :: after →
      Own path (.oneOf u) (.field path (before.map (·.name)).reverse f.name)
  | cases {u : TaggedUnion Node} : Own path (.oneOf u) (.cases path u)

section Members

variable {go : Onward} {path : String} {trail : Trail} {depth : Nat} {x : Visit}

theorem mem_fieldsVisits {fs : List (Field Node)} {seen : List String} :
    x ∈ fieldsVisits go path trail depth seen fs ↔
      (∃ before f after, fs = before ++ f :: after ∧
        x = .field path ((before.map (·.name)).reverse ++ seen) f.name) ∨
      ∃ f ∈ fs, x ∈ nodeVisits go (join path f.name) trail depth f.node := by
  induction fs generalizing seen with
  | nil => simp [fieldsVisits]
  | cons g rest ih =>
    simp only [fieldsVisits, List.mem_cons, List.mem_append, ih]
    constructor
    · rintro (rfl | hx | ⟨before, f, after, rfl, rfl⟩ | ⟨f, hf, hx⟩)
      · exact .inl ⟨[], g, rest, rfl, rfl⟩
      · exact .inr ⟨g, .inl rfl, hx⟩
      · exact .inl ⟨g :: before, f, after, rfl, by simp⟩
      · exact .inr ⟨f, .inr hf, hx⟩
    · rintro (⟨before, f, after, he, rfl⟩ | ⟨f, rfl | hf, hx⟩)
      · cases before with
        | nil =>
          obtain ⟨rfl, rfl⟩ := List.cons.inj he
          exact .inl rfl
        | cons b before =>
          obtain ⟨rfl, rfl⟩ := List.cons.inj he
          exact .inr (.inr (.inl ⟨before, f, after, rfl, by simp⟩))
      · exact .inr (.inl hx)
      · exact .inr (.inr (.inr ⟨f, hf, hx⟩))

theorem mem_variantsVisits {vs : List (Variant Node)} :
    x ∈ variantsVisits go path trail depth vs ↔
      ∃ c ∈ vs, x ∈ nodeVisits go (join path c.payload.name) trail depth c.payload.node := by
  induction vs with
  | nil => simp [variantsVisits]
  | cons c rest ih => simp [variantsVisits, ih]

theorem mem_kindVisits {k : Kind Node} :
    x ∈ kindVisits go path trail depth k ↔
      Own path k x ∨
      (∃ e m, (e, m) ∈ k.parts ∧ x ∈ nodeVisits go (e.extend path) trail (depth + e.arrays) m) ∨
      ∃ t, k = .reference t ∧ x ∈ go t path trail depth := by
  constructor
  · intro hx
    match k, hx with
    | .object ⟨fs⟩, hx =>
      rcases mem_fieldsVisits.mp hx with ⟨before, f, after, he, rfl⟩ | ⟨f, hf, hx⟩
      · exact .inl (by simpa using Own.field (s := ⟨fs⟩) he)
      · exact .inr (.inl ⟨_, _, List.mem_map.mpr ⟨f, hf, rfl⟩, hx⟩)
    | .array items _, hx => exact .inr (.inl ⟨_, _, List.mem_singleton.mpr rfl, hx⟩)
    | .oneOf ⟨tag, tags, ⟨common⟩, vs⟩, hx =>
      simp only [kindVisits, List.mem_cons, List.mem_append] at hx
      rcases hx with rfl | hx | hx
      · exact .inl .cases
      · rcases mem_fieldsVisits.mp hx with ⟨before, f, after, he, rfl⟩ | ⟨f, hf, hx⟩
        · exact .inl (by simpa using Own.common (u := ⟨tag, tags, ⟨common⟩, vs⟩) he)
        · exact .inr (.inl ⟨_, _, List.mem_append_left _ (List.mem_map.mpr ⟨f, hf, rfl⟩), hx⟩)
      · obtain ⟨c, hc, hx⟩ := mem_variantsVisits.mp hx
        exact .inr (.inl ⟨_, _, List.mem_append_right _ (List.mem_map.mpr ⟨c, hc, rfl⟩), hx⟩)
    | .reference t, hx => exact .inr (.inr ⟨t, rfl, hx⟩)
  · rintro (hown | ⟨e, m, hm, hx⟩ | ⟨t, rfl, hx⟩)
    · cases hown with
      | @field s before after f he =>
        exact mem_fieldsVisits.mpr (.inl ⟨before, f, after, he, by simp⟩)
      | @common u before after f he =>
        simp only [kindVisits, List.mem_cons, List.mem_append]
        exact .inr (.inl (mem_fieldsVisits.mpr (.inl ⟨before, f, after, he, by simp⟩)))
      | cases => exact List.mem_cons_self
    · match k, hm with
      | .object s, hm =>
        obtain ⟨f, hf, he⟩ := List.mem_map.mp hm
        obtain ⟨rfl, rfl⟩ := Prod.mk.inj he
        exact mem_fieldsVisits.mpr (.inr ⟨f, hf, hx⟩)
      | .array items _, hm =>
        obtain ⟨rfl, rfl⟩ := Prod.mk.inj (List.mem_singleton.mp hm)
        exact hx
      | .oneOf u, hm =>
        simp only [kindVisits, List.mem_cons, List.mem_append]
        rcases List.mem_append.mp hm with hm | hm
        · obtain ⟨f, hf, he⟩ := List.mem_map.mp hm
          obtain ⟨rfl, rfl⟩ := Prod.mk.inj he
          exact .inr (.inl (mem_fieldsVisits.mpr (.inr ⟨f, hf, hx⟩)))
        · obtain ⟨c, hc, he⟩ := List.mem_map.mp hm
          obtain ⟨rfl, rfl⟩ := Prod.mk.inj he
          exact .inr (.inr (mem_variantsVisits.mpr ⟨c, hc, hx⟩))
    · exact hx

theorem mem_nodeVisits {n : Node} :
    x ∈ nodeVisits go path trail depth n ↔
      x = .default path n.kind n.default ∨ Own path n.kind x ∨
      (∃ e m, (e, m) ∈ n.kind.parts ∧
        x ∈ nodeVisits go (e.extend path) trail (depth + e.arrays) m) ∨
      ∃ t, n.kind = .reference t ∧ x ∈ go t path trail depth := by
  obtain ⟨k, required, d, hints⟩ := n
  rw [nodeVisits, List.mem_append, mem_kindVisits, List.mem_singleton, or_comm]

theorem mem_enterVisits {defs : Definitions} {fuel : Nat} {target : String} :
    x ∈ enterVisits defs fuel target path trail depth ↔
      x = .reference target trail depth ∨
      ∃ n, defs.get? target = some n ∧ Dict.get? trail target = none ∧
        ((fuel = 0 ∧ x = .spent target) ∨ ∃ less, fuel = less + 1 ∧
          x ∈ nodeVisits (enterVisits defs less) path ((target, depth) :: trail) depth n) := by
  cases hd : defs.get? target with
  | none => cases fuel <;> simp [enterVisits, hd]
  | some n =>
    cases ht : Dict.get? trail target with
    | some entered => cases fuel <;> simp [enterVisits, hd, ht]
    | none => cases fuel <;> simp [enterVisits, hd, ht]

end Members

end SiteContent.Check
