import SiteContent.Decimal.Binary64
import SiteContent.Dict

/-! JSON values. The entries of an object are kept in the order they are written in; a document,
which has no order of its own, keeps them by increasing key. -/

namespace SiteContent

inductive Number where
  | int (value : Int)
  | float (value : Binary64)
  deriving Repr, DecidableEq

inductive Json where
  | null
  | bool (value : Bool)
  | num (value : Number)
  | str (value : String)
  | arr (elements : List Json)
  | obj (entries : List (String × Json))
  deriving Repr, Inhabited

namespace Json

/-- The name of a value's type in diagnostics. -/
def typeName : Json → String
  | .null => "null"
  | .bool _ => "boolean"
  | .num _ => "number"
  | .str _ => "string"
  | .arr _ => "array"
  | .obj _ => "object"

/-- The entries of an object; any other value has none. -/
def entries : Json → Dict Json
  | .obj es => es
  | _ => []

def get? (v : Json) (key : String) : Option Json :=
  v.entries.get? key

mutual

/-- Structural equality. -/
def same : Json → Json → Bool
  | .null, .null => true
  | .bool a, .bool b => a == b
  | .num a, .num b => a == b
  | .str a, .str b => a == b
  | .arr a, .arr b => sameElements a b
  | .obj a, .obj b => sameEntries a b
  | _, _ => false

def sameElements : List Json → List Json → Bool
  | [], [] => true
  | a :: as, b :: bs => a.same b && sameElements as bs
  | _, _ => false

def sameEntries : List (String × Json) → List (String × Json) → Bool
  | [], [] => true
  | (k, a) :: as, (l, b) :: bs => k == l && a.same b && sameEntries as bs
  | _, _ => false

end

mutual

theorem same_iff : ∀ a b : Json, a.same b = true ↔ a = b
  | .null, b => by cases b <;> simp [same]
  | .bool _, b => by cases b <;> simp [same]
  | .num _, b => by cases b <;> simp [same]
  | .str _, b => by cases b <;> simp [same]
  | .arr as, b => by cases b <;> simp [same, sameElements_iff as]
  | .obj as, b => by cases b <;> simp [same, sameEntries_iff as]

theorem sameElements_iff : ∀ as bs : List Json, sameElements as bs = true ↔ as = bs
  | [], bs => by cases bs <;> simp [sameElements]
  | a :: as, bs => by cases bs <;> simp [sameElements, same_iff a, sameElements_iff as]

theorem sameEntries_iff : ∀ as bs : List (String × Json), sameEntries as bs = true ↔ as = bs
  | [], bs => by cases bs <;> simp [sameEntries]
  | (k, a) :: as, bs => by
    cases bs with
    | nil => simp [sameEntries]
    | cons b bs =>
      obtain ⟨l, b⟩ := b
      simp [sameEntries, same_iff a, sameEntries_iff as, Prod.ext_iff]

end

instance : DecidableEq Json := fun a b => decidable_of_iff _ (same_iff a b)

mutual

/-- How deep containers nest. -/
def depth : Json → Nat
  | .arr es => depthElements es + 1
  | .obj es => depthEntries es + 1
  | _ => 0

def depthElements : List Json → Nat
  | [] => 0
  | v :: vs => max v.depth (depthElements vs)

def depthEntries : List (String × Json) → Nat
  | [] => 0
  | (_, v) :: es => max v.depth (depthEntries es)

end

mutual

/-- Every object keeps its entries by strictly increasing key. -/
def Canonical : Json → Prop
  | .arr es => CanonicalElements es
  | .obj es => Dict.Sorted es ∧ CanonicalEntries es
  | _ => True

def CanonicalElements : List Json → Prop
  | [] => True
  | v :: vs => v.Canonical ∧ CanonicalElements vs

def CanonicalEntries : List (String × Json) → Prop
  | [] => True
  | (_, v) :: es => v.Canonical ∧ CanonicalEntries es

end

end Json

end SiteContent
