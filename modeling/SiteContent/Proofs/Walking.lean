import Mathlib.Data.String.Basic
import SiteContent.FileSystem

/-! Walking a tree. A walk comes to its end if all directories can be listed, and those that hold
further directories can be gone through. Whether the files can be read is no matter. Otherwise it
ends at the first directory that it cannot list. -/

namespace SiteContent.FileTree

/-- All directories of the tree at a path can be listed, and gone through where there are
directories in them. Their own paths are within the limits of the system. -/
inductive Walkable : FileTree → String → Prop where
  | file {content : List UInt8} {locks : Locks} {path : String} :
    Walkable (.file content locks) path
  | directory {es : List (String × FileTree)} {locks : Locks} {path : String}
    (named : Path.fault? path = none) (listed : locks.read = none)
    (entered : ∀ e ∈ es, e.2.isDirectory = true → locks.search = none)
    (below : ∀ e ∈ es, Walkable e.2 (Path.below path e.1)) : Walkable (.directory es locks) path

variable {es : List (String × FileTree)} {locks : Locks} {path : String}

theorem walkable_directory_iff : (directory es locks).Walkable path ↔
    Path.fault? path = none ∧ locks.read = none ∧ ∀ e ∈ es,
      (e.2.isDirectory = true → locks.search = none) ∧ e.2.Walkable (Path.below path e.1) := by
  constructor
  · rintro (_ | ⟨named, listed, entered, below⟩)
    exact ⟨named, listed, fun e he => ⟨entered e he, below e he⟩⟩
  · rintro ⟨named, listed, hall⟩
    exact .directory named listed (fun e he => (hall e he).1) fun e he => (hall e he).2

mutual

theorem impasses_eq_nil_iff : ∀ (t : FileTree) (path : String) (above : Option OsError),
    t.impasses path above = [] ↔ (t.isDirectory = true → above = none) ∧ t.Walkable path
  | .file _ _, _, _ => by simp [impasses, isDirectory, Walkable.file]
  | .directory es locks, path, above => by
    have hes := impassesOfEntries_eq_nil_iff es path locks.search
    rw [impasses, walkable_directory_iff, ← hes]
    cases Path.fault? path with
    | some cause => simp
    | none =>
      cases above with
      | some cause => simp [isDirectory]
      | none =>
        cases locks.read with
        | some cause => simp
        | none => simp

theorem impassesOfEntries_eq_nil_iff : ∀ (es : List (String × FileTree)) (path : String)
    (above : Option OsError), impassesOfEntries es path above = [] ↔ ∀ e ∈ es,
      (e.2.isDirectory = true → above = none) ∧ e.2.Walkable (Path.below path e.1)
  | [], _, _ => by simp [impassesOfEntries]
  | (name, t) :: es, path, above => by
    rw [impassesOfEntries, List.append_eq_nil_iff, List.map_eq_nil_iff, List.forall_mem_cons,
      impasses_eq_nil_iff t _ above, impassesOfEntries_eq_nil_iff es path above]

end

/-- A file that cannot be read does not stop a walk, and what cannot be gone through does. -/
example : (directory [("1.md", .file [] { read := some .permissionDenied }),
    ("a", .directory [("x", .directory [])] { search := some .permissionDenied }),
    ("b", .directory [] { read := some .permissionDenied })]).impasses "content" none =
      [(["a", "x"], .permissionDenied), (["b"], .permissionDenied)] := by
  decide +kernel

theorem walkable_iff {t : FileTree} : t.Walkable path ↔ t.impasses path none = [] := by
  simp [impasses_eq_nil_iff]

instance (t : FileTree) (path : String) : Decidable (t.Walkable path) :=
  decidable_of_iff _ walkable_iff.symm

theorem impasse?_eq_none_iff {t : FileTree} : t.impasse? path = none ↔ t.Walkable path := by
  have hperm := List.mergeSort_perm (t.impasses path none) fun a b => walkedFirst a.1 b.1
  rw [impasse?, List.head?_eq_none_iff, ← List.length_eq_zero_iff, hperm.length_eq,
    List.length_eq_zero_iff, walkable_iff]

theorem walkedFirst_cons {a b : String} {as bs : List String} :
    walkedFirst (a :: as) (b :: bs) = true ↔ a < b ∨ a = b ∧ walkedFirst as bs = true := by
  rw [walkedFirst]
  by_cases h : a = b
  · simp [h]
  · simp [h]

theorem walkedFirst_trans : ∀ as bs cs : List String, walkedFirst as bs = true →
    walkedFirst bs cs = true → walkedFirst as cs = true
  | [], _, _, _, _ => by simp [walkedFirst]
  | _ :: _, [], _, h, _ => by simp [walkedFirst] at h
  | _ :: _, _ :: _, [], _, h => by simp [walkedFirst] at h
  | a :: as, b :: bs, c :: cs, hab, hbc => by
    rw [walkedFirst_cons] at hab hbc ⊢
    rcases hab with hab | ⟨rfl, hab⟩
    · rcases hbc with hbc | ⟨rfl, _⟩
      · exact .inl (hab.trans hbc)
      · exact .inl hab
    · rcases hbc with hbc | ⟨rfl, hbc⟩
      · exact .inl hbc
      · exact .inr ⟨rfl, walkedFirst_trans as bs cs hab hbc⟩

theorem walkedFirst_total : ∀ as bs : List String,
    walkedFirst as bs = true ∨ walkedFirst bs as = true
  | [], _ => by simp [walkedFirst]
  | _ :: _, [] => by simp [walkedFirst]
  | a :: as, b :: bs => by
    rw [walkedFirst_cons, walkedFirst_cons]
    rcases lt_trichotomy a b with h | rfl | h
    · exact .inl (.inl h)
    · rcases walkedFirst_total as bs with h | h
      · exact .inl (.inr ⟨rfl, h⟩)
      · exact .inr (.inr ⟨rfl, h⟩)
    · exact .inr (.inl h)

/-- Of the directories that cannot be listed, a walk ends at the one that it comes to first. -/
theorem impasse?_eq_some {t : FileTree} {i : List String × OsError}
    (h : t.impasse? path = some i) : i ∈ t.impasses path none ∧
      ∀ j ∈ t.impasses path none, walkedFirst i.1 j.1 = true := by
  obtain ⟨rest, hsorted⟩ := List.head?_eq_some_iff.mp h
  have hmem : ∀ j, j ∈ i :: rest ↔ j ∈ t.impasses path none := by
    intro j
    rw [← hsorted]
    exact List.mem_mergeSort
  have hpairwise : (i :: rest).Pairwise fun a b => walkedFirst a.1 b.1 = true := by
    rw [← hsorted]
    exact List.pairwise_mergeSort (fun a b c => walkedFirst_trans a.1 b.1 c.1)
      (fun a b => by simpa using walkedFirst_total a.1 b.1) _
  refine ⟨(hmem i).mp List.mem_cons_self, fun j hj => ?_⟩
  rcases List.mem_cons.mp ((hmem j).mpr hj) with rfl | hj
  · simpa using walkedFirst_total j.1 j.1
  · exact (List.pairwise_cons.mp hpairwise).1 j hj

end SiteContent.FileTree
