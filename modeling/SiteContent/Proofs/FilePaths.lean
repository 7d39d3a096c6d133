import Mathlib.Data.List.Nodup
import SiteContent.FileSystem

/-! The paths of the files of a tree. As no directory has two entries of one name, and as no name
has a slash, no two files have the same path. -/

namespace SiteContent

namespace FileTree

mutual

/-- The entries of each directory have distinct names, without slashes. -/
def Proper : FileTree → Prop
  | .file _ _ => True
  | .directory es _ => (es.map (·.1)).Nodup ∧ ProperEntries es

def ProperEntries : List (String × FileTree) → Prop
  | [] => True
  | (name, t) :: es => '/' ∉ name.toList ∧ t.Proper ∧ ProperEntries es

end

theorem ProperEntries.entry {es : Dict FileTree} {name : String} {t : FileTree}
    (h : ProperEntries es) (ht : es.get? name = some t) : t.Proper := by
  induction es with
  | nil => simp [Dict.get?] at ht
  | cons e es ih =>
    obtain ⟨_, he, hrest⟩ := h
    rw [Dict.get?] at ht
    split at ht
    · exact Option.some.inj ht ▸ he
    · exact ih hrest ht

theorem Proper.get? {t below : FileTree} (h : t.Proper) {names : List String}
    (hb : t.get? names = some below) : below.Proper := by
  induction names generalizing t with
  | nil => exact Option.some.inj hb ▸ h
  | cons name rest ih =>
    rw [FileTree.get?, Option.bind_eq_some_iff] at hb
    obtain ⟨u, hu, hrest⟩ := hb
    cases t with
    | file _ _ => simp [entries, Dict.get?] at hu
    | directory es _ => exact ih (h.2.entry hu) hrest

theorem exists_of_mem_filesOfEntries {es : List (String × FileTree)} {ns : List String}
    (h : ns ∈ filesOfEntries es) : ∃ e ∈ es, ∃ rest ∈ e.2.files, ns = e.1 :: rest := by
  induction es with
  | nil => simp [filesOfEntries] at h
  | cons e es ih =>
    rcases List.mem_append.mp h with h | h
    · obtain ⟨rest, hrest, rfl⟩ := List.mem_map.mp h
      exact ⟨e, List.mem_cons_self, rest, hrest, rfl⟩
    · obtain ⟨e', he, hrest⟩ := ih h
      exact ⟨e', List.mem_cons_of_mem _ he, hrest⟩

mutual

theorem nodup_files : ∀ t : FileTree, t.Proper → t.files.Nodup
  | .file _ _, _ => List.nodup_singleton _
  | .directory es _, h => nodup_filesOfEntries es h.1 h.2

theorem nodup_filesOfEntries : ∀ es : List (String × FileTree), (es.map (·.1)).Nodup →
    ProperEntries es → (filesOfEntries es).Nodup
  | [], _, _ => List.nodup_nil
  | (name, t) :: es, hnames, ⟨_, ht, hes⟩ => by
    obtain ⟨hnew, hnames⟩ := List.nodup_cons.mp hnames
    refine List.nodup_append.mpr ⟨?_, nodup_filesOfEntries es hnames hes, ?_⟩
    · exact (nodup_files t ht).map fun _ _ he => (List.cons.inj he).2
    · rintro a ha b hb rfl
      obtain ⟨_, _, rfl⟩ := List.mem_map.mp ha
      obtain ⟨e, he, _, _, heq⟩ := exists_of_mem_filesOfEntries hb
      exact hnew (List.mem_map.mpr ⟨e, he, (List.cons.inj heq).1.symm⟩)

end

mutual

theorem slashless_files : ∀ t : FileTree, t.Proper → ∀ ns ∈ t.files, ∀ n ∈ ns, '/' ∉ n.toList
  | .file _ _, _ => by simp [files]
  | .directory es _, h => slashless_filesOfEntries es h.2

theorem slashless_filesOfEntries : ∀ es : List (String × FileTree), ProperEntries es →
    ∀ ns ∈ filesOfEntries es, ∀ n ∈ ns, '/' ∉ n.toList
  | [], _ => by simp [filesOfEntries]
  | (name, t) :: es, ⟨hname, ht, hes⟩ => by
    intro ns hns n hn
    rcases List.mem_append.mp hns with hns | hns
    · obtain ⟨rest, hrest, rfl⟩ := List.mem_map.mp hns
      rcases List.mem_cons.mp hn with rfl | hn
      · exact hname
      · exact slashless_files t ht rest hrest n hn
    · exact slashless_filesOfEntries es hes ns hns n hn

end

end FileTree

namespace Path

theorem parts_join {names : List String} (hne : names ≠ [])
    (hnames : ∀ n ∈ names, '/' ∉ n.toList) : parts (join names) = names := by
  have hsplit : (join names).toList.splitOn '/' = names.map String.toList := by
    rw [join, String.toList_intercalate]
    exact List.splitOn_intercalate '/' (by simpa using hnames) (by simpa using hne)
  rw [parts, hsplit, List.map_map]
  exact List.map_id'' (fun n => String.ofList_toList) names

theorem join_injOn {as bs : List String} (ha : as ≠ []) (hb : bs ≠ [])
    (has : ∀ n ∈ as, '/' ∉ n.toList) (hbs : ∀ n ∈ bs, '/' ∉ n.toList)
    (h : join as = join bs) : as = bs := by
  rw [← parts_join ha has, ← parts_join hb hbs, h]

end Path

theorem FileTree.Proper.nodup_paths {es : List (String × FileTree)} {locks : Locks}
    (h : (FileTree.directory es locks).Proper) :
    ((FileTree.directory es locks).files.map Path.join).Nodup := by
  -- A file below a directory has a name, so that its path tells its names.
  have hne : ∀ ns ∈ (FileTree.directory es locks).files, ns ≠ [] := by
    rintro ns hns rfl
    obtain ⟨_, _, _, _, he⟩ := exists_of_mem_filesOfEntries hns
    cases he
  have hslash := slashless_files _ h
  refine (nodup_files _ h).map_on fun as ha bs hb he => ?_
  exact Path.join_injOn (hne as ha) (hne bs hb) (hslash as ha) (hslash bs hb) he

theorem FileSystem.directory?_eq_some {fs : FileSystem} {path : String} {t : FileTree}
    (h : fs.directory? path = some t) :
    ∃ names es locks, fs.root.get? names = some t ∧ t = .directory es locks := by
  rw [directory?, lookup] at h
  cases hl : fs.locate path with
  | error e => simp [hl, bind, Except.bind] at h
  | ok names =>
    cases hg : fs.root.get? names with
    | none => simp [hl, hg, bind, Except.bind] at h
    | some below =>
      cases below with
      | file _ _ => simp [hl, hg, bind, Except.bind] at h
      | directory es locks =>
        simp only [hl, hg, bind, Except.bind, Option.some.injEq] at h
        exact ⟨names, es, locks, h ▸ hg, h.symm⟩

end SiteContent
