import SiteContent.Proofs.FilePaths
import SiteContent.Proofs.Reading

/-! Writing a file: whether it can be written does not depend on what is written, and what was
written at a path is in the file there. Directories stay what they were. -/

namespace SiteContent

namespace Dict

variable {α : Type} {d : Dict α} {key other : String} {v : α}

theorem contains_insert (h : contains d other = true) : contains (d.insert key v) other = true := by
  rw [contains] at h ⊢
  by_cases hk : key = other
  · subst hk
    simp [get?_insert_self]
  · rwa [get?_insert_of_ne d v hk]

end Dict

namespace FileTree

variable {t new : FileTree} {p q : List String} {es : List (String × FileTree)} {locks : Locks}

theorem get?_append (t : FileTree) (p q : List String) :
    t.get? (p ++ q) = (t.get? p).bind fun below => below.get? q := by
  induction p generalizing t with
  | nil => rfl
  | cons name p ih =>
    rw [List.cons_append, get?, get?]
    cases t.entries.get? name with
    | none => rfl
    | some below => exact ih below

theorem get?_put_self (t : FileTree) (p : List String) (new : FileTree) :
    (t.put p new).get? p = some new := by
  induction p generalizing t with
  | nil => rfl
  | cons name p ih =>
    rw [put, get?, entries, Dict.get?_insert_self]
    exact ih _

/-- A directory keeps its entries and locks when something is put where no directory is. -/
theorem exists_get?_put (hp : ∀ ds own, t.get? p ≠ some (.directory ds own))
    (hq : t.get? q = some (.directory es locks)) : ∃ es',
      (t.put p new).get? q = some (.directory es' locks) ∧
        ∀ key, Dict.contains es key = true → Dict.contains es' key = true := by
  induction p generalizing t q with
  | nil =>
    cases t with
    | directory ds own => exact absurd rfl (hp ds own)
    | file content own =>
      cases q with
      | nil => cases hq
      | cons name q => simp [get?, entries] at hq
  | cons name p ih =>
    cases q with
    | nil =>
      obtain rfl := Option.some.inj hq
      exact ⟨_, rfl, fun key h => Dict.contains_insert h⟩
    | cons name' q =>
      rw [get?, Option.bind_eq_some_iff] at hq
      obtain ⟨below, hbelow, hq⟩ := hq
      rw [put, get?, entries]
      by_cases hname : name = name'
      · subst hname
        rw [Dict.get?_insert_self, Option.bind_some, hbelow]
        refine ih (fun ds own hds => hp ds own ?_) hq
        rw [get?, hbelow]
        exact hds
      · rw [Dict.get?_insert_of_ne _ _ hname, hbelow]
        exact ⟨es, hq, fun _ => id⟩

end FileTree

namespace FileSystem

variable {fs files : FileSystem} {path part name : String} {here below : List String}
  {content : List UInt8} {es : List (String × FileTree)} {locks : Locks}

/-- Whatever is at a place in one file system, the directories at it are in the other one too, with
the same locks, the same names and perhaps more. -/
def Extends (files fs : FileSystem) : Prop :=
  ∀ q es locks, fs.root.get? q = some (.directory es locks) → ∃ es',
    files.root.get? q = some (.directory es' locks) ∧
      ∀ key, Dict.contains es key = true → Dict.contains es' key = true

theorem Extends.step (h : files.Extends fs) (hs : fs.step here part = .ok below) :
    files.step here part = .ok below := by
  rw [FileSystem.step] at hs ⊢
  cases hg : fs.root.get? here with
  | none => simp [hg] at hs
  | some t =>
    cases t with
    | file _ _ => simp [hg] at hs
    | directory es locks =>
      obtain ⟨es', hg', hkeys⟩ := h here es locks hg
      rw [hg] at hs
      rw [hg']
      dsimp only at hs ⊢
      cases hlock : locks.search with
      | some cause =>
        rw [hlock] at hs
        exact hs
      | none =>
        rw [hlock] at hs
        dsimp only at hs ⊢
        by_cases hin : Dict.contains es part = true
        · simpa only [hin, hkeys part hin] using hs
        · simp only [hin, Bool.false_eq_true, if_false] at hs
          split_ifs at hs ⊢
          · exact hs
          · exact hs
          · exact hs

theorem Extends.foldlM_step {parts : List String} (h : files.Extends fs)
    (hs : parts.foldlM fs.step here = .ok below) : parts.foldlM files.step here = .ok below := by
  induction parts generalizing here with
  | nil => exact hs
  | cons part parts ih =>
    rw [List.foldlM_cons] at hs ⊢
    cases hstep : fs.step here part with
    | error e => simp [hstep, bind, Except.bind] at hs
    | ok next =>
      rw [hstep] at hs
      rw [h.step hstep]
      exact ih hs

/-- A file can be written under a name that a directory can have, if it has no directory of it. -/
theorem writeFault?_eq_none (h : writeFault? es locks name = none) : locks.search = none ∧
    Path.isIdle name = false ∧ name ≠ ".." ∧ Path.isOverlong name = false ∧
      ∀ ds own, Dict.get? es name ≠ some (.directory ds own) := by
  obtain ⟨hsearch, h⟩ := Option.or_eq_none_iff.mp h
  split_ifs at h with hup hlong
  obtain ⟨hidle, hup⟩ : Path.isIdle name = false ∧ name ≠ ".." := by simpa using hup
  refine ⟨hsearch, hidle, hup, by simpa using hlong, fun ds own hds => ?_⟩
  rw [hds] at h
  cases h

theorem write_eq_ok (h : fs.write path content = .ok files) : ∃ above name here es locks,
    Path.fault? path = none ∧ parent path = (above, name) ∧
      above.foldlM fs.step (fs.start path) = .ok here ∧
      fs.root.get? here = some (.directory es locks) ∧ writeFault? es locks name = none ∧
      ∃ own, files = { fs with root := fs.root.put (here ++ [name]) (.file content own) } := by
  rw [write] at h
  cases hfault : Path.fault? path with
  | some e => simp [hfault] at h
  | none =>
    rcases hparent : parent path with ⟨above, name⟩
    simp only [hfault, hparent] at h
    cases hhere : above.foldlM fs.step (fs.start path) with
    | error e => simp [hhere, bind, Except.bind] at h
    | ok here =>
      simp only [hhere, bind, Except.bind] at h
      cases hg : fs.root.get? here with
      | none => simp [hg] at h
      | some t =>
        cases t with
        | file _ _ => simp [hg] at h
        | directory es locks =>
          simp only [hg] at h
          cases hname : writeFault? es locks name with
          | some e => simp [hname] at h
          | none =>
            simp only [hname] at h
            exact ⟨above, name, here, es, locks, rfl, rfl, hhere, hg, hname, _,
              (Except.ok.inj h).symm⟩

theorem parts_of_parent {above : List String} (h : parent path = (above, name))
    (hname : Path.isIdle name = false) : Path.parts path = above ++ [name] := by
  rw [parent] at h
  split at h
  · obtain ⟨rfl, rfl⟩ := Prod.mk.inj h
    have hne : Path.parts path ≠ [] := by
      intro hnil
      simp [hnil, Path.isIdle] at hname
    rw [List.getLastD_eq_getLast?, List.getLast?_eq_some_getLast hne]
    exact (List.dropLast_append_getLast hne).symm
  · obtain ⟨_, rfl⟩ := Prod.mk.inj h
    cases hname

theorem content?_write (h : fs.write path content = .ok files) :
    files.content? path = some content := by
  obtain ⟨above, name, here, es, locks, hfault, hparent, habove, hg, hname, own, rfl⟩ :=
    write_eq_ok h
  obtain ⟨hsearch, hidle, hup, hlong, hfree⟩ := writeFault?_eq_none hname
  let files : FileSystem := { fs with root := fs.root.put (here ++ [name]) (.file content own) }
  have hbelow : files.root.get? (here ++ [name]) = some (.file content own) :=
    FileTree.get?_put_self _ _ _
  -- The directories on the way have not gone, and the last of them has the new name.
  have hextends : files.Extends fs := by
    refine fun q ds locks hq => FileTree.exists_get?_put (fun ds' own' hds' => hfree ds' own' ?_) hq
    rw [FileTree.get?_append, hg] at hds'
    simpa [FileTree.get?, FileTree.entries] using hds'
  obtain ⟨es', hes', _⟩ := hextends here es locks hg
  have hin : Dict.get? es' name = some (.file content own) := by
    rw [FileTree.get?_append, hes'] at hbelow
    simpa [FileTree.get?, FileTree.entries] using hbelow
  obtain ⟨hempty, hdot⟩ : name ≠ "" ∧ name ≠ "." := by simpa [Path.isIdle] using hidle
  have hlast : files.step here name = .ok (here ++ [name]) := by
    simp [step, hes', hsearch, hempty, hdot, hup, hlong, Dict.contains, hin]
  have hlocate : files.locate path = .ok (here ++ [name]) := by
    have hstart : files.start path = fs.start path := rfl
    rw [locate, hfault, parts_of_parent hparent hidle]
    dsimp only
    rw [List.foldlM_append, hstart, hextends.foldlM_step habove]
    simp [bind, Except.bind, hlast, pure, Except.pure]
  change files.content? path = some content
  simp [content?, lookup, hlocate, hbelow, bind, Except.bind]

def Writable (fs : FileSystem) (path : String) : Prop :=
  ∃ content files, fs.write path content = .ok files

theorem Writable.exists_write (h : fs.Writable path) (content : List UInt8) :
    ∃ files, fs.write path content = .ok files := by
  obtain ⟨_, _, h⟩ := h
  obtain ⟨above, name, here, es, locks, hfault, hparent, habove, hg, hname, _, _⟩ := write_eq_ok h
  rw [write, hfault]
  simp [hparent, habove, hg, hname, bind, Except.bind]

end FileSystem

end SiteContent
