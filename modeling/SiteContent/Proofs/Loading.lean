import Mathlib.Data.Prod.Lex
import Mathlib.Data.String.Basic
import SiteContent.Loading.Loader
import SiteContent.Proofs.Conformance
import SiteContent.Proofs.FilePaths
import SiteContent.Proofs.Walking

/-! What becomes of the files of a content directory: every file has one result for each enabled
collection that claims it, or is unmatched, and nothing else is in the outcome. -/

namespace SiteContent

section Keys

variable {α β : Type} {as : List α} (key : α → β)

/-- The same elements sorted by a key; elements of one key stay in their order. -/
structure StablySorted [LinearOrder β] (as bs : List α) : Prop where
  perm : bs.Perm as
  sorted : bs.Pairwise fun a b => key a ≤ key b
  stable : ∀ k, bs.filter (fun a => key a = k) = as.filter fun a => key a = k

theorem stablySorted_mergeSort [LinearOrder β] {le : α → α → Bool}
    (hle : ∀ a b, le a b = true ↔ key a ≤ key b) (as : List α) :
    StablySorted key as (as.mergeSort le) := by
  have htrans : ∀ a b c, le a b = true → le b c = true → le a c = true :=
    fun a b c => by simpa only [hle] using le_trans
  have htotal : ∀ a b, (le a b || le b a) = true :=
    fun a b => by simpa only [Bool.or_eq_true, hle] using le_total (key a) (key b)
  have hperm := as.mergeSort_perm le
  constructor
  case perm => exact hperm
  case sorted => exact (List.pairwise_mergeSort htrans htotal as).imp (hle _ _).mp
  case stable =>
    intro k
    have hties : (as.filter fun a => key a = k).Pairwise fun a b => le a b = true := by
      refine List.pairwise_of_forall_mem_list fun a ha b hb => ?_
      simp only [List.mem_filter, decide_eq_true_eq] at ha hb
      exact (hle a b).mpr (ha.2.trans hb.2.symm).le
    -- Elements of one key are sorted among themselves, so sorting keeps the list of them.
    have hsub := (List.sublist_mergeSort htrans htotal hties List.filter_sublist).filter
      fun a => key a = k
    rw [List.filter_filter] at hsub
    simp only [Bool.and_self] at hsub
    exact (hsub.eq_of_length (hperm.filter _).length_eq.symm).symm

/-- Sorting by keys that are all different leaves them strictly increasing. -/
theorem pairwise_lt_mergeSort [LinearOrder β] {le : α → α → Bool}
    (hle : ∀ a b, le a b = true ↔ key a ≤ key b) (h : (as.map key).Nodup) :
    (as.mergeSort le).Pairwise fun a b => key a < key b := by
  have hsorted := (stablySorted_mergeSort key hle as).sorted
  have hdistinct : (as.mergeSort le).Pairwise fun a b => key a ≠ key b :=
    List.pairwise_map.mp (((as.mergeSort_perm le).map key).nodup_iff.mpr h)
  exact (hsorted.and hdistinct).imp fun hab => lt_of_le_of_ne hab.1 hab.2

theorem filter_key_eq [DecidableEq β] {a : α} (h : (as.map key).Nodup) (ha : a ∈ as) :
    as.filter (fun b => key b = key a) = [a] := by
  induction as with
  | nil => simp at ha
  | cons b bs ih =>
    obtain ⟨hb, hbs⟩ := List.nodup_cons.mp h
    have hnew : ∀ c ∈ bs, key c ≠ key b := fun c hc he => hb (he ▸ List.mem_map.mpr ⟨c, hc, rfl⟩)
    rcases List.mem_cons.mp ha with rfl | ha
    · have hrest : bs.filter (fun c => key c = key a) = [] :=
        List.filter_eq_nil_iff.mpr fun c hc => by simpa using hnew c hc
      simp [hrest]
    · simp [(hnew a ha).symm, ih hbs ha]

end Keys

theorem entryLe_iff {a b : String × String} : entryLe a b = true ↔ toLex a ≤ toLex b := by
  simp [entryLe, Prod.Lex.toLex_le_toLex]

section Results

variable {α ε : Type}

def oks (rs : List (Except ε α)) : List α :=
  rs.filterMap fun r => match r with | .ok a => some a | .error _ => none

def errors (rs : List (Except ε α)) : List ε :=
  rs.filterMap fun r => match r with | .error e => some e | .ok _ => none

theorem perm_oks_append_errors (rs : List (Except ε α)) :
    ((oks rs).map .ok ++ (errors rs).map .error : List (Except ε α)).Perm rs := by
  induction rs with
  | nil => exact .nil
  | cons r rs ih =>
    cases r with
    | ok a => exact ih.cons _
    | error e => exact List.perm_middle.trans (ih.cons _)

end Results

theorem Registry.get?_name {r : Registry} {c : Collection} (hc : c ∈ r.collections) :
    r.get? c.name = some c :=
  Names.find?_of_nodup r.distinct hc

namespace Machine

/-- A machine with so many threads, and no more for one program. -/
def ofLimit (limit : Nat) : Machine where
  parallelism := some limit
  start n :=
    if n ≤ limit then .ok () else .error "Resource temporarily unavailable (os error 11)"

/-- Unless told otherwise, a run takes few threads. -/
theorem standardJobs_le (m : Machine) (files : Nat) : m.standardJobs files ≤ 16 := by
  rw [standardJobs]
  omega

end Machine

namespace Outcome

/-- The results for files, of either sort. -/
def entries (o : Outcome) : List (Except Rejected Accepted) :=
  o.accepted.map .ok ++ o.rejected.map .error

/-- The path and the collection that a result is about. -/
def subject : Except Rejected Accepted → String × String
  | .ok a => (a.path, a.collection)
  | .error r => (r.path, r.collection)

end Outcome

namespace Loader

open Outcome (subject)

variable {l : Loader} {machine : Machine} {fs : FileSystem} {p : String} {c : Collection}
  {paths : List String}

theorem subject_validate (hc : c ∈ l.registry.collections) (file : ContentFile) :
    subject (l.validate c.name file) = (file.path, c.name) := by
  rw [validate]
  split
  · rfl
  · split
    · rfl
    · split
      · rename_i d hd
        rw [Registry.validate, Registry.get?_name hc] at hd
        obtain ⟨_, rfl⟩ := Collection.validate_eq_ok_iff.mp hd
        rfl
      · rfl

theorem mem_collectionsFor : c ∈ l.collectionsFor p ↔
    c ∈ l.registry.collections ∧ c.isMatch p = true ∧
      l.configuration.isEnabled c.name = true := by
  simp only [collectionsFor, Registry.claiming, List.mem_filter, and_assoc]

theorem subjects_loadFile : (l.loadFile fs p).map subject =
    (l.collectionsFor p).map fun c => (p, c.name) := by
  rw [loadFile, List.map_map]
  exact List.map_congr_left fun c hc => subject_validate (mem_collectionsFor.mp hc).1 _

theorem nodup_subjects (h : paths.Nodup) :
    ((paths.flatMap (l.loadFile fs)).map subject).Nodup := by
  simp only [List.map_flatMap, subjects_loadFile, List.nodup_flatMap]
  constructor
  · intro p _
    have hnames : ((l.collectionsFor p).map fun c => c.name).Nodup :=
      l.registry.distinct.sublist ((List.filter_sublist.trans List.filter_sublist).map _)
    have hpairs := hnames.map (Prod.mk_right_injective p)
    rwa [List.map_map] at hpairs
  · refine h.imp fun {p q} hne s hp hq => hne ?_
    obtain ⟨_, _, rfl⟩ := List.mem_map.mp hp
    obtain ⟨_, _, he⟩ := List.mem_map.mp hq
    exact (Prod.mk.inj he).1.symm

/-- Once the paths are there, only the threads are between a run and its outcome. -/
theorem load_eq (h : l.discover fs = .ok paths) : l.load machine fs =
    (l.startPool machine paths.length).map fun _ => l.outcome fs paths := by
  rw [load, h]
  cases hstart : l.startPool machine paths.length with
  | error e => simp [bind, Except.bind, hstart, Except.map]
  | ok _ => simp [bind, Except.bind, hstart, Except.map, pure, Except.pure]

theorem outcome_eq : l.outcome fs paths =
    { accepted := (oks (paths.flatMap (l.loadFile fs))).mergeSort fun a b =>
        entryLe (a.path, a.collection) (b.path, b.collection)
      rejected := (errors (paths.flatMap (l.loadFile fs))).mergeSort fun a b =>
        entryLe (a.path, a.collection) (b.path, b.collection)
      unmatched := paths.filter fun p => (l.collectionsFor p).isEmpty } := by
  rw [outcome]
  congr 2
  · exact List.filterMap_congr fun r _ => by cases r <;> rfl
  · exact List.filterMap_congr fun r _ => by cases r <;> rfl

theorem perm_entries (l : Loader) (fs : FileSystem) (paths : List String) :
    (l.outcome fs paths).entries.Perm (paths.flatMap (l.loadFile fs)) := by
  rw [outcome_eq]
  refine List.Perm.trans ?_ (perm_oks_append_errors _)
  exact ((List.mergeSort_perm _ _).map _).append ((List.mergeSort_perm _ _).map _)

theorem discover_eq_ok (h : l.discover fs = .ok paths) : ∃ t,
    fs.directory? l.configuration.contentDir = some t ∧
      t.impasse? l.configuration.contentDir = none ∧
      paths = ((t.files.map Path.join).filter l.isContent).mergeSort fun a b => decide (a ≤ b) := by
  rw [discover] at h
  cases ht : fs.directory? l.configuration.contentDir with
  | none => simp [ht] at h
  | some t =>
    rw [ht] at h
    cases hi : t.impasse? l.configuration.contentDir with
    | some i => simp [hi] at h
    | none =>
      simp only [hi, Except.ok.injEq] at h
      exact ⟨t, rfl, hi, h.symm⟩

theorem pairwise_lt_discover (h : l.discover fs = .ok paths) (hfs : fs.root.Proper) :
    paths.Pairwise (· < ·) := by
  obtain ⟨t, ht, _, rfl⟩ := discover_eq_ok h
  obtain ⟨names, es, locks, hg, rfl⟩ := FileSystem.directory?_eq_some ht
  refine pairwise_lt_mergeSort id (fun a b => decide_eq_true_iff) ?_
  rw [List.map_id]
  exact (hfs.get? hg).nodup_paths.filter _

theorem start_ofLimit {limit : Nat} (h : l.configuration.jobs = none) (hlimit : 16 ≤ limit)
    (files : Nat) : (Machine.ofLimit limit).start (l.jobs (.ofLimit limit) files) = .ok () := by
  have hjobs : l.jobs (.ofLimit limit) files ≤ 16 := by
    rw [jobs, h]
    exact Machine.standardJobs_le _ _
  exact if_pos (hjobs.trans hlimit)

theorem check_eq (hc : c ∈ l.registry.collections) (p shown : String) :
    l.check fs c.name p shown = .ok (l.validate c.name (.read fs p shown)) := by
  rw [check, Registry.get?_name hc]

end Loader

/-- The outcome of a run over the files of some paths: what each enabled collection says of each
file that it claims, once, with the files that no such collection claims, and nothing else. -/
structure Outcome.Accounts (r : Registry) (conf : Configuration) (l : Loader) (fs : FileSystem)
    (paths : List String) (o : Outcome) : Prop where
  checked : ∀ p ∈ paths, ∀ c ∈ r.collections, c.isMatch p = true → conf.isEnabled c.name = true →
    ∃ e, l.check fs c.name (l.place p) p = .ok e ∧
      o.entries.filter (fun e' => subject e' = (p, c.name)) = [e]
  only : ∀ e ∈ o.entries, ∃ p ∈ paths, ∃ c ∈ r.collections, c.isMatch p = true ∧
    conf.isEnabled c.name = true ∧ subject e = (p, c.name)
  unmatched : ∀ p, o.unmatched.count p = if p ∈ paths ∧ ∀ c ∈ r.collections,
    c.isMatch p = true → conf.isEnabled c.name = false then 1 else 0
  accepted_sorted : o.accepted.Pairwise fun a b =>
    toLex (a.path, a.collection) < toLex (b.path, b.collection)
  rejected_sorted : o.rejected.Pairwise fun a b =>
    toLex (a.path, a.collection) < toLex (b.path, b.collection)
  unmatched_sorted : o.unmatched.Pairwise (· < ·)

namespace Loader

open Outcome (subject)

variable {r : Registry} {conf : Configuration} {l : Loader} {fs : FileSystem} {p : String}
  {paths : List String}

theorem new_eq_ok (h : new r conf = .ok l) : l.registry = r ∧ l.configuration = conf := by
  rw [new] at h
  split at h
  · cases h
  · split at h
    · obtain rfl := Except.ok.inj h
      exact ⟨rfl, rfl⟩
    · cases h

theorem collectionsFor_eq_nil : l.collectionsFor p = [] ↔ ∀ c ∈ l.registry.collections,
    c.isMatch p = true → l.configuration.isEnabled c.name = false := by
  simp [List.eq_nil_iff_forall_not_mem, mem_collectionsFor]

theorem accounts_outcome (hsorted : paths.Pairwise (· < ·)) :
    (l.outcome fs paths).Accounts l.registry l.configuration l fs paths := by
  have hd : paths.Nodup := hsorted.imp ne_of_lt
  have hperm := perm_entries l fs paths
  have hsubjects := (hperm.map subject).nodup_iff.mpr (nodup_subjects hd)
  rw [outcome_eq] at hperm hsubjects ⊢
  have hresults := (perm_oks_append_errors (paths.flatMap (l.loadFile fs))).map subject
  have hsplit := hresults.nodup_iff.mpr (nodup_subjects hd)
  rw [List.map_append, List.nodup_append, List.map_map, List.map_map] at hsplit
  constructor
  case checked =>
    intro p hp c hc hmatch henabled
    have he : l.validate c.name (.read fs (l.place p) p) ∈ l.loadFile fs p :=
      List.mem_map.mpr ⟨c, mem_collectionsFor.mpr ⟨hc, hmatch, henabled⟩, rfl⟩
    refine ⟨_, check_eq hc _ _, ?_⟩
    rw [← filter_key_eq subject hsubjects (hperm.mem_iff.mpr (List.mem_flatMap.mpr ⟨p, hp, he⟩)),
      subject_validate hc]
    rfl
  case only =>
    intro e he
    obtain ⟨p, hp, he⟩ := List.mem_flatMap.mp (hperm.mem_iff.mp he)
    obtain ⟨c, hc, rfl⟩ := List.mem_map.mp he
    obtain ⟨hregistered, hmatch, henabled⟩ := mem_collectionsFor.mp hc
    exact ⟨p, hp, c, hregistered, hmatch, henabled, subject_validate hregistered _⟩
  case unmatched =>
    intro p
    rw [(hd.filter _).count]
    simp only [List.mem_filter, List.isEmpty_iff, collectionsFor_eq_nil]
  case accepted_sorted => exact pairwise_lt_mergeSort _ (fun a b => entryLe_iff) hsplit.1
  case rejected_sorted => exact pairwise_lt_mergeSort _ (fun a b => entryLe_iff) hsplit.2.1
  case unmatched_sorted => exact hsorted.filter _

/-- A run loses no file and duplicates none. -/
theorem exists_load_accounts (hnew : new r conf = .ok l) (hfs : fs.root.Proper)
    (h : l.discover fs = .ok paths) :
    ∃ o, (∀ machine, l.load machine fs = (l.startPool machine paths.length).map fun _ => o) ∧
      o.Accounts r conf l fs paths := by
  obtain ⟨rfl, rfl⟩ := new_eq_ok hnew
  exact ⟨_, fun _ => load_eq h, accounts_outcome (pairwise_lt_discover h hfs)⟩

/-- Two collections claim one file of the directory, and none the other. -/
theorem exists_load_accounts_overlapping : ∃ (r : Registry) (conf : Configuration) (l : Loader)
    (fs : FileSystem) (o : Outcome), new r conf = .ok l ∧ fs.root.Proper ∧
      l.discover fs = .ok ["a.md", "b.yml"] ∧ (l.collectionsFor "a.md").length = 2 ∧
      l.collectionsFor "b.yml" = [] ∧ l.load (.ofLimit 64) fs = .ok o ∧
      o.Accounts r conf l fs ["a.md", "b.yml"] := by
  let pages : Collection :=
    ⟨⟨"pages", .page, ⟨Site.glob "*.md" (by decide), []⟩, .ofList [], []⟩, rfl⟩
  let drafts : Collection :=
    ⟨⟨"drafts", .page, ⟨Site.glob "a*" (by decide), []⟩, .ofList [], []⟩, rfl⟩
  let r : Registry := ⟨[pages, drafts], by decide⟩
  let files : FileTree := .directory [("a.md", .file []), ("b.yml", .file [])]
  let fs : FileSystem := ⟨.directory [("content", files)], []⟩
  let l : Loader := ⟨r, {}, []⟩
  have hnew : new r {} = .ok l := rfl
  have hfs : fs.root.Proper := by simp [fs, files, FileTree.Proper, FileTree.ProperEntries]
  have hcontent : (files.files.map Path.join).filter l.isContent = ["a.md", "b.yml"] := by
    decide +kernel
  have hdiscover : l.discover fs = .ok ["a.md", "b.yml"] := by
    have hdir : l.configuration.contentDir = "content" := rfl
    have hfiles : fs.directory? "content" = some files := rfl
    have himpasse : files.impasse? "content" = none :=
      FileTree.impasse?_eq_none_iff.mpr (by decide +kernel)
    rw [discover, hdir, hfiles]
    dsimp only
    rw [himpasse]
    dsimp only
    rw [hcontent, List.mergeSort_of_pairwise (by decide)]
  obtain ⟨o, ho, haccounts⟩ := exists_load_accounts hnew hfs hdiscover
  exact ⟨r, {}, l, fs, o, hnew, hfs, hdiscover, by decide +kernel, by decide +kernel,
    ho (.ofLimit 64), haccounts⟩

end Loader

end SiteContent
