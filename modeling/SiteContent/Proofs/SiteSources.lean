import SiteContent.Proofs.Loading
import SiteContent.Proofs.PathText
import SiteContent.Proofs.PlainPatterns

/-! Which files the collections of a site claim, told by their paths and not by patterns. No two of
them claim one file, so that a file of a content directory has one place in the outcome of a run. -/

namespace SiteContent

/-- A Markdown file that stands in a folder itself and not below it. -/
def PageIn (folder path : String) : Prop :=
  ∃ name : String, '/' ∉ name.toList ∧ ".md".toList <:+ name.toList ∧ path = folder ++ "/" ++ name

namespace PageIn

variable {folder folder' path : String}

theorem toList_eq {name : String} (h : path = folder ++ "/" ++ name) :
    path.toList = folder.toList ++ '/' :: name.toList := by
  simp [h]

theorem slash_mem (h : PageIn folder path) : '/' ∈ path.toList := by
  obtain ⟨name, _, _, hpath⟩ := h
  simp [toList_eq hpath]

/-- The folder is what stands before the last slash. -/
theorem folder_eq (h : PageIn folder path) (h' : PageIn folder' path) : folder = folder' := by
  obtain ⟨name, hname, _, hpath⟩ := h
  obtain ⟨name', hname', _, hpath'⟩ := h'
  have hchars := (toList_eq hpath).symm.trans (toList_eq hpath')
  exact String.toList_inj.mp (Location.append_mark_inj hname hname' hchars).1

end PageIn

theorem length_filter_le_one {α : Type} {p : α → Bool} {as : List α}
    (h : as.Pairwise fun a b => ¬ (p a = true ∧ p b = true)) : (as.filter p).length ≤ 1 := by
  induction as with
  | nil => simp
  | cons a as ih =>
    obtain ⟨ha, has⟩ := List.pairwise_cons.mp h
    by_cases hp : p a = true
    · have hrest : as.filter p = [] :=
        List.filter_eq_nil_iff.mpr fun b hb hpb => ha b hb ⟨hp, hpb⟩
      simp [hp, hrest]
    · simpa [hp] using ih has

namespace Glob

variable {g : Glob} {text folder : String}

theorem isMatch_iff_eq (hg : g.pieces = text.toList.map .literal) (path : String) :
    g.isMatch path = true ↔ path = text := by
  have hplain : ∀ p ∈ g.pieces, p.IsPlain := by simp [hg, Piece.IsPlain]
  rw [isMatch_iff_spells hplain, hg, spells_literals, String.toList_inj]

theorem isMatch_iff_pageIn (hg : g.pieces =
      (folder ++ "/").toList.map .literal ++ .run :: ".md".toList.map .literal) (path : String) :
    g.isMatch path = true ↔ PageIn folder path := by
  have hplain : ∀ p ∈ g.pieces, p.IsPlain := by
    intro p hp
    simp only [hg, List.mem_append, List.mem_map, List.mem_cons] at hp
    rcases hp with ⟨_, _, rfl⟩ | rfl | ⟨_, _, rfl⟩ <;> exact trivial
  rw [isMatch_iff_spells hplain, hg, spells_literals_append]
  simp only [spells_run, spells_literals]
  constructor
  · rintro ⟨_, hpath, stem, _, rfl, hstem, rfl⟩
    refine ⟨String.ofList (stem ++ ".md".toList), by simp [hstem], by simp, ?_⟩
    exact String.toList_inj.mp (by simp [hpath])
  · rintro ⟨name, hname, ⟨stem, hstem⟩, rfl⟩
    have hslash : '/' ∉ stem := fun h => hname (hstem ▸ List.mem_append_left _ h)
    exact ⟨name.toList, by simp, stem, _, hstem.symm, hslash, rfl⟩

end Glob

namespace Site

variable {path : String}

theorem landing_isMatch : landing.isMatch path = true ↔ path = "index.md" := by
  have hg : (glob "index.md" (by decide)).isMatch path = true ↔ path = "index.md" :=
    Glob.isMatch_iff_eq rfl path
  simpa [landing, Collection.isMatch, Source.isMatch] using hg

theorem posts_isMatch : posts.isMatch path = true ↔ PageIn "blog" path := by
  have hg : (glob "blog/*.md" (by decide)).isMatch path = true ↔ PageIn "blog" path :=
    Glob.isMatch_iff_pageIn rfl path
  simpa [posts, Collection.isMatch, Source.isMatch] using hg

theorem overview_isMatch : (glob "services/index.md" (by decide)).isMatch path = true ↔
    path = "services/index.md" :=
  Glob.isMatch_iff_eq rfl path

theorem services_isMatch : services.isMatch path = true ↔
    PageIn "services" path ∧ path ≠ "services/index.md" := by
  have hg : (glob "services/*.md" (by decide)).isMatch path = true ↔ PageIn "services" path :=
    Glob.isMatch_iff_pageIn rfl path
  have hoverview : (glob "services/index.md" (by decide)).isMatch path = true ↔
      path = "services/index.md" := overview_isMatch
  simp [services, Collection.isMatch, Source.isMatch, hg, ← hoverview]

theorem servicesIndex_isMatch : servicesIndex.isMatch path = true ↔ path = "services/index.md" := by
  simpa [servicesIndex, Collection.isMatch, Source.isMatch] using overview_isMatch

theorem overview_pageIn : PageIn "services" "services/index.md" :=
  ⟨"index.md", by decide, by decide, rfl⟩

/-- The collections exclude each other. -/
theorem pairwise_not_isMatch (path : String) : collections.Pairwise fun c d =>
    ¬ (c.isMatch path = true ∧ d.isMatch path = true) := by
  have hindex : ∀ {folder : String}, ¬ PageIn folder "index.md" :=
    fun h => absurd h.slash_mem (by decide)
  have hblog : ¬ (PageIn "blog" path ∧ PageIn "services" path) :=
    fun h => absurd (h.1.folder_eq h.2) (by decide)
  simp only [collections, List.pairwise_cons, List.forall_mem_cons, landing_isMatch, posts_isMatch,
    services_isMatch, servicesIndex_isMatch]
  refine ⟨⟨?_, ?_, ?_, by simp⟩, ⟨?_, ?_, by simp⟩, ⟨?_, by simp⟩, by simp, .nil⟩
  · rintro ⟨rfl, h⟩
    exact hindex h
  · rintro ⟨rfl, h, _⟩
    exact hindex h
  · rintro ⟨rfl, h⟩
    exact absurd h (by decide)
  · exact fun h => hblog ⟨h.1, h.2.1⟩
  · rintro ⟨h, rfl⟩
    exact hblog ⟨h, overview_pageIn⟩
  · exact fun h => h.1.2 h.2

theorem length_claiming_le_one (path : String) : (Registry.site.claiming path).length ≤ 1 :=
  length_filter_le_one (pairwise_not_isMatch path)

theorem length_claiming_eq_one_iff (path : String) :
    (Registry.site.claiming path).length = 1 ↔
      path = "index.md" ∨ PageIn "blog" path ∨ PageIn "services" path := by
  have hle := length_claiming_le_one path
  have hsome : (Registry.site.claiming path).length ≠ 0 ↔
      ∃ c ∈ collections, c.isMatch path = true := by
    rw [ne_eq, List.length_eq_zero_iff, Registry.claiming, List.filter_eq_nil_iff]
    simp [Registry.site]
  have hclaimed : (∃ c ∈ collections, c.isMatch path = true) ↔
      path = "index.md" ∨ PageIn "blog" path ∨ PageIn "services" path := by
    simp only [collections, List.mem_cons, List.not_mem_nil, or_false, exists_eq_or_imp,
      exists_eq_left, landing_isMatch, posts_isMatch, services_isMatch, servicesIndex_isMatch]
    -- The overview stands among the service pages.
    by_cases h : path = "services/index.md"
    · subst h
      simp [overview_pageIn]
    · simp [h]
  rw [← hclaimed, ← hsome]
  omega

end Site

namespace Loader

open Outcome (subject)

variable {l : Loader} {fs : FileSystem} {paths : List String}

theorem map_path_loadFile (path : String) : (l.loadFile fs path).map (fun e => (subject e).1) =
    List.replicate (l.collectionsFor path).length path := by
  have hsubjects : (l.loadFile fs path).map subject =
      (l.collectionsFor path).map fun c => (path, c.name) := subjects_loadFile
  have hpaths := congrArg (List.map Prod.fst) hsubjects
  simpa [List.map_map, Function.comp_def] using hpaths

/-- The results for a file are those of the collections that claim it. -/
theorem count_path_loadFile (hpaths : paths.Nodup) (path : String) :
    ((paths.flatMap (l.loadFile fs)).map fun e => (subject e).1).count path =
      if path ∈ paths then (l.collectionsFor path).length else 0 := by
  induction paths with
  | nil => rfl
  | cons p paths ih =>
    obtain ⟨hp, hpaths⟩ := List.nodup_cons.mp hpaths
    rw [List.flatMap_cons, List.map_append, List.count_append, map_path_loadFile, ih hpaths,
      List.count_replicate]
    by_cases heq : p = path
    · subst heq
      simp [hp]
    · simp [heq, Ne.symm heq]

theorem length_collectionsFor_le (l : Loader) (path : String) :
    (l.collectionsFor path).length ≤ (l.registry.claiming path).length :=
  List.length_filter_le _ _

theorem count_unmatched (hpaths : paths.Nodup) (path : String) :
    (l.outcome fs paths).unmatched.count path =
      if path ∈ paths ∧ (l.collectionsFor path).length = 0 then 1 else 0 := by
  rw [outcome_eq, (hpaths.filter _).count]
  simp only [List.mem_filter, List.isEmpty_iff, List.length_eq_zero_iff]

end Loader

open Outcome (subject) in
/-- A site's collections never claim a file twice. A run over a content directory therefore gives
each file one result, or finds that nothing claims it. -/
theorem Site.claims_once :
    (∀ path, (Registry.site.claiming path).length ≤ 1 ∧
      ((Registry.site.claiming path).length = 1 ↔
        path = "index.md" ∨ PageIn "blog" path ∨ PageIn "services" path)) ∧
    ∀ conf l fs paths, Loader.new .site conf = .ok l → fs.root.Proper →
      l.discover fs = .ok paths → ∃ o,
        (∀ machine, l.load machine fs = (l.startPool machine paths.length).map fun _ => o) ∧
        ∀ path, (o.entries.map fun e => (subject e).1).count path + o.unmatched.count path =
          if path ∈ paths then 1 else 0 := by
  refine ⟨fun path => ⟨length_claiming_le_one path, length_claiming_eq_one_iff path⟩, ?_⟩
  intro conf l fs paths hnew hfs hdiscover
  have hpaths : paths.Nodup := (Loader.pairwise_lt_discover hdiscover hfs).imp ne_of_lt
  refine ⟨_, fun _ => Loader.load_eq hdiscover, fun path => ?_⟩
  have hentries := ((Loader.perm_entries l fs paths).map fun e => (subject e).1).count_eq path
  have hle : (l.collectionsFor path).length ≤ 1 := by
    have hclaiming := l.length_collectionsFor_le path
    rw [(Loader.new_eq_ok hnew).1] at hclaiming
    exact hclaiming.trans (length_claiming_le_one path)
  rw [hentries, Loader.count_path_loadFile hpaths, Loader.count_unmatched hpaths]
  by_cases hpath : path ∈ paths
  · by_cases hnone : (l.collectionsFor path).length = 0
    · simp [hpath, hnone]
    · have hone : (l.collectionsFor path).length = 1 := by omega
      simp [hpath, hone]
  · simp [hpath]

/-- The overview stands beside the service pages, and a file in a folder of its own is no page. -/
theorem Site.claims_once_nested : ∃ (conf : Configuration) (l : Loader) (fs : FileSystem)
    (o : Outcome), Loader.new .site conf = .ok l ∧ fs.root.Proper ∧
      l.discover fs = .ok ["index.md", "services/index.md", "services/old/web.md"] ∧
      l.load (.ofLimit 64) fs = .ok o ∧
      (l.collectionsFor "services/index.md").length = 1 ∧
      l.collectionsFor "services/old/web.md" = [] ∧
      ∀ path, (o.entries.map fun e => (Outcome.subject e).1).count path +
        o.unmatched.count path =
          if path ∈ ["index.md", "services/index.md", "services/old/web.md"] then 1 else 0 := by
  let services : FileTree :=
    .directory [("index.md", .file []), ("old", .directory [("web.md", .file [])])]
  let files : FileTree := .directory [("index.md", .file []), ("services", services)]
  let fs : FileSystem := ⟨.directory [("content", files)], []⟩
  let l : Loader := ⟨.site, {}, []⟩
  have hnew : Loader.new .site {} = .ok l := rfl
  have hfs : fs.root.Proper := by
    simp [fs, files, services, FileTree.Proper, FileTree.ProperEntries]
  have hcontent : (files.files.map Path.join).filter l.isContent =
      ["index.md", "services/index.md", "services/old/web.md"] := by
    decide +kernel
  have hdiscover : l.discover fs =
      .ok ["index.md", "services/index.md", "services/old/web.md"] := by
    have hdir : l.configuration.contentDir = "content" := rfl
    have hfiles : fs.directory? "content" = some files := rfl
    have himpasse : files.impasse? "content" = none :=
      FileTree.impasse?_eq_none_iff.mpr (by decide +kernel)
    rw [Loader.discover, hdir, hfiles]
    dsimp only
    rw [himpasse]
    dsimp only
    rw [hcontent, List.mergeSort_of_pairwise (by decide)]
  obtain ⟨o, ho, hcount⟩ := claims_once.2 {} l fs _ hnew hfs hdiscover
  exact ⟨{}, l, fs, o, hnew, hfs, hdiscover, ho (.ofLimit 64), by decide +kernel,
    by decide +kernel, hcount⟩

end SiteContent
