import SiteContent.Command.Run
import SiteContent.Proofs.FileWriting
import SiteContent.Proofs.Loading

/-! What the exit status of a validation tells. It is zero exactly if the run could be carried out
and every content file satisfies the collections that claim it; files that no collection claims do
not count. The report is printed and kept whatever it says. -/

namespace SiteContent

section Results

variable {α β ε : Type} {f : α → Except ε β} {as : List α} {bs : List β}

theorem mapM_cons_eq_ok_iff {a : α} : (a :: as).mapM f = .ok bs ↔
    ∃ b rest, f a = .ok b ∧ as.mapM f = .ok rest ∧ bs = b :: rest := by
  rw [List.mapM_cons]
  cases f a with
  | error e => simp [bind, Except.bind]
  | ok b =>
    cases as.mapM f with
    | error e => simp [bind, Except.bind]
    | ok rest =>
      simp only [bind, Except.bind, pure, Except.pure, Except.ok.injEq, exists_and_left,
        exists_eq_left']
      exact eq_comm

theorem exists_mapM_eq_ok_iff :
    (∃ bs, as.mapM f = .ok bs) ↔ ∀ a ∈ as, ∃ b, f a = .ok b := by
  induction as with
  | nil => simp [pure, Except.pure]
  | cons a as ih =>
    simp only [mapM_cons_eq_ok_iff, List.forall_mem_cons, ← ih]
    constructor
    · rintro ⟨_, b, rest, hb, hrest, rfl⟩
      exact ⟨⟨b, hb⟩, rest, hrest⟩
    · rintro ⟨⟨b, hb⟩, rest, hrest⟩
      exact ⟨_, b, rest, hb, hrest, rfl⟩

theorem mem_of_mapM_eq_ok (h : as.mapM f = .ok bs) {b : β} :
    b ∈ bs ↔ ∃ a ∈ as, f a = .ok b := by
  induction as generalizing bs with
  | nil =>
    obtain rfl : [] = bs := Except.ok.inj h
    simp
  | cons a as ih =>
    obtain ⟨b', rest, hb', hrest, rfl⟩ := mapM_cons_eq_ok_iff.mp h
    simp [ih hrest, hb', eq_comm]

theorem errors_eq_nil_iff {rs : List (Except ε α)} :
    errors rs = [] ↔ ∀ r ∈ rs, ∃ a, r = .ok a := by
  induction rs with
  | nil => simp [errors]
  | cons r rs ih =>
    cases r with
    | ok a => simpa [errors] using ih
    | error e => simp [errors]

end Results

/-- The format in which the file at a path is read. -/
def FileFormat.ofPath (path : String) : FileFormat :=
  ((Path.extension? path).bind ofExtension?).getD .markdown

/-- The file at a path is a text of its format whose header a collection accepts. -/
def Collection.Admits (c : Collection) (policy : Policy) (fs : FileSystem) (path : String) :
    Prop :=
  ∃ bytes text parsed d, fs.read path = .ok bytes ∧ Text.decodeUtf8 bytes = .ok text ∧
    (FileFormat.ofPath path).parse text = .ok parsed ∧ c.validate policy parsed.header = .ok d

/-- A path leads from the content directory to a file that counts as content. -/
structure Configuration.Discovers (conf : Configuration) (fs : FileSystem) (path : String) :
    Prop where
  file : ∃ t ns, fs.directory? conf.contentDir = some t ∧ ns ∈ t.files ∧ Path.join ns = path
  extension : ∃ e, Path.extension? path = some e ∧ conf.isContentExtension e = true
  included : ∀ pattern ∈ conf.exclude, ∀ g, Glob.compile pattern = .ok g → g.isMatch path = false

namespace Loader

variable {r : Registry} {conf : Configuration} {l : Loader} {fs : FileSystem} {p : String}
  {c : Collection} {paths : List String}

theorem exists_new_iff : (∃ l, new r conf = .ok l) ↔
    (∀ name ∈ conf.collections, ∃ c ∈ r.collections, c.name = name) ∧
      ∀ pattern ∈ conf.exclude, ∃ g, Glob.compile pattern = .ok g := by
  have hfind : (conf.collections.find? fun name => !r.contains name) = none ↔
      ∀ name ∈ conf.collections, ∃ c ∈ r.collections, c.name = name := by
    simp [Registry.contains, Registry.names]
  rw [← hfind, ← exists_mapM_eq_ok_iff, new]
  cases conf.collections.find? fun name => !r.contains name with
  | some name => simp
  | none =>
    rw [Configuration.exclusions]
    cases conf.exclude.mapM Glob.compile with
    | error e => simp
    | ok globs => simp

theorem exclusions_of_new (h : new r conf = .ok l) : conf.exclusions = .ok l.excluded := by
  rw [new] at h
  split at h
  · cases h
  · split at h
    · rename_i globs hglobs
      obtain rfl := Except.ok.inj h
      exact hglobs
    · cases h

theorem isExcluded_eq_false_iff (h : new r conf = .ok l) : l.isExcluded p = false ↔
    ∀ pattern ∈ conf.exclude, ∀ g, Glob.compile pattern = .ok g → g.isMatch p = false := by
  have hmem := fun g => mem_of_mapM_eq_ok (exclusions_of_new h) (b := g)
  simp only [isExcluded, List.any_eq_false, hmem, Bool.not_eq_true]
  exact ⟨fun hall pattern hp g hg => hall g ⟨pattern, hp, hg⟩,
    fun hall g ⟨pattern, hp, hg⟩ => hall pattern hp g hg⟩

theorem exists_discover_iff : (∃ paths, l.discover fs = .ok paths) ↔
    ∃ t, fs.directory? l.configuration.contentDir = some t ∧
      t.Walkable l.configuration.contentDir := by
  rw [discover]
  cases fs.directory? l.configuration.contentDir with
  | none => simp
  | some t =>
    have hwalk := @FileTree.impasse?_eq_none_iff l.configuration.contentDir t
    cases hi : t.impasse? l.configuration.contentDir with
    | none => simp [← hwalk, hi]
    | some i => simp [← hwalk, hi]

theorem mem_discover_iff (h : new r conf = .ok l) (hp : l.discover fs = .ok paths) :
    p ∈ paths ↔ conf.Discovers fs p := by
  obtain ⟨rfl, rfl⟩ := new_eq_ok h
  obtain ⟨t, ht, _, rfl⟩ := discover_eq_ok hp
  have hextension : (Path.extension? p).any l.configuration.isContentExtension = true ↔
      ∃ e, Path.extension? p = some e ∧ l.configuration.isContentExtension e = true := by
    cases Path.extension? p <;> simp
  rw [List.mem_mergeSort, List.mem_filter, isContent, Bool.and_eq_true, hextension,
    Bool.not_eq_true', isExcluded_eq_false_iff h, List.mem_map]
  constructor
  · rintro ⟨⟨ns, hns, hjoin⟩, hext, hincluded⟩
    exact ⟨⟨t, ns, ht, hns, hjoin⟩, hext, hincluded⟩
  · rintro ⟨⟨t', ns, ht', hns, hjoin⟩, hext, hincluded⟩
    obtain rfl := Option.some.inj (ht.symm.trans ht')
    exact ⟨⟨ns, hns, hjoin⟩, hext, hincluded⟩

theorem exists_validate_iff (hc : c ∈ l.registry.collections) (path shown : String) :
    (∃ a, l.validate c.name (.read fs path shown) = .ok a) ↔
      c.Admits l.configuration.unknownFields fs path := by
  have hformat : (ContentFile.read fs path shown).format = FileFormat.ofPath path := rfl
  have hvalidate : ∀ v, l.registry.validate c.name l.configuration.unknownFields v =
      c.validate l.configuration.unknownFields v := by
    intro v
    rw [Registry.validate, Registry.get?_name hc]
  rw [validate, hformat, Collection.Admits, ContentFile.read]
  cases hread : fs.read path with
  | error e => simp
  | ok bytes =>
    cases htext : Text.decodeUtf8 bytes with
    | error e => simp [htext]
    | ok text =>
      cases hparsed : (FileFormat.ofPath path).parse text with
      | error e => simp [htext, hparsed]
      | ok parsed =>
        cases hd : c.validate l.configuration.unknownFields parsed.header with
        | error ds => simp [htext, hparsed, hvalidate, hd]
        | ok d => simp [htext, hparsed, hvalidate, hd]

theorem rejected_eq_nil_iff : (l.outcome fs paths).rejected = [] ↔
    ∀ p ∈ paths, ∀ c ∈ l.registry.collections, c.isMatch p = true →
      l.configuration.isEnabled c.name = true →
        c.Admits l.configuration.unknownFields fs (l.place p) := by
  rw [outcome_eq]
  have hperm := List.mergeSort_perm (errors (paths.flatMap (l.loadFile fs)))
    fun a b => entryLe (a.path, a.collection) (b.path, b.collection)
  have hnil : (errors (paths.flatMap (l.loadFile fs))).mergeSort
      (fun a b => entryLe (a.path, a.collection) (b.path, b.collection)) = [] ↔
        errors (paths.flatMap (l.loadFile fs)) = [] := by
    constructor
    · intro he
      exact List.perm_nil.mp (he ▸ hperm.symm)
    · intro he
      exact List.perm_nil.mp (he ▸ hperm)
  rw [hnil, errors_eq_nil_iff]
  simp only [List.forall_mem_flatMap, loadFile, List.forall_mem_map, mem_collectionsFor]
  refine forall_congr' fun p => forall_congr' fun _ => forall_congr' fun c => ?_
  constructor
  · intro hall hc hmatch henabled
    exact (exists_validate_iff hc _ _).mp (hall ⟨hc, hmatch, henabled⟩)
  · rintro hall ⟨hc, hmatch, henabled⟩
    exact (exists_validate_iff hc _ _).mpr (hall hc hmatch henabled)

end Loader

namespace Command

variable {machine : Machine} {fs : FileSystem} {now : String} {o : ValidateOptions}
  {conf : Configuration} {report : Report} {l : Loader} {paths : List String}

/-- What a validation needs is there: a configuration, with the options over it, that names
registered collections and well-formed patterns, and a content directory that can be walked. -/
structure Loads (fs : FileSystem) (o : ValidateOptions) (conf : Configuration) : Prop where
  configured : ∃ c, configuration fs o.configFile = .ok c ∧ o.apply c = conf
  registered : ∀ name ∈ conf.collections, ∃ c ∈ Site.collections, c.name = name
  well_formed : ∀ pattern ∈ conf.exclude, ∃ g, Glob.compile pattern = .ok g
  directory : ∃ t, fs.directory? conf.contentDir = some t ∧ t.Walkable conf.contentDir

/-- The machine starts the threads that a validation asks for to check the files. -/
def PoolStarts (machine : Machine) (fs : FileSystem) (o : ValidateOptions) : Prop :=
  ∀ conf l paths, Loads fs o conf → Loader.new .site conf = .ok l → l.discover fs = .ok paths →
    machine.start (l.jobs machine paths.length) = .ok ()

/-- The exit status of a validation is right, and so is what it prints and keeps. -/
structure Tells (machine : Machine) (fs : FileSystem) (now : String) (o : ValidateOptions)
    (run : Result) : Prop where
  success_iff : run.exitCode = 0 ↔ ∃ conf, Loads fs o conf ∧
    (∀ path, o.reportFile = some path → fs.Writable path) ∧
    ∀ path, conf.Discovers fs path → ∀ c ∈ Site.collections, c.isMatch path = true →
      conf.isEnabled c.name = true →
        c.Admits conf.unknownFields fs (Path.below conf.contentDir path)
  failure : run.exitCode ≠ 0 → run.exitCode = 1
  reported : ∀ conf, Loads fs o conf → ∃ l outcome, Loader.new Registry.site conf = .ok l ∧
    l.load machine fs = .ok outcome ∧
    run.stdout = endLine (Output.report (.ofOutcome now conf.contentDir outcome)
      (o.format.getD .text)) ∧
    ∀ path, o.reportFile = some path → fs.Writable path → run.files.content? path =
      some (Output.report (.ofOutcome now conf.contentDir outcome)
        (reportFormat path)).toUTF8.toList

/-- Without a configuration file and options, all that is needed is the standard directory. -/
theorem loads_standard {t : FileTree} (hfile : fs.isFile standardConfigFile = false)
    (hnone : o.configFile = none) (happly : o.apply {} = {})
    (ht : fs.directory? "content" = some t) (hwalk : t.Walkable "content") : Loads fs o {} := by
  constructor
  case configured => exact ⟨{}, by simp [configuration, hnone, hfile], happly⟩
  case registered => simp
  case well_formed => simp
  case directory => exact ⟨t, ht, hwalk⟩

theorem Loads.eq {conf' : Configuration} (h' : Loads fs o conf') (h : Loads fs o conf) :
    conf' = conf := by
  obtain ⟨c, hc, rfl⟩ := h.configured
  obtain ⟨c', hc', rfl⟩ := h'.configured
  obtain rfl := Except.ok.inj (hc.symm.trans hc')
  rfl

/-- Where no number of threads is asked for, any machine that has a few will do. -/
theorem Loads.poolStarts_ofLimit {limit : Nat} (h : Loads fs o conf) (hjobs : conf.jobs = none)
    (hlimit : 16 ≤ limit) : PoolStarts (.ofLimit limit) fs o := by
  intro conf' l paths h' hl _
  refine Loader.start_ofLimit ?_ hlimit _
  rw [(Loader.new_eq_ok hl).2, h'.eq h, hjobs]

theorem Loads.exists_discover (h : Loads fs o conf) : ∃ l paths,
    Loader.new Registry.site conf = .ok l ∧ l.discover fs = .ok paths := by
  obtain ⟨l, hl⟩ := (Loader.exists_new_iff (r := .site)).mpr ⟨h.registered, h.well_formed⟩
  obtain ⟨paths, hpaths⟩ := Loader.exists_discover_iff.mpr
    (by rw [(Loader.new_eq_ok hl).2]; exact h.directory)
  exact ⟨l, paths, hl, hpaths⟩

theorem PoolStarts.load_eq (hpool : PoolStarts machine fs o) (h : Loads fs o conf)
    (hl : Loader.new Registry.site conf = .ok l) (hpaths : l.discover fs = .ok paths) :
    l.load machine fs = .ok (l.outcome fs paths) := by
  rw [Loader.load_eq hpaths, Loader.startPool, hpool conf l paths h hl hpaths]
  rfl

theorem validationReport_eq
    (h : ∃ c, configuration fs o.configFile = .ok c ∧ o.apply c = conf)
    (hl : Loader.new Registry.site conf = .ok l) : validationReport machine fs now o =
      ((l.load machine fs).mapError LoadError.message).map (.ofOutcome now conf.contentDir) := by
  obtain ⟨c, hc, rfl⟩ := h
  rw [validationReport, hc]
  simp only [bind, Except.bind, hl, Except.mapError, (Loader.new_eq_ok hl).2]
  cases l.load machine fs with
  | error e => rfl
  | ok outcome => rfl

theorem exists_loads (h : validationReport machine fs now o = .ok report) :
    ∃ conf, Loads fs o conf := by
  rw [validationReport] at h
  cases hc : configuration fs o.configFile with
  | error e => simp [hc, bind, Except.bind] at h
  | ok c =>
    simp only [hc, bind, Except.bind] at h
    cases hl : Loader.new Registry.site (o.apply c) with
    | error e => simp [hl, Except.mapError] at h
    | ok l =>
      simp only [hl, Except.mapError] at h
      obtain ⟨hregistered, hwell⟩ := Loader.exists_new_iff.mp ⟨l, hl⟩
      have hdirectory : ∃ t, fs.directory? l.configuration.contentDir = some t ∧
          t.Walkable l.configuration.contentDir := by
        cases hp : l.discover fs with
        | error e => simp [Loader.load, hp, bind, Except.bind] at h
        | ok paths => exact Loader.exists_discover_iff.mp ⟨paths, hp⟩
      rw [(Loader.new_eq_ok hl).2] at hdirectory
      exact ⟨_, ⟨c, hc, rfl⟩, hregistered, hwell, hdirectory⟩

theorem runValidate_of_error {message : String}
    (h : validationReport machine fs now o = .error message) :
    runValidate machine fs now o = fail fs "" message := by
  rw [runValidate, h]

theorem runValidate_of_load_error {e : LoadError}
    (h : ∃ c, configuration fs o.configFile = .ok c ∧ o.apply c = conf)
    (hl : Loader.new Registry.site conf = .ok l) (he : l.load machine fs = .error e) :
    runValidate machine fs now o = fail fs "" e.message := by
  apply runValidate_of_error
  rw [validationReport_eq h hl, he]
  rfl

/-- Without the threads nothing is checked, and the run fails. -/
theorem runValidate_of_start_error {message : String} (h : Loads fs o conf)
    (hl : Loader.new Registry.site conf = .ok l) (hpaths : l.discover fs = .ok paths)
    (hstart : machine.start (l.jobs machine paths.length) = .error message) :
    runValidate machine fs now o = fail fs "" ("thread pool error: " ++ message) := by
  refine runValidate_of_load_error h.configured hl (e := .threadPool message) ?_
  rw [Loader.load_eq hpaths, Loader.startPool, hstart]
  rfl

/-- A run whose content directory cannot be walked fails, and names the first directory on the way
that cannot be listed. -/
theorem runValidate_of_not_walkable {t : FileTree}
    (h : ∃ c, configuration fs o.configFile = .ok c ∧ o.apply c = conf)
    (hl : Loader.new Registry.site conf = .ok l) (ht : fs.directory? conf.contentDir = some t)
    (hnot : ¬ t.Walkable conf.contentDir) : ∃ names cause,
      (names, cause) ∈ t.impasses conf.contentDir none ∧
      (∀ i ∈ t.impasses conf.contentDir none, FileTree.walkedFirst names i.1 = true) ∧
      runValidate machine fs now o = fail fs "" ("I/O error: IO error for operation on " ++
        names.foldl Path.below conf.contentDir ++ ": " ++ cause.message) := by
  cases hi : t.impasse? conf.contentDir with
  | none => exact absurd (FileTree.impasse?_eq_none_iff.mp hi) hnot
  | some i =>
    obtain ⟨names, cause⟩ := i
    obtain ⟨hmem, hfirst⟩ := FileTree.impasse?_eq_some hi
    refine ⟨names, cause, hmem, hfirst, ?_⟩
    have hdiscover : l.discover fs =
        .error (.walk (names.foldl Path.below conf.contentDir) cause) := by
      simp only [Loader.discover, (Loader.new_eq_ok hl).2, ht, hi]
    have hload : l.load machine fs =
        .error (.walk (names.foldl Path.below conf.contentDir) cause) := by
      simp only [Loader.load, hdiscover, bind, Except.bind]
    exact runValidate_of_load_error (e := .walk _ cause) h hl hload

/-- The file system after a report was to be kept. -/
def kept (fs : FileSystem) (o : ValidateOptions) (report : Report) : Except String FileSystem :=
  match o.reportFile with
  | none => .ok fs
  | some path =>
    (fs.write path (Output.report report (reportFormat path)).toUTF8.toList).mapError fun e =>
      "Failed to write '" ++ path ++ "': " ++ e.message

theorem kept_cases (fs : FileSystem) (o : ValidateOptions) (report : Report) :
    (∃ files, kept fs o report = .ok files ∧ ∀ path, o.reportFile = some path →
      fs.Writable path ∧
        files.content? path = some (Output.report report (reportFormat path)).toUTF8.toList) ∨
    ∃ message path, kept fs o report = .error message ∧ o.reportFile = some path ∧
      ¬ fs.Writable path := by
  rw [kept]
  cases hfile : o.reportFile with
  | none => exact .inl ⟨fs, rfl, fun path he => by cases he⟩
  | some path =>
    dsimp only
    cases hw : fs.write path (Output.report report (reportFormat path)).toUTF8.toList with
    | ok files =>
      refine .inl ⟨files, rfl, fun path' he => ?_⟩
      obtain rfl := Option.some.inj he
      exact ⟨⟨_, files, hw⟩, FileSystem.content?_write hw⟩
    | error e =>
      refine .inr ⟨_, path, rfl, rfl, fun hwritable => ?_⟩
      obtain ⟨files, hfiles⟩ := hwritable.exists_write
        (Output.report report (reportFormat path)).toUTF8.toList
      cases hw.symm.trans hfiles

/-- The end of a run whose report was kept, or could not be. -/
def concluded (fs : FileSystem) (o : ValidateOptions) (report : Report) :
    Except String FileSystem → Result
  | .error message => fail fs (endLine (Output.report report (o.format.getD .text))) message
  | .ok files =>
    if report.isSuccess then
      succeed files (endLine (Output.report report (o.format.getD .text)))
    else
      fail files (endLine (Output.report report (o.format.getD .text)))
        (toString report.summary.invalid ++ " of " ++ toString report.summary.total ++
          " document(s) failed validation")

theorem runValidate_eq_concluded (h : validationReport machine fs now o = .ok report) :
    runValidate machine fs now o = concluded fs o report (kept fs o report) := by
  rw [runValidate, h]
  rfl

theorem runValidate_of_ok (h : validationReport machine fs now o = .ok report) :
    ∃ code message files, runValidate machine fs now o =
        ⟨code, endLine (Output.report report (o.format.getD .text)), message, files⟩ ∧
      (code = 0 ∨ code = 1) ∧
      (code = 0 ↔ (∀ path, o.reportFile = some path → fs.Writable path) ∧
        report.summary.invalid = 0) ∧
      ∀ path, o.reportFile = some path → fs.Writable path →
        files.content? path =
          some (Output.report report (reportFormat path)).toUTF8.toList := by
  rw [runValidate_eq_concluded h]
  rcases kept_cases fs o report with ⟨files, hkept, hfile⟩ | ⟨message, path, hkept, hpath, hnot⟩
  · rw [hkept]
    have hwritable : ∀ path, o.reportFile = some path → fs.Writable path :=
      fun path hpath => (hfile path hpath).1
    by_cases hs : report.isSuccess = true
    · have hinvalid : report.summary.invalid = 0 := by simpa [Report.isSuccess] using hs
      exact ⟨0, "", files, if_pos hs, .inl rfl, ⟨fun _ => ⟨hwritable, hinvalid⟩, fun _ => rfl⟩,
        fun path hpath _ => (hfile path hpath).2⟩
    · have hinvalid : report.summary.invalid ≠ 0 := by simpa [Report.isSuccess] using hs
      exact ⟨1, _, files, if_neg hs, .inr rfl, by simp [hinvalid],
        fun path hpath _ => (hfile path hpath).2⟩
  · rw [hkept]
    refine ⟨1, _, fs, rfl, .inr rfl, ?_, fun path' hpath' hw => ?_⟩
    · simp only [one_ne_zero, false_iff, not_and]
      exact fun hall => absurd (hall path hpath) hnot
    · obtain rfl := Option.some.inj (hpath.symm.trans hpath')
      exact absurd hw hnot

/-- The exit status of a validation tells the truth. -/
theorem validate_tells {args : List String} (h : parse args = .ok (.validate o))
    (hpool : PoolStarts machine fs o) :
    Tells machine fs now o (runArguments machine fs now args) := by
  have hrun : runArguments machine fs now args = runValidate machine fs now o := by
    rw [runArguments, h]
    rfl
  rw [hrun]
  by_cases hloads : ∃ conf, Loads fs o conf
  · obtain ⟨conf, hconf⟩ := hloads
    obtain ⟨l, paths, hl, hpaths⟩ := hconf.exists_discover
    have hload := hpool.load_eq hconf hl hpaths
    have hreport : validationReport machine fs now o =
        .ok (.ofOutcome now conf.contentDir (l.outcome fs paths)) := by
      rw [validationReport_eq hconf.configured hl, hload]
      rfl
    obtain ⟨code, message, files, hresult, hcode, hzero, hfile⟩ := runValidate_of_ok hreport
    have hinvalid : (Report.ofOutcome now conf.contentDir
        (l.outcome fs paths)).summary.invalid = 0 ↔
        ∀ path, conf.Discovers fs path → ∀ c ∈ Site.collections, c.isMatch path = true →
          conf.isEnabled c.name = true →
            c.Admits conf.unknownFields fs (Path.below conf.contentDir path) := by
      have hrejected : (l.outcome fs paths).rejected = [] ↔ _ := Loader.rejected_eq_nil_iff
      obtain ⟨hregistry, hconfiguration⟩ := Loader.new_eq_ok hl
      simp only [Loader.mem_discover_iff hl hpaths, hregistry, hconfiguration, Loader.place]
        at hrejected
      rw [← List.length_eq_zero_iff] at hrejected
      exact hrejected
    rw [hresult]
    constructor
    case success_iff =>
      rw [hzero, hinvalid]
      constructor
      · exact fun hall => ⟨conf, hconf, hall⟩
      · rintro ⟨conf', h', hall⟩
        obtain rfl := h'.eq hconf
        exact hall
    case failure => exact fun hne => hcode.resolve_left hne
    case reported =>
      intro conf' h'
      obtain rfl := h'.eq hconf
      exact ⟨l, _, hl, hload, rfl, hfile⟩
  · cases hreport : validationReport machine fs now o with
    | ok report => exact absurd (exists_loads hreport) hloads
    | error message =>
      rw [runValidate_of_error hreport]
      constructor
      case success_iff =>
        simp only [fail, one_ne_zero, false_iff]
        rintro ⟨conf, hconf, _⟩
        exact hloads ⟨conf, hconf⟩
      case failure => exact fun _ => rfl
      case reported => exact fun conf hconf => absurd ⟨conf, hconf⟩ hloads

/-- A page lacks its fields, and a note beside it belongs to no collection: the run fails because of
the page, and its report is kept. -/
theorem validate_tells_invalid_page : ∃ (machine : Machine) (fs : FileSystem) (args : List String)
    (o : ValidateOptions) (run : Result), parse args = .ok (.validate o) ∧
      PoolStarts machine fs o ∧ runArguments machine fs "" args = run ∧
      Tells machine fs "" o run ∧ run.exitCode = 1 ∧
      ∃ content, run.files.content? "report.json" = some content := by
  let content : FileTree := .directory [("index.md", .file []), ("notes.md", .file [])]
  let fs : FileSystem := ⟨.directory [("content", content)], []⟩
  let args := ["validate", "--report=report.json"]
  let o : ValidateOptions := { reportFile := some "report.json" }
  have hparse : parse args = .ok (.validate o) := by decide +kernel
  have hdirectory : fs.directory? "content" = some content := rfl
  have hloads : Loads fs o {} :=
    loads_standard (by decide +kernel) rfl rfl hdirectory (by decide +kernel)
  have hpool : PoolStarts (.ofLimit 64) fs o := hloads.poolStarts_ofLimit rfl (by decide)
  have htells : Tells (.ofLimit 64) fs "" o (runArguments (.ofLimit 64) fs "" args) :=
    validate_tells hparse hpool
  have hwritable : fs.Writable "report.json" := ⟨[], _, rfl⟩
  refine ⟨.ofLimit 64, fs, args, o, _, hparse, hpool, rfl, htells,
    htells.failure fun hzero => ?_, ?_⟩
  · obtain ⟨conf, hconf, _, hall⟩ := htells.success_iff.mp hzero
    obtain rfl := hconf.eq hloads
    have hdiscovers : Configuration.Discovers {} fs "index.md" := by
      constructor
      case file => exact ⟨content, ["index.md"], hdirectory, by decide, rfl⟩
      case extension => exact ⟨"md", by decide +kernel, by decide +kernel⟩
      case included => simp
    obtain ⟨bytes, text, parsed, d, hread, htext, hparsed, hd⟩ :=
      hall "index.md" hdiscovers Site.landing List.mem_cons_self (by decide +kernel) rfl
    obtain rfl : [] = bytes := Except.ok.inj hread
    obtain rfl : "" = text := Except.ok.inj htext
    have hformat : FileFormat.ofPath "content/index.md" = .markdown := by decide +kernel
    have hheader : FileFormat.markdown.parse "" = .ok ⟨.obj [], some ""⟩ := rfl
    have hplace : Path.below ({} : Configuration).contentDir "index.md" = "content/index.md" := rfl
    rw [hplace, hformat, hheader] at hparsed
    obtain rfl := Except.ok.inj hparsed
    cases hd
  · obtain ⟨_, _, _, _, _, hkept⟩ := htells.reported {} hloads
    exact ⟨_, hkept "report.json" rfl hwritable⟩

end Command

end SiteContent
