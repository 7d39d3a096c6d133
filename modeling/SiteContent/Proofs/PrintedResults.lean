import SiteContent.Proofs.ExitStatus
import SiteContent.Proofs.ReportAccount

/-! What is printed for readers. A report prints each result as the check of its file does, in the
order of its entries, and then what was skipped and the counts. -/

namespace SiteContent

open Outcome (subject)

namespace Output

/-- How the line on a result begins. -/
def verdict : Except Rejected Accepted → String
  | .ok _ => "ok  "
  | .error _ => "FAIL"

/-- What is wrong with a file, one line for each fault. -/
def details : Except Rejected Accepted → List String
  | .ok _ => []
  | .error r =>
    match r.reason with
    | .invalid errors => errors.map ValidationError.render
    | reason => [reason.message]

/-- The lines on a result whose file is shown under a path. -/
def linesOn (path : String) (x : Except Rejected Accepted) : String :=
  fileLine (verdict x) path (subject x).2 ++ String.join ((details x).map detailLine)

variable {x : Except Rejected Accepted}

theorem check_text (x : Except Rejected Accepted) :
    check x .text = linesOn (subject x).1 x := by
  cases x with
  | ok a => simp [check, inFormat, linesOn, acceptedText, verdict, details, subject]
  | error r =>
    obtain ⟨path, collection, checksum, reason⟩ := r
    cases reason <;>
      simp [check, inFormat, linesOn, rejectedText, verdict, details, subject, Function.comp_def]

theorem entryText_eq {e : Report.Entry} (h : e.Tells x) : entryText e = check x .text := by
  have hunparsable : Report.Status.unparsable.literal ++ ": " = "unparsable: " := rfl
  have hunreadable : Report.Status.unreadable.literal ++ ": " = "unreadable: " := rfl
  cases h <;>
    simp [check, inFormat, acceptedText, rejectedText, entryText, Refusal.message, hunparsable,
      hunreadable]

theorem map_entryText {es : List Report.Entry} {xs : List (Except Rejected Accepted)}
    (h : List.Forall₂ Report.Entry.Tells es xs) :
    es.map entryText = xs.map fun x => check x .text := by
  rw [← List.forall₂_eq_eq_eq, List.forall₂_map_left_iff, List.forall₂_map_right_iff]
  exact h.imp fun _ _ => entryText_eq

/-- A text ends with a line break. -/
def EndsLine (s : String) : Prop :=
  s.toList.getLast? = some '\n'

theorem EndsLine.append {s t : String} (h : EndsLine t) : EndsLine (s ++ t) := by
  rw [EndsLine, String.toList_append, List.getLast?_append, h, Option.some_or]

theorem EndsLine.append_join {s : String} {ts : List String} (h : EndsLine s)
    (hts : ∀ t ∈ ts, EndsLine t) : EndsLine (s ++ String.join ts) := by
  induction ts generalizing s with
  | nil => simpa using h
  | cons t ts ih =>
    rw [String.join_cons, ← String.append_assoc]
    exact ih (hts t List.mem_cons_self).append fun u hu => hts u (List.mem_cons_of_mem _ hu)

theorem EndsLine.endLine_eq {s : String} (h : EndsLine s) : Command.endLine s = s := by
  rw [Command.endLine, h]
  rfl

theorem endsLine_break : EndsLine "\n" := rfl

theorem endsLine_linesOn (path : String) (x : Except Rejected Accepted) :
    EndsLine (linesOn path x) := by
  have hfile : EndsLine (fileLine (verdict x) path (subject x).2) :=
    EndsLine.append (t := ")\n") rfl
  refine hfile.append_join fun t ht => ?_
  obtain ⟨d, _, rfl⟩ := List.mem_map.mp ht
  exact endsLine_break.append

theorem endsLine_reportText (r : Report) : EndsLine (reportText r) :=
  EndsLine.append (EndsLine.append (t := " unmatched\n") rfl)

end Output

namespace Loader

variable {l l' : Loader} {fs : FileSystem}

/-- The path under which a file is shown has no part in what is said of it. -/
theorem linesOn_validate (hregistry : l'.registry = l.registry)
    (hpolicy : l'.configuration.unknownFields = l.configuration.unknownFields)
    (name path shown shown' heading : String) :
    Output.linesOn heading (l'.validate name (.read fs path shown')) =
      Output.linesOn heading (l.validate name (.read fs path shown)) := by
  have hcontent : (ContentFile.read fs path shown').content =
      (ContentFile.read fs path shown).content := rfl
  have hformat : (ContentFile.read fs path shown').format =
      (ContentFile.read fs path shown).format := rfl
  rw [validate, validate, hregistry, hpolicy, hcontent, hformat]
  cases (ContentFile.read fs path shown).content with
  | error message => rfl
  | ok read =>
    obtain ⟨text, sum⟩ := read
    dsimp only
    cases (ContentFile.read fs path shown).format.parse text with
    | error e => rfl
    | ok parsed =>
      dsimp only
      cases l.registry.validate name l.configuration.unknownFields parsed.header with
      | error ds => rfl
      | ok d => rfl

end Loader

namespace Command

variable {machine : Machine} {fs : FileSystem} {now : String} {o : ValidateOptions}
  {conf : Configuration} {c : Collection} {l : Loader} {paths : List String} {outcome : Outcome}
  {x : Except Rejected Accepted}

/-- The loader that checks single files. -/
def checker (policy : Policy) : Loader :=
  ⟨.site, { unknownFields := policy }, []⟩

theorem stdout_runCheck (hc : c ∈ Site.collections) (file : String) (policy : Policy) :
    (runCheck fs c.name file policy .text).stdout =
      Output.linesOn file ((checker policy).validate c.name (.read fs file file)) := by
  have hnew : Loader.new Registry.site { unknownFields := policy } = .ok (checker policy) := rfl
  have hcheck : (checker policy).check fs c.name file file =
      .ok ((checker policy).validate c.name (.read fs file file)) := Loader.check_eq hc file file
  have hsubject : subject ((checker policy).validate c.name (.read fs file file)) =
      (file, c.name) := Loader.subject_validate hc _
  have hstdout : (runCheck fs c.name file policy .text).stdout =
      endLine (Output.check ((checker policy).validate c.name (.read fs file file)) .text) := by
    rw [runCheck, hnew]
    simp only [bind, Except.bind, hcheck]
    cases (checker policy).validate c.name (.read fs file file) with
    | ok a => rfl
    | error r => rfl
  rw [hstdout, Output.check_text, hsubject]
  exact (Output.endsLine_linesOn _ _).endLine_eq

theorem stdout_runValidate (h : Loads fs o conf) (hformat : o.format.getD .text = .text)
    (hl : Loader.new Registry.site conf = .ok l) (houtcome : l.load machine fs = .ok outcome) :
    (runValidate machine fs now o).stdout =
      Output.report (.ofOutcome now conf.contentDir outcome) .text := by
  have hreport : validationReport machine fs now o =
      .ok (.ofOutcome now conf.contentDir outcome) := by
    rw [validationReport_eq h.configured hl, houtcome]
    rfl
  obtain ⟨_, _, _, hresult, _⟩ := runValidate_of_ok hreport
  rw [hresult, hformat]
  exact (Output.endsLine_reportText _).endLine_eq

/-- The check of a file prints what the report of a directory prints of it, under its full path. -/
theorem stdout_runCheck_of_mem (hl : Loader.new Registry.site conf = .ok l)
    (hx : x ∈ (l.outcome fs paths).entries) :
    (runCheck fs (subject x).2 (Path.below conf.contentDir (subject x).1) conf.unknownFields
        .text).stdout =
      Output.linesOn (Path.below conf.contentDir (subject x).1) x := by
  obtain ⟨hregistry, rfl⟩ := Loader.new_eq_ok hl
  have hmem := (Loader.perm_entries l fs paths).mem_iff.mp hx
  obtain ⟨p, _, hp⟩ := List.mem_flatMap.mp hmem
  obtain ⟨c, hc, rfl⟩ := List.mem_map.mp hp
  have hregistered := (Loader.mem_collectionsFor.mp hc).1
  have hsubject : subject (l.validate c.name (.read fs (l.place p) p)) = (p, c.name) :=
    Loader.subject_validate hregistered _
  have hsite : c ∈ Site.collections := by
    rw [hregistry] at hregistered
    exact hregistered
  have hsame : (checker l.configuration.unknownFields).registry = l.registry := hregistry.symm
  have hpolicy : (checker l.configuration.unknownFields).configuration.unknownFields =
      l.configuration.unknownFields := rfl
  rw [hsubject, stdout_runCheck hsite]
  exact Loader.linesOn_validate hsame hpolicy c.name (l.place p) p (l.place p) (l.place p)

/-- The text of a report consists of the texts of the checks of its results, in the order of its
entries. What a validation prints of a file, its check prints too, but for the path to the file. -/
theorem report_prints_checks :
    (∀ (now dir : String) (o : Outcome), ∃ xs,
      StablySorted (fun x => toLex (subject x)) o.entries xs ∧
      List.Forall₂ Report.Entry.Tells (Report.ofOutcome now dir o).entries xs ∧
      Output.report (.ofOutcome now dir o) .text =
        String.join (xs.map fun x => Output.check x .text) ++
          String.join (o.unmatched.map Output.skipLine) ++
          Output.summaryLine ⟨o.entries.length, o.accepted.length, o.rejected.length,
            o.unmatched.length⟩) ∧
    ∀ (fs : FileSystem) (now : String) (o : ValidateOptions) (conf : Configuration),
      Loads fs o conf → o.format.getD .text = .text → ∃ l outcome,
        Loader.new Registry.site conf = .ok l ∧
        (∀ machine, PoolStarts machine fs o → l.load machine fs = .ok outcome ∧
          (runValidate machine fs now o).stdout =
            Output.report (.ofOutcome now conf.contentDir outcome) .text) ∧
        ∀ x ∈ outcome.entries, Output.check x .text = Output.linesOn (subject x).1 x ∧
          (runCheck fs (subject x).2 (Path.below conf.contentDir (subject x).1)
            conf.unknownFields .text).stdout =
            Output.linesOn (Path.below conf.contentDir (subject x).1) x := by
  constructor
  · intro now dir o
    obtain ⟨xs, hsorted, htells⟩ := Report.exists_tells_ofOutcome now dir o
    refine ⟨xs, hsorted, htells, ?_⟩
    rw [← Output.map_entryText htells, Outcome.entries, List.length_append, List.length_map,
      List.length_map]
    simp [Output.report, Output.inFormat, Output.reportText, Report.ofOutcome]
  · intro fs now o conf h hformat
    obtain ⟨l, paths, hl, hpaths⟩ := h.exists_discover
    refine ⟨l, l.outcome fs paths, hl, fun machine hpool => ?_,
      fun x hx => ⟨Output.check_text x, stdout_runCheck_of_mem hl hx⟩⟩
    have hload := hpool.load_eq h hl hpaths
    exact ⟨hload, stdout_runValidate h hformat hl hload⟩

/-- A file that is no text is reported and checked in the same words. -/
theorem report_prints_checks_unreadable : ∃ (fs : FileSystem) (o : ValidateOptions) (l : Loader)
    (outcome : Outcome) (x : Except Rejected Accepted), Loads fs o {} ∧
      o.format.getD .text = .text ∧ Loader.new Registry.site {} = .ok l ∧
      PoolStarts (.ofLimit 64) fs o ∧ l.load (.ofLimit 64) fs = .ok outcome ∧
      x ∈ outcome.entries ∧
      Output.check x .text = "FAIL  index.md (landing)\n" ++
        "      - unreadable: invalid utf-8 sequence of 1 bytes from index 0\n" ∧
      (runCheck fs "landing" "content/index.md" .preserve .text).stdout =
        "FAIL  content/index.md (landing)\n" ++
          "      - unreadable: invalid utf-8 sequence of 1 bytes from index 0\n" := by
  let content : FileTree := .directory [("index.md", .file [0xff])]
  let fs : FileSystem := ⟨.directory [("content", content)], []⟩
  have hdirectory : fs.directory? "content" = some content := rfl
  have hloads : Loads fs {} {} :=
    loads_standard (by decide +kernel) rfl rfl hdirectory (by decide +kernel)
  have hpool : PoolStarts (.ofLimit 64) fs {} := hloads.poolStarts_ofLimit rfl (by decide)
  obtain ⟨l, outcome, hl, hruns, hall⟩ := report_prints_checks.2 fs "" {} {} hloads rfl
  obtain ⟨houtcome, _⟩ := hruns _ hpool
  let x : Except Rejected Accepted := .error ⟨"index.md", "landing", none,
    .unreadable "invalid utf-8 sequence of 1 bytes from index 0"⟩
  have hx : x ∈ outcome.entries := by
    obtain ⟨paths, hpaths⟩ := Loader.exists_discover_iff.mpr
      (by rw [(Loader.new_eq_ok hl).2]; exact hloads.directory)
    obtain rfl := Except.ok.inj (houtcome.symm.trans (hpool.load_eq hloads hl hpaths))
    have hdiscovers : Configuration.Discovers {} fs "index.md" := by
      constructor
      case file => exact ⟨content, ["index.md"], hdirectory, by decide, rfl⟩
      case extension => exact ⟨"md", by decide +kernel, by decide +kernel⟩
      case included => simp
    have hpath : "index.md" ∈ paths := (Loader.mem_discover_iff hl hpaths).mpr hdiscovers
    obtain ⟨hregistry, hconf⟩ := Loader.new_eq_ok hl
    have hc : Site.landing ∈ l.collectionsFor "index.md" := by
      rw [Loader.mem_collectionsFor, hregistry, hconf]
      exact ⟨List.mem_cons_self, by decide +kernel, rfl⟩
    refine (Loader.perm_entries l fs paths).mem_iff.mpr
      (List.mem_flatMap.mpr ⟨_, hpath, List.mem_map.mpr ⟨_, hc, ?_⟩⟩)
    rw [Loader.place, hconf]
    rfl
  obtain ⟨htext, hcheck⟩ := hall x hx
  exact ⟨fs, {}, l, outcome, x, hloads, rfl, hl, hpool, houtcome, hx, htext, hcheck⟩

end Command

end SiteContent
