import SiteContent.Loading.Outcome
import SiteContent.Package

/-! Reports of a run over a content directory. -/

namespace SiteContent

namespace Report

inductive Status where
  | valid
  | invalid
  | unparsable
  | unreadable
  deriving Repr, DecidableEq

def Status.literal : Status → String
  | .valid => "valid"
  | .invalid => "invalid"
  | .unparsable => "unparsable"
  | .unreadable => "unreadable"

/-- One file in a report: the errors of an invalid one, and the message of one that could not be
read or parsed. -/
structure Entry where
  path : String
  collection : String
  status : Status
  checksum : Option String
  errors : List ValidationError
  message : Option String
  deriving Repr, DecidableEq

/-- How many files were checked, and how many no collection claims. -/
structure Summary where
  total : Nat
  valid : Nat
  invalid : Nat
  unmatched : Nat
  deriving Repr, DecidableEq

end Report

structure Report where
  formatVersion : String
  generatedAt : String
  contentDir : String
  summary : Report.Summary
  entries : List Report.Entry
  unmatched : List String
  deriving Repr, DecidableEq

namespace Report

def Entry.ofAccepted (a : Accepted) : Entry :=
  ⟨a.path, a.collection, .valid, some a.checksum, [], none⟩

def Entry.ofRejected (r : Rejected) : Entry :=
  match r.reason with
  | .invalid errors => ⟨r.path, r.collection, .invalid, r.checksum, errors, none⟩
  | .unparsable m => ⟨r.path, r.collection, .unparsable, r.checksum, [], some m⟩
  | .unreadable m => ⟨r.path, r.collection, .unreadable, r.checksum, [], some m⟩

/-- Entries go by path and collection; of equal ones the valid come first. -/
def ofOutcome (generatedAt contentDir : String) (o : Outcome) : Report :=
  let entries := o.accepted.map Entry.ofAccepted ++ o.rejected.map Entry.ofRejected
  { formatVersion := packageFormatVersion
    generatedAt := generatedAt
    contentDir := contentDir
    summary := ⟨entries.length, o.accepted.length, o.rejected.length, o.unmatched.length⟩
    entries := entries.mergeSort fun a b =>
      entryLe (a.path, a.collection) (b.path, b.collection)
    unmatched := o.unmatched }

def isSuccess (r : Report) : Bool :=
  r.summary.invalid == 0

/-- The entries that are not valid. -/
def failures (r : Report) : List Entry :=
  r.entries.filter fun e => e.status ≠ .valid

open Json (entryIf entryOfOption)

def Status.decode : Decoder Status :=
  .choice ([Status.valid, .invalid, .unparsable, .unreadable].map fun s => (s.literal, s))

def Entry.encode (e : Entry) : Json :=
  .obj
    ([("path", .str e.path), ("collection", .str e.collection),
      ("status", .str e.status.literal)] ++ entryOfOption "checksum" .str e.checksum ++
      entryIf (!e.errors.isEmpty) "errors" (ValidationError.encodeAll e.errors) ++
      entryOfOption "message" .str e.message)

def Entry.decode : Decoder Entry :=
  (Entry.mk <$> .required "path" .string <*> .required "collection" .string <*>
    .required "status" Status.decode <*> .optional "checksum" .string <*>
    .withDefault "errors" [] (.list ValidationError.decode) <*> .optional "message" .string :
    Record Entry).decode "DocumentReport"

def Summary.encode (s : Summary) : Json :=
  .obj
    [("total", .num (.int s.total)), ("valid", .num (.int s.valid)),
      ("invalid", .num (.int s.invalid)), ("unmatched", .num (.int s.unmatched))]

def Summary.decode : Decoder Summary :=
  (Summary.mk <$> .required "total" .count <*> .required "valid" .count <*>
    .required "invalid" .count <*> .required "unmatched" .count :
    Record Summary).decode "ReportSummary"

def encode (r : Report) : Json :=
  .obj
    ([("schema_version", .str r.formatVersion), ("generated_at", .str r.generatedAt),
      ("content_dir", .str r.contentDir), ("summary", r.summary.encode),
      ("documents", .arr (r.entries.map Entry.encode))] ++
      entryIf (!r.unmatched.isEmpty) "unmatched" (Json.ofStrings r.unmatched))

def decode : Decoder Report :=
  (Report.mk <$> .required "schema_version" .string <*> .required "generated_at" .string <*>
    .required "content_dir" .string <*> .required "summary" Summary.decode <*>
    .required "documents" (.list Entry.decode) <*>
    .withDefault "unmatched" [] (.list .string) : Record Report).decode "ValidationReport"

end Report

end SiteContent
