import SiteContent.Configuration.Text
import SiteContent.Digest
import SiteContent.FileSystem
import SiteContent.FrontMatter
import SiteContent.Loading.Outcome
import SiteContent.Registry
import SiteContent.Text.Utf8

/-! Loading a content directory: its files are found, routed to the collections that claim them,
read and validated. -/

namespace SiteContent

/-- What keeps a whole run from its work. -/
inductive LoadError where
  | os (cause : OsError)
  | notText
  | yaml
  | glob (cause : GlobError)
  | missingContentDir (path : String)
  | walk (directory : String) (cause : OsError)
  | threadPool (message : String)
  | unknownCollection (name : String)
  deriving Repr, DecidableEq

def LoadError.message : LoadError → String
  | .os cause => "I/O error: " ++ cause.message
  | .notText => "I/O error: stream did not contain valid UTF-8"
  | .yaml => "YAML error: " ++ ParseError.yaml.message
  | .glob cause => "invalid exclude pattern: " ++ cause.message
  | .missingContentDir path => "content directory not found: " ++ path
  | .walk directory cause =>
    "I/O error: IO error for operation on " ++ directory ++ ": " ++ cause.message
  | .threadPool message => "thread pool error: " ++ message
  | .unknownCollection name => "unknown collection: " ++ name

namespace Configuration

/-- Reads a configuration file. -/
def load (fs : FileSystem) (path : String) : Except LoadError Configuration :=
  match fs.read path with
  | .error e => .error (.os e)
  | .ok content =>
    match Text.decodeUtf8 content with
    | .error _ => .error .notText
    | .ok text =>
      match parse? text with
      | some c => .ok c
      | none => .error .yaml

end Configuration

/-- The machine that a run is on, as far as it concerns the threads that check files. -/
structure Machine where
  /-- How many threads can run at the same time, if this is known. -/
  parallelism : Option Nat
  /-- Starts as many threads, or tells why it cannot. -/
  start : Nat → Except String Unit

namespace Machine

/-- How many threads check so many files when no number is asked for. -/
def standardJobs (m : Machine) (files : Nat) : Nat :=
  min (max (min (m.parallelism.getD 4) 16) 1) (max files 1)

/-- Where files are checked one after the other, no threads have to be started. -/
def sequential : Machine where
  parallelism := none
  start _ := .ok ()

end Machine

/-- A configuration whose collections are registered and whose exclusions are well formed. -/
structure Loader where
  registry : Registry
  configuration : Configuration
  excluded : List Glob

/-- A file that was read once for every collection that claims it. -/
structure ContentFile where
  path : String
  format : FileFormat
  /-- The text with its checksum, or why there is none. -/
  content : Except String (String × String)

namespace ContentFile

/-- Reads a file; `shown` is the path under which it is reported. Files of an unknown extension are
read as pages. -/
def read (fs : FileSystem) (path shown : String) : ContentFile where
  path := shown
  format := ((Path.extension? path).bind FileFormat.ofExtension?).getD .markdown
  content :=
    match fs.read path with
    | .error e => .error e.message
    | .ok bytes =>
      match Text.decodeUtf8 bytes with
      | .error fault => .error fault.message
      | .ok text => .ok (text, checksum bytes)

end ContentFile

namespace Loader

def new (registry : Registry) (c : Configuration) : Except LoadError Loader :=
  match c.collections.find? fun name => !registry.contains name with
  | some name => .error (.unknownCollection name)
  | none =>
    match c.exclusions with
    | .ok excluded => .ok ⟨registry, c, excluded⟩
    | .error e => .error (.glob e)

def isExcluded (l : Loader) (path : String) : Bool :=
  l.excluded.any (·.isMatch path)

/-- Whether a file below the content directory is content. -/
def isContent (l : Loader) (path : String) : Bool :=
  (Path.extension? path).any l.configuration.isContentExtension && !l.isExcluded path

/-- The content files by path, relative to the content directory. -/
def discover (l : Loader) (fs : FileSystem) : Except LoadError (List String) :=
  match fs.directory? l.configuration.contentDir with
  | none => .error (.missingContentDir l.configuration.contentDir)
  | some t =>
    match t.impasse? l.configuration.contentDir with
    | some (names, cause) =>
      .error (.walk (names.foldl Path.below l.configuration.contentDir) cause)
    | none =>
      .ok (((t.files.map Path.join).filter l.isContent).mergeSort fun a b => decide (a ≤ b))

/-- The enabled collections that claim a path. -/
def collectionsFor (l : Loader) (path : String) : List Collection :=
  (l.registry.claiming path).filter fun c => l.configuration.isEnabled c.name

/-- Validates a file against a registered collection. -/
def validate (l : Loader) (collection : String) (file : ContentFile) :
    Except Rejected Accepted :=
  let refuse (checksum : Option String) (reason : Refusal) : Except Rejected Accepted :=
    .error ⟨file.path, collection, checksum, reason⟩
  match file.content with
  | .error message => refuse none (.unreadable message)
  | .ok (text, sum) =>
    match file.format.parse text with
    | .error e => refuse (some sum) (.unparsable e.message)
    | .ok parsed =>
      match l.registry.validate collection l.configuration.unknownFields parsed.header with
      | .ok d => .ok ⟨file.path, sum, parsed.body, d⟩
      | .error ds => refuse (some sum) (.invalid (ds.map Diagnostic.toError))

/-- Validates one file against a collection, whether the collection claims it or not. -/
def check (l : Loader) (fs : FileSystem) (collection path shown : String) :
    Except LoadError (Except Rejected Accepted) :=
  match l.registry.get? collection with
  | some c => .ok (l.validate c.name (.read fs path shown))
  | none => .error (.unknownCollection collection)

/-- The place of a file of the content directory. -/
def place (l : Loader) (path : String) : String :=
  Path.below l.configuration.contentDir path

/-- One result for each collection that claims a file. -/
def loadFile (l : Loader) (fs : FileSystem) (path : String) :
    List (Except Rejected Accepted) :=
  (l.collectionsFor path).map fun c => l.validate c.name (.read fs (l.place path) path)

/-- What a run over the files of some paths finds. -/
def outcome (l : Loader) (fs : FileSystem) (paths : List String) : Outcome :=
  let results := paths.flatMap (l.loadFile fs)
  let accepted := results.filterMap fun r => match r with | .ok a => some a | .error _ => none
  let rejected := results.filterMap fun r => match r with | .error e => some e | .ok _ => none
  { accepted := accepted.mergeSort fun a b =>
      entryLe (a.path, a.collection) (b.path, b.collection)
    rejected := rejected.mergeSort fun a b =>
      entryLe (a.path, a.collection) (b.path, b.collection)
    unmatched := paths.filter fun p => (l.collectionsFor p).isEmpty }

/-- How many threads check so many files. A configured number of zero leaves the choice open. -/
def jobs (l : Loader) (machine : Machine) (files : Nat) : Nat :=
  (l.configuration.jobs.filter (0 < ·)).getD (machine.standardJobs files)

/-- Starts the threads that check so many files. -/
def startPool (l : Loader) (machine : Machine) (files : Nat) : Except LoadError Unit :=
  (machine.start (l.jobs machine files)).mapError .threadPool

def load (l : Loader) (machine : Machine) (fs : FileSystem) : Except LoadError Outcome := do
  let paths ← l.discover fs
  l.startPool machine paths.length
  return l.outcome fs paths

end Loader

end SiteContent
