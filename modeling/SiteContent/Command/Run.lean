import SiteContent.Command.Arguments
import SiteContent.Loading.Loader

/-! Running commands on a file system. -/

namespace SiteContent

namespace Command

/-- The version of the program. -/
def programVersion : String := "0.1.0"

/-- The configuration file that is used when none is named and this one is there. -/
def standardConfigFile : String := ".content-schema.yml"

/-- What a run prints, its exit status, and the files after it. -/
structure Result where
  exitCode : Nat
  stdout : String
  stderr : String
  files : FileSystem

/-- A printed text ends with a line break. -/
def endLine (s : String) : String :=
  if s.toList.getLast? == some '\n' then s else s ++ "\n"

def succeed (files : FileSystem) (stdout : String) : Result :=
  ⟨0, stdout, "", files⟩

def fail (files : FileSystem) (stdout message : String) : Result :=
  ⟨1, stdout, "error: " ++ message ++ "\n", files⟩

/-- The configuration to start from. -/
def configuration (fs : FileSystem) (file : Option String) : Except String Configuration :=
  let load (path : String) : Except String Configuration :=
    match Configuration.load fs path with
    | .ok c => .ok c
    | .error e => .error ("Failed to load config '" ++ path ++ "': " ++ e.message)
  match file with
  | some path => load path
  | none => if fs.isFile standardConfigFile then load standardConfigFile else .ok {}

/-- Options count more than the configuration. -/
def ValidateOptions.apply (o : ValidateOptions) (c : Configuration) : Configuration :=
  { c with
    contentDir := o.contentDir.getD c.contentDir
    collections := if o.collections.isEmpty then c.collections else o.collections
    unknownFields := o.unknownFields.getD c.unknownFields
    jobs := o.jobs <|> c.jobs }

/-- The format of a report file by its extension. -/
def reportFormat (path : String) : TextFormat :=
  match Path.extension? path with
  | some "yml" | some "yaml" => .yaml
  | _ => .json

/-- The report of a run, or why there is none. -/
def validationReport (machine : Machine) (fs : FileSystem) (now : String) (o : ValidateOptions) :
    Except String Report := do
  let c ← configuration fs o.configFile
  let l ← (Loader.new Registry.site (o.apply c)).mapError LoadError.message
  let outcome ← (l.load machine fs).mapError LoadError.message
  return Report.ofOutcome now l.configuration.contentDir outcome

def runValidate (machine : Machine) (fs : FileSystem) (now : String) (o : ValidateOptions) :
    Result :=
  match validationReport machine fs now o with
  | .error message => fail fs "" message
  | .ok report =>
    let stdout := endLine (Output.report report (o.format.getD .text))
    let written : Except String FileSystem :=
      match o.reportFile with
      | none => .ok fs
      | some path =>
        let text := Output.report report (reportFormat path)
        (fs.write path text.toUTF8.toList).mapError fun e =>
          "Failed to write '" ++ path ++ "': " ++ e.message
    match written with
    | .error message => fail fs stdout message
    | .ok files =>
      if report.isSuccess then succeed files stdout
      else
        fail files stdout
          (toString report.summary.invalid ++ " of " ++ toString report.summary.total ++
            " document(s) failed validation")

def runCheck (fs : FileSystem) (collection file : String) (policy : Policy)
    (format : TextFormat) : Result :=
  let checked := do
    let l ← Loader.new Registry.site { unknownFields := policy }
    l.check fs collection file file
  match checked with
  | .error e => fail fs "" e.message
  | .ok result =>
    let stdout := endLine (Output.check result format)
    match result with
    | .ok _ => succeed fs stdout
    | .error r => fail fs stdout (file ++ " is not a valid '" ++ r.collection ++ "' document")

/-- A text filled up with blanks to a width. -/
def padRight (width : Nat) (s : String) : String :=
  s ++ String.ofList (List.replicate (width - s.length) ' ')

def collectionLine (c : Collection) : String :=
  padRight 14 c.name ++ " " ++ padRight 5 c.storage.literal ++ " " ++ c.source.render ++ "\n"

def helpText : String :=
  "Validate site content front matter against collection schemas\n\n" ++
    "Usage: content-check [-v] <validate | check | collections | schema | help>\n\n" ++
    "  validate [--config FILE] [--content-dir DIR] [--collection NAME]...\n" ++
    "           [--unknown-fields preserve|strip|reject] [--jobs N]\n" ++
    "           [--format json|yaml|text] [--report FILE]\n" ++
    "  check --collection NAME [--unknown-fields preserve|strip|reject]\n" ++
    "        [--format json|yaml|text] FILE\n" ++
    "  collections\n" ++
    "  schema [--format json|yaml|text]\n"

/-- Runs a command at a moment given as text. -/
def run (machine : Machine) (fs : FileSystem) (now : String) : Command → Result
  | .validate o => runValidate machine fs now o
  | .check collection file policy format => runCheck fs collection file policy format
  | .collections => succeed fs (String.join (Registry.site.collections.map collectionLine))
  | .schema format =>
    succeed fs (endLine (Output.package (.ofRegistry programVersion .site) format))

/-- What the program does with its arguments. -/
def runArguments (machine : Machine) (fs : FileSystem) (now : String) (args : List String) :
    Result :=
  match parse args with
  | .ok command => command.run machine fs now
  | .error .help => succeed fs helpText
  | .error .version => succeed fs ("content-check " ++ programVersion ++ "\n")
  | .error .misuse => ⟨2, "", "error: invalid arguments\n\n" ++ helpText, fs⟩

end Command

end SiteContent
