import SiteContent.Output

/-! The command line: options and subcommands. -/

namespace SiteContent

namespace Command

structure ValidateOptions where
  configFile : Option String := none
  contentDir : Option String := none
  collections : List String := []
  unknownFields : Option Policy := none
  jobs : Option Nat := none
  format : Option TextFormat := none
  reportFile : Option String := none
  deriving Repr, DecidableEq

structure CheckOptions where
  collection : Option String := none
  file : Option String := none
  unknownFields : Option Policy := none
  format : Option TextFormat := none
  deriving Repr, DecidableEq

end Command

/-- What the program is asked to do. -/
inductive Command where
  /-- Validate every document of a content directory. -/
  | validate (options : Command.ValidateOptions)
  /-- Validate one file against a collection. -/
  | check (collection file : String) (unknownFields : Policy) (format : TextFormat)
  /-- List the collections. -/
  | collections
  /-- Print the schema package. -/
  | schema (format : TextFormat)
  deriving Repr, DecidableEq

namespace Command

/-- Why there is no command. -/
inductive Halt where
  | misuse
  | help
  | version
  deriving Repr, DecidableEq

abbrev Parsing := Except Halt

/-- An argument that is no flag. -/
inductive Argument where
  | option (name value : String)
  | operand (value : String)

/-- Whether an argument is a flag or an option rather than a value. -/
def isDashed (arg : String) : Bool :=
  arg.toList.head? == some '-' && arg != "-"

/-- A long option's name, and the value after an equals sign. -/
def splitOption (cs : List Char) : String × Option String :=
  let name := cs.takeWhile (· ≠ '=')
  match cs.drop name.length with
  | _ :: value => (String.ofList name, some (String.ofList value))
  | [] => (String.ofList name, none)

/-- Short flags, which may be given together. -/
def shortFlags (atTop : Bool) : List Char → Parsing Unit
  | [] => .ok ()
  | 'v' :: cs => shortFlags atTop cs
  | 'h' :: _ => .error .help
  | 'V' :: _ => if atTop then .error .version else .error .misuse
  | _ => .error .misuse

/-- A long flag, which has no value. -/
def longFlag (atTop : Bool) (name : String) : Parsing Unit :=
  if name = "verbose" then .ok ()
  else if name = "help" then .error .help
  else if atTop && name = "version" then .error .version
  else .error .misuse

/-- Takes arguments one by one. The options named in `valued` have a value, after an equals sign or
in the next argument; two dashes end the options. -/
def scan {α : Type} (valued : List String) (take : α → Argument → Parsing α) :
    α → List String → Parsing α
  | a, [] => .ok a
  | a, arg :: rest =>
    match arg.toList with
    | ['-', '-'] => rest.foldlM (fun a operand => take a (.operand operand)) a
    | '-' :: '-' :: cs =>
      let (name, value?) := splitOption cs
      if valued.contains name then
        match value?, rest with
        | some value, rest => do scan valued take (← take a (.option name value)) rest
        | none, value :: rest =>
          if isDashed value then .error .misuse
          else do scan valued take (← take a (.option name value)) rest
        | none, [] => .error .misuse
      else if value?.isSome then .error .misuse
      else do
        longFlag false name
        scan valued take a rest
    | '-' :: c :: cs => do
      shortFlags false (c :: cs)
      scan valued take a rest
    | _ => do scan valued take (← take a (.operand arg)) rest

/-- Sets an option that may be given once. -/
def once {α : Type} (current : Option α) (value : Option α) : Parsing (Option α) :=
  match current, value with
  | none, some a => .ok (some a)
  | _, _ => .error .misuse

def path? (s : String) : Option String :=
  if s.isEmpty then none else some s

def format? (s : String) : Option TextFormat :=
  match s with
  | "json" => some .json
  | "yaml" => some .yaml
  | "text" => some .text
  | _ => none

def policy? (s : String) : Option Policy :=
  (Policy.table.find? fun e => e.1 = s).map (·.2)

/-- A count of 64 bits, perhaps after a plus sign. -/
def count? (s : String) : Option Nat :=
  let ds :=
    match s.toList with
    | '+' :: ds => ds
    | ds => ds
  if ds.isEmpty || !ds.all Char.isDigit then none
  else
    let n := ds.foldl (fun n d => n * 10 + (d.toNat - '0'.toNat)) 0
    if n < Nat.pow 2 64 then some n else none

def takeValidate (o : ValidateOptions) : Argument → Parsing ValidateOptions
  | .option "config" v => return { o with configFile := ← once o.configFile (path? v) }
  | .option "content-dir" v => return { o with contentDir := ← once o.contentDir (path? v) }
  | .option "collection" v => return { o with collections := o.collections ++ [v] }
  | .option "unknown-fields" v =>
    return { o with unknownFields := ← once o.unknownFields (policy? v) }
  | .option "jobs" v => return { o with jobs := ← once o.jobs (count? v) }
  | .option "format" v => return { o with format := ← once o.format (format? v) }
  | .option "report" v => return { o with reportFile := ← once o.reportFile (path? v) }
  | _ => .error .misuse

def takeCheck (o : CheckOptions) : Argument → Parsing CheckOptions
  | .option "collection" v => return { o with collection := ← once o.collection (some v) }
  | .option "unknown-fields" v =>
    return { o with unknownFields := ← once o.unknownFields (policy? v) }
  | .option "format" v => return { o with format := ← once o.format (format? v) }
  | .operand v => return { o with file := ← once o.file (path? v) }
  | _ => .error .misuse

def takeSchema (format : Option TextFormat) : Argument → Parsing (Option TextFormat)
  | .option "format" v => once format (format? v)
  | _ => .error .misuse

def takeNothing (_ : Unit) (_ : Argument) : Parsing Unit :=
  .error .misuse

/-- The command of a name, from the arguments after it. -/
def named (name : String) (args : List String) : Parsing Command := do
  match name with
  | "validate" =>
    let valued :=
      ["config", "content-dir", "collection", "unknown-fields", "jobs", "format", "report"]
    return .validate (← scan valued takeValidate {} args)
  | "check" =>
    let o ← scan ["collection", "unknown-fields", "format"] takeCheck {} args
    match o.collection, o.file with
    | some collection, some file =>
      return .check collection file (o.unknownFields.getD .preserve) (o.format.getD .text)
    | _, _ => .error .misuse
  | "collections" =>
    scan [] takeNothing () args
    return .collections
  | "schema" =>
    let format ← scan ["format"] takeSchema none args
    return .schema (format.getD .json)
  | "help" =>
    match args with
    | [] => .error .help
    | [topic] =>
      if ["validate", "check", "collections", "schema", "help"].contains topic then .error .help
      else .error .misuse
    | _ => .error .misuse
  | _ => .error .misuse

/-- Reads the flags before the name of a command, and the command. -/
def parse : List String → Parsing Command
  | [] => .error .misuse
  | arg :: rest =>
    match arg.toList with
    | '-' :: '-' :: cs => do
      longFlag true (String.ofList cs)
      parse rest
    | '-' :: c :: cs => do
      shortFlags true (c :: cs)
      parse rest
    | _ => named arg rest

end Command

end SiteContent
