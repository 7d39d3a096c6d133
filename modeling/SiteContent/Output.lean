import SiteContent.Report
import SiteContent.Yaml.Printer

/-! The texts that a run prints: reports, results of single files and schema packages, as JSON, YAML
or lines for readers. -/

namespace SiteContent

inductive TextFormat where
  | json
  | yaml
  | text
  deriving Repr, DecidableEq

namespace Output

/-- A value in a data format, or the given lines. -/
def inFormat (value : Json) (lines : String) : TextFormat → String
  | .json => value.pretty
  | .yaml => Yaml.render value
  | .text => lines

def fileLine (label path collection : String) : String :=
  label ++ "  " ++ path ++ " (" ++ collection ++ ")\n"

def detailLine (detail : String) : String :=
  "      - " ++ detail ++ "\n"

def acceptedText (a : Accepted) : String :=
  fileLine "ok  " a.path a.collection

def rejectedText (r : Rejected) : String :=
  fileLine "FAIL" r.path r.collection ++
    match r.reason with
    | .invalid errors => String.join (errors.map fun e => detailLine e.render)
    | reason => detailLine reason.message

def entryText (e : Report.Entry) : String :=
  fileLine (if e.status = .valid then "ok  " else "FAIL") e.path e.collection ++
    String.join (e.errors.map fun error => detailLine error.render) ++
    match e.message with
    | some m => detailLine (e.status.literal ++ ": " ++ m)
    | none => ""

def skipLine (path : String) : String :=
  "skip  " ++ path ++ " (no collection)\n"

def summaryLine (s : Report.Summary) : String :=
  "\n" ++ toString s.total ++ " documents: " ++ toString s.valid ++ " valid, " ++
    toString s.invalid ++ " invalid, " ++ toString s.unmatched ++ " unmatched\n"

def reportText (r : Report) : String :=
  String.join (r.entries.map entryText) ++ String.join (r.unmatched.map skipLine) ++
    summaryLine r.summary

def report (r : Report) (format : TextFormat) : String :=
  inFormat r.encode (reportText r) format

/-- The validated document, or the record of its rejection. -/
def check : Except Rejected Accepted → TextFormat → String
  | .ok a => inFormat a.document.value (acceptedText a)
  | .error r => inFormat r.encode (rejectedText r)

/-- The type of a node as readers are told it. -/
def typeLabel : Kind Node → String
  | .enumeration e => e.name ++ " (" ++ "|".intercalate e.members ++ ")"
  | .array ⟨k, _, _, _⟩ _ => "list of " ++ typeLabel k
  | .oneOf u => "one of " ++ "|".intercalate u.tags.members
  | .reference target => "#" ++ target
  | k => k.expected

def isNonEmpty : Kind Node → Bool
  | .string nonEmpty | .array _ nonEmpty => nonEmpty
  | _ => false

/-- One line on a node, such as `string, required, non-empty`. -/
def describe (n : Node) : String :=
  ", ".intercalate
    ([typeLabel n.kind] ++ (if n.required then ["required"] else []) ++
      (if isNonEmpty n.kind then ["non-empty"] else []) ++
      (n.default.map fun v => "default " ++ v.compact).toList ++
      n.hints.entries.map fun (k, v) => k ++ "=" ++ v)

def indentation (depth : Nat) : String :=
  String.join (List.replicate depth "  ")

mutual

/-- The lines on the fields of an object. -/
def fieldsText (depth : Nat) : List (Field Node) → String
  | [] => ""
  | ⟨name, n⟩ :: fs =>
    indentation depth ++ name ++ ": " ++ describe n ++ "\n" ++ insideText (depth + 1) n ++
      fieldsText depth fs

/-- The lines on what a node holds. -/
def insideText (depth : Nat) : Node → String
  | ⟨k, _, _, _⟩ => kindText depth k

def kindText (depth : Nat) : Kind Node → String
  | .object ⟨fs⟩ => fieldsText depth fs
  | .array items _ => insideText depth items
  | .oneOf ⟨tag, _, ⟨common⟩, vs⟩ => fieldsText depth common ++ variantsText depth tag vs
  | _ => ""

def variantsText (depth : Nat) (tag : String) : List (Variant Node) → String
  | [] => ""
  | ⟨case, ⟨name, n⟩⟩ :: vs =>
    indentation depth ++ "[" ++ tag ++ "=" ++ case ++ "] " ++ name ++ ": " ++ describe n ++ "\n" ++
      insideText (depth + 1) n ++ variantsText depth tag vs

end

def definitionText (name : String) (n : Node) : String :=
  "  #" ++ name ++ ": " ++ describe n ++ "\n" ++ insideText 2 n

def descriptorText (d : Descriptor) : String :=
  d.name ++ " (" ++ d.storage.literal ++ ") " ++ d.included ++
    String.join (d.excluded.map fun p => " !" ++ p) ++ "\n" ++ fieldsText 1 d.schema.fields ++
    String.join (d.definitions.map fun (name, n) => definitionText name n) ++ "\n"

def package (p : Package) (format : TextFormat) : String :=
  inFormat p.encode (String.join (p.collections.map descriptorText)) format

end Output

end SiteContent
