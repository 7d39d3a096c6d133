import SiteContent.Json.Reader
import SiteContent.Text.Blank
import SiteContent.Text.Line
import SiteContent.Yaml.Value

/-! Reading a document: the header of a Markdown text between two delimiter lines, or a whole data
file. -/

namespace SiteContent

inductive ParseError where
  | unterminated
  | yaml
  | json
  deriving Repr, DecidableEq

def ParseError.message : ParseError → String
  | .unterminated => "front matter is not terminated by a closing '---' line"
  | .yaml => "invalid YAML"
  | .json => "invalid JSON"

/-- How a file is read. -/
inductive FileFormat where
  | markdown
  | yaml
  | json
  deriving Repr, DecidableEq

/-- The format of files with an extension, in letters of either case. -/
def FileFormat.ofExtension? (extension : String) : Option FileFormat :=
  match extension.toLower with
  | "md" | "markdown" => some .markdown
  | "yml" | "yaml" => some .yaml
  | "json" => some .json
  | _ => none

/-- The value in the header of a file, or in all of it, and the text that follows the header. -/
structure Parsed where
  header : Json
  body : Option String
  deriving Repr

namespace FrontMatter

/-- A delimiter line: three hyphens, and blanks after them. -/
def isDelimiter (line : List Char) : Bool :=
  Text.trimEnd line == ['-', '-', '-']

/-- Divides the lines after the opening delimiter at the closing one. -/
def close : List (List Char) → Except ParseError (List Char × List Char)
  | [] => .error .unterminated
  | l :: ls =>
    if isDelimiter l then .ok ([], ls.flatten)
    else (close ls).map fun (header, body) => (l ++ header, body)

/-- The header of a text, without its delimiters, and the body. -/
def split (text : String) : Except ParseError (Option String × String) :=
  match Text.lines text.toList with
  | [] => .ok (none, text)
  | l :: ls =>
    if isDelimiter l then
      (close ls).map fun (header, body) => (some (String.ofList header), String.ofList body)
    else .ok (none, text)

/-- The value of a YAML text. One that holds nothing is an empty object. -/
def parseYaml (text : String) : Except ParseError Json :=
  if Text.allBlank text then .ok (.obj [])
  else
    match (Yaml.parse? text).bind Yaml.Tree.toJson? with
    | none => .error .yaml
    | some .null => .ok (.obj [])
    | some v => .ok v

def parseJson (text : String) : Except ParseError Json :=
  match Json.parse? text with
  | some v => .ok v
  | none => .error .json

/-- A text without the byte-order mark that it may begin with. -/
def dropMark (text : String) : String :=
  match text.toList with
  | '\ufeff' :: rest => String.ofList rest
  | _ => text

end FrontMatter

/-- Reads a file as its format says. -/
def FileFormat.parse (format : FileFormat) (text : String) : Except ParseError Parsed := do
  let text := FrontMatter.dropMark text
  match format with
  | .markdown =>
    let (header, body) ← FrontMatter.split text
    let v ← FrontMatter.parseYaml (header.getD "")
    .ok ⟨v, some body⟩
  | .yaml => .ok ⟨← FrontMatter.parseYaml text, none⟩
  | .json => .ok ⟨← FrontMatter.parseJson text, none⟩

end SiteContent
