import SiteContent.Text.Utf8

/-! Tags of YAML nodes. A tag is a string of bytes, for its escapes may spell what is no text. -/

namespace SiteContent.Yaml

structure Tag where
  bytes : List UInt8
  deriving Repr, DecidableEq

namespace Tag

def ofString (s : String) : Tag :=
  ⟨s.toUTF8.toList⟩

/-- A zero byte ends a tag. -/
def ofBytes (bytes : List UInt8) : Tag :=
  ⟨bytes.takeWhile (· ≠ 0)⟩

def append (a b : Tag) : Tag :=
  ⟨a.bytes ++ b.bytes⟩

/-- A tag that the language itself defines. -/
def standard (name : String) : Tag :=
  ofString ("tag:yaml.org,2002:" ++ name)

/-- The tag of an exclamation mark alone. -/
def mark : Tag :=
  ofString "!"

/-- A tag that begins with an exclamation mark belongs to the application. -/
def isLocal (t : Tag) : Bool :=
  t.bytes.head? == some '!'.toUInt8

/-- The name of a local tag, where it is text. -/
def localName? (t : Tag) : Option String :=
  if t.isLocal then (Text.decodeUtf8 t.bytes.tail).toOption else none

end Tag

end SiteContent.Yaml
