import SiteContent.Glob.Match
import SiteContent.Validation.Codec

/-! What a run over a content directory is told: where the content is, what to check and how. -/

namespace SiteContent

structure Configuration where
  version : String := "1.0"
  contentDir : String := "content"
  /-- Every collection is checked when none is named. -/
  collections : List String := []
  exclude : List String := []
  unknownFields : Policy := .preserve
  jobs : Option Nat := none
  extensions : List String := ["md", "yml", "yaml", "json"]
  deriving Repr, DecidableEq

namespace Configuration

def isEnabled (c : Configuration) (collection : String) : Bool :=
  c.collections.isEmpty || c.collections.contains collection

/-- Extensions are compared without regard to the case of ASCII letters. -/
def isContentExtension (c : Configuration) (extension : String) : Bool :=
  c.extensions.any fun e => e.toLower = extension.toLower

/-- The patterns of files to leave out. -/
def exclusions (c : Configuration) : Except GlobError (List Glob) :=
  c.exclude.mapM Glob.compile

open Json (entryOfOption)

def encode (c : Configuration) : Json :=
  .obj
    ([("version", .str c.version), ("content_dir", .str c.contentDir),
      ("collections", Json.ofStrings c.collections), ("exclude", Json.ofStrings c.exclude),
      ("unknown_fields", c.unknownFields.encode)] ++
      entryOfOption "jobs" (fun n => .num (.int n)) c.jobs ++
      [("extensions", Json.ofStrings c.extensions)])

def decode : Decoder Configuration :=
  let standard : Configuration := {}
  (Configuration.mk <$> .withDefault "version" standard.version .string <*>
    .withDefault "content_dir" standard.contentDir .string <*>
    .withDefault "collections" standard.collections (.list .string) <*>
    .withDefault "exclude" standard.exclude (.list .string) <*>
    .withDefault "unknown_fields" standard.unknownFields Policy.decode <*>
    .optional "jobs" .count <*>
    .withDefault "extensions" standard.extensions (.list .string) :
    Record Configuration).decode "LoaderConfig"

end Configuration

end SiteContent
