import SiteContent.Registry
import SiteContent.Validation.Codec

/-! Schema packages: what an authoring tool needs to know of a registry. -/

namespace SiteContent

/-- The version of the package format itself. -/
def packageFormatVersion : String := "1.0.0"

def Storage.decode : Decoder Storage :=
  .choice [("page", .page), ("data", .data)]

/-- A collection as a package lists it. -/
structure Descriptor where
  name : String
  storage : Storage
  included : String
  excluded : List String
  schema : Schema
  definitions : Definitions
  deriving DecidableEq

namespace Descriptor

def ofCollection (c : Collection) : Descriptor where
  name := c.name
  storage := c.storage
  included := c.source.included.text
  excluded := c.source.excluded.map (·.text)
  schema := c.schema
  definitions := c.definitions

def encode (d : Descriptor) : Json :=
  .obj
    ([("name", .str d.name), ("type", .str d.storage.literal),
      ("source", .obj (("include", .str d.included) ::
        Json.entryIf (!d.excluded.isEmpty) "exclude" (Json.ofStrings d.excluded))),
      ("schema", d.schema.encode)] ++
      Json.entryIf (!d.definitions.isEmpty) "definitions" (Json.ofDict Node.encode d.definitions))

def sourceRecord : Record (String × List String) :=
  Prod.mk <$> .required "include" .string <*> .withDefault "exclude" [] (.list .string)

def decode : Decoder Descriptor :=
  ((fun name storage (source : String × List String) schema definitions =>
      Descriptor.mk name storage source.1 source.2 schema definitions) <$>
    .required "name" .string <*> .required "type" Storage.decode <*>
    .required "source" (sourceRecord.decode "SourceDescriptor") <*>
    .required "schema" Shape.decode <*>
    .withDefault "definitions" [] (.dict Node.decode) :
    Record Descriptor).decode "CollectionDescriptor"

end Descriptor

structure Package where
  formatVersion : String
  version : String
  collections : List Descriptor
  fragments : Dict Schema
  enumerations : List Enumeration
  deriving DecidableEq

namespace Package

/-- Every collection of a registry, with all fragments and built-in enumerations. -/
def ofRegistry (version : String) (r : Registry) : Package where
  formatVersion := packageFormatVersion
  version := version
  collections := r.collections.map Descriptor.ofCollection
  fragments := Fragment.all
  enumerations := Vocabulary.catalog

def find? (p : Package) (name : String) : Option Descriptor :=
  p.collections.find? fun d => d.name = name

def encode (p : Package) : Json :=
  .obj
    ([("schema_version", .str p.formatVersion), ("version", .str p.version),
      ("collections", .arr (p.collections.map Descriptor.encode))] ++
      Json.entryIf (!p.fragments.isEmpty) "fragments" (Json.ofDict Shape.encode p.fragments) ++
      Json.entryIf (!p.enumerations.isEmpty) "enumerations"
        (.arr (p.enumerations.map Enumeration.encode)))

def decode : Decoder Package :=
  (Package.mk <$> .required "schema_version" .string <*> .required "version" .string <*>
    .required "collections" (.list Descriptor.decode) <*>
    .withDefault "fragments" [] (.dict Shape.decode) <*>
    .withDefault "enumerations" [] (.list Enumeration.decode) :
    Record Package).decode "SchemaPackage"

end Package

end SiteContent
