import SiteContent.Validation.Codec

/-! What became of the files of a content directory. -/

namespace SiteContent

/-- A file that passed validation. The path is relative to the content directory. -/
structure Accepted where
  path : String
  checksum : String
  body : Option String
  document : Document
  deriving Repr, DecidableEq

def Accepted.collection (a : Accepted) : String :=
  a.document.collection

/-- Why a file was not accepted. -/
inductive Refusal where
  | unreadable (message : String)
  | unparsable (message : String)
  | invalid (errors : List ValidationError)
  deriving Repr, DecidableEq

def Refusal.message : Refusal → String
  | .unreadable m => "unreadable: " ++ m
  | .unparsable m => "unparsable: " ++ m
  | .invalid errors => ValidationError.summary errors

/-- A file that was not accepted. One that could not be read has no checksum. -/
structure Rejected where
  path : String
  collection : String
  checksum : Option String
  reason : Refusal
  deriving Repr, DecidableEq

/-- The accepted and the rejected files by path and collection, and those that no collection
claims. -/
structure Outcome where
  accepted : List Accepted
  rejected : List Rejected
  unmatched : List String
  deriving Repr, DecidableEq

namespace Outcome

def isSuccess (o : Outcome) : Bool :=
  o.rejected.isEmpty

def acceptedIn (o : Outcome) (collection : String) : List Accepted :=
  o.accepted.filter fun a => a.collection = collection

end Outcome

/-- The order by path, and by collection for one path. -/
def entryLe (a b : String × String) : Bool :=
  a.1 < b.1 || (a.1 = b.1 && a.2 ≤ b.2)

open Json (entryOfOption)

namespace Accepted

def encode (a : Accepted) : Json :=
  .obj
    ([("path", .str a.path), ("checksum", .str a.checksum)] ++ entryOfOption "body" .str a.body ++
      [("document", a.document.encode)])

def decode : Decoder Accepted :=
  (Accepted.mk <$> .required "path" .string <*> .required "checksum" .string <*>
    .optional "body" .string <*> .required "document" Document.decode :
    Record Accepted).decode "LoadedDocument"

end Accepted

namespace Refusal

/-- The reasons as the JSON form tells them apart. -/
inductive Tag where
  | unreadable | unparsable | invalid
  deriving Repr, DecidableEq

def tags : List (String × Tag) :=
  [("unreadable", .unreadable), ("unparsable", .unparsable), ("invalid", .invalid)]

def encode : Refusal → Json
  | .unreadable m => .obj [("kind", .str "unreadable"), ("message", .str m)]
  | .unparsable m => .obj [("kind", .str "unparsable"), ("message", .str m)]
  | .invalid errors =>
    .obj [("kind", .str "invalid"), ("errors", ValidationError.encodeAll errors)]

def record : Tag → Record Refusal
  | .unreadable => Refusal.unreadable <$> .required "message" .string
  | .unparsable => Refusal.unparsable <$> .required "message" .string
  | .invalid => Refusal.invalid <$> .required "errors" (.list ValidationError.decode)

def decode : Decoder Refusal :=
  Record.decodeTagged "FailureReason" "kind" tags record

end Refusal

namespace Rejected

def encode (r : Rejected) : Json :=
  .obj
    ([("path", .str r.path), ("collection", .str r.collection)] ++
      entryOfOption "checksum" .str r.checksum ++ [("reason", r.reason.encode)])

def decode : Decoder Rejected :=
  (Rejected.mk <$> .required "path" .string <*> .required "collection" .string <*>
    .optional "checksum" .string <*> .required "reason" Refusal.decode :
    Record Rejected).decode "DocumentFailure"

end Rejected

namespace Outcome

def encode (o : Outcome) : Json :=
  .obj
    [("documents", .arr (o.accepted.map Accepted.encode)),
      ("failures", .arr (o.rejected.map Rejected.encode)),
      ("unmatched", Json.ofStrings o.unmatched)]

def decode : Decoder Outcome :=
  (Outcome.mk <$> .required "documents" (.list Accepted.decode) <*>
    .required "failures" (.list Rejected.decode) <*> .required "unmatched" (.list .string) :
    Record Outcome).decode "LoadOutcome"

end Outcome

end SiteContent
