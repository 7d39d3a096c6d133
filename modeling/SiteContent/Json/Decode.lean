import SiteContent.Json.Basic

/-! Decoding values of a type from JSON. A record is an object, or an array of its fields in their
order. Of the faults of an object, the value that comes first in the JSON wins; an absent field is
reported when every present one is sound. -/

namespace SiteContent

inductive DecodeError where
  | missingField (name : String)
  | unknownVariant (given : String) (expected : List String)
  | invalidType
  | invalidValue
  /-- An array ends before the last field of a record. -/
  | tooShort (length : Nat) (record : String) (fields : Nat)
  /-- An array goes on after the last field of a record, or of a case of a type. -/
  | tooLong (length fields : Nat) (inCase : Bool)
  deriving Repr, DecidableEq

namespace DecodeError

def quoted (s : String) : String :=
  "`" ++ s ++ "`"

def elements (n : Nat) : String :=
  if n = 1 then "1 element" else toString n ++ " elements"

/-- The same error, met while the fields of a case are read. -/
def withinCase : DecodeError → DecodeError
  | .tooLong length fields _ => .tooLong length fields true
  | e => e

def message : DecodeError → String
  | .missingField name => "missing field " ++ quoted name
  | .unknownVariant given expected =>
    "unknown variant " ++ quoted given ++ ", expected " ++
      match expected with
      | [a] => quoted a
      | [a, b] => quoted a ++ " or " ++ quoted b
      | all => "one of " ++ ", ".intercalate (all.map quoted)
  | .invalidType => "invalid type"
  | .invalidValue => "invalid value"
  | .tooShort length record fields =>
    "invalid length " ++ toString length ++ ", expected struct " ++ record ++ " with " ++
      elements fields
  | .tooLong length fields inCase =>
    "invalid length " ++ toString length ++ ", expected " ++
      if inCase then elements fields ++ " in sequence" else "fewer elements in array"

end DecodeError

abbrev Decoder (α : Type) := Json → Except DecodeError α

namespace Decoder

variable {α : Type}

def json : Decoder Json := .ok

def string : Decoder String
  | .str s => .ok s
  | _ => .error .invalidType

def bool : Decoder Bool
  | .bool b => .ok b
  | _ => .error .invalidType

/-- A count: a whole number of 64 bits without sign. -/
def count : Decoder Nat
  | .num (.int n) => if n < 0 then .error .invalidValue else .ok n.toNat
  | _ => .error .invalidType

def each (d : Decoder α) : List Json → Except DecodeError (List α)
  | [] => .ok []
  | v :: vs => do
    let a ← d v
    let as ← each d vs
    .ok (a :: as)

def list (d : Decoder α) : Decoder (List α)
  | .arr vs => each d vs
  | _ => .error .invalidType

def eachEntry (d : Decoder α) : List (String × Json) → Except DecodeError (List (String × α))
  | [] => .ok []
  | (k, v) :: es => do
    let a ← d v
    let as ← eachEntry d es
    .ok ((k, a) :: as)

/-- The entries of an object, in their order. -/
def dict (d : Decoder α) : Decoder (Dict α)
  | .obj es => eachEntry d es
  | _ => .error .invalidType

/-- Finds the value that a literal names. -/
def literal (table : List (String × α)) (s : String) : Except DecodeError α :=
  match table.find? fun e => e.1 = s with
  | some e => .ok e.2
  | none => .error (.unknownVariant s (table.map (·.1)))

/-- A literal, alone or as the one key of an object that holds nothing under it. -/
def choice (table : List (String × α)) : Decoder α
  | .str s => literal table s
  | .obj [(k, v)] =>
    match literal table k, v with
    | .ok a, .null => .ok a
    | .ok _, _ => .error .invalidType
    | .error e, _ => .error e
  | .obj _ => .error .invalidValue
  | _ => .error .invalidType

/-- The literal that tells the cases of a type apart. -/
def tag (table : List (String × α)) : Decoder α
  | .str s => literal table s
  | _ => .error .invalidType

/-- The same among the entries of a larger record, where the number of a case serves as well. -/
def sharedTag (table : List (String × α)) : Decoder α
  | .str s => literal table s
  | .num (.int n) =>
    if n < 0 then .error .invalidType
    else
      match table[n.toNat]? with
      | some e => .ok e.2
      | none => .error .invalidValue
  | _ => .error .invalidType

end Decoder

/-- The fields of a record as the head of an array. The list may end too early, which is no error of
any value in it. -/
structure Row (α : Type) where
  width : Nat
  take : List Json → Except (Option DecodeError) (α × List Json)

/-- Reads one or more fields of a record. -/
structure Record (α : Type) where
  /-- Reads the entries of an object. An error carries the place of its entry; absence has the place
  after the last entry. -/
  read : List (String × Json) → Except (Nat × DecodeError) α
  /-- There is none when some of the fields are shared. -/
  row? : Option (Row α)

namespace Record

variable {α β : Type}

/-- Both readings, or the error that comes first. -/
def both (f : Except (Nat × DecodeError) (α → β)) (x : Except (Nat × DecodeError) α) :
    Except (Nat × DecodeError) β :=
  match f, x with
  | .ok f, .ok a => .ok (f a)
  | .error e, .ok _ | .ok _, .error e => .error e
  | .error e, .error e' => .error (if e'.1 < e.1 then e' else e)

/-- One row after the other. -/
def andThen (f : Row (α → β)) (x : Row α) : Row β where
  width := f.width + x.width
  take vs := do
    let (g, vs) ← f.take vs
    let (a, vs) ← x.take vs
    .ok (g a, vs)

instance : Applicative Record where
  pure a := ⟨fun _ => .ok a, some ⟨0, fun vs => .ok (a, vs)⟩⟩
  seq f x := ⟨fun es => both (f.read es) ((x ()).read es), do
    some (andThen (← f.row?) (← (x ()).row?))⟩

/-- A row of one field, which may be missing at the end of a list where something stands for it. -/
def single (atEnd : Option α) (d : Decoder α) : Row α where
  width := 1
  take
    | [] => match atEnd with
      | some a => .ok (a, [])
      | none => .error none
    | v :: vs => ((d v).map (·, vs)).mapError some

/-- The place and value of a key. -/
def find? (key : String) : List (String × Json) → Option (Nat × Json)
  | [] => none
  | (k, v) :: es => if k = key then some (0, v) else (find? key es).map fun (i, v) => (i + 1, v)

def place (i : Nat) (x : Except DecodeError α) : Except (Nat × DecodeError) α :=
  x.mapError (i, ·)

/-- A field that may be left out in favour of a value. -/
def withDefault (key : String) (value : α) (d : Decoder α) : Record α :=
  ⟨fun es =>
    match find? key es with
    | some (i, v) => place i (d v)
    | none => .ok value, some (single (some value) d)⟩

def required (key : String) (d : Decoder α) : Record α :=
  ⟨fun es =>
    match find? key es with
    | some (i, v) => place i (d v)
    | none => .error (es.length, .missingField key), some (single none d)⟩

/-- A field that may be left out or null. -/
def optional (key : String) (d : Decoder α) : Record (Option α) :=
  withDefault key none fun v =>
    match v with
    | .null => .ok none
    | v => (d v).map some

/-- A part whose fields lie among the others. It is looked at after them. -/
def shared (read : List (String × Json) → Except DecodeError α) : Record α :=
  ⟨fun es => place (es.length + 1) (read es), none⟩

/-- Reads a record on its own. -/
def run (r : Record α) (es : List (String × Json)) : Except DecodeError α :=
  (r.read es).mapError (·.2)

/-- Reads a record from a whole array. The error about an array that is too short names the
record. -/
def ofElements (r : Record α) (name : String) (vs : List Json) : Except DecodeError α :=
  match r.row? with
  | none => .error .invalidType
  | some row =>
    match row.take vs with
    | .error (some e) => .error e
    | .error none => .error (.tooShort vs.length name row.width)
    | .ok (a, []) => .ok a
    | .ok (_, _ :: _) => .error (.tooLong vs.length row.width false)

/-- Decodes a record with shared parts, which only an object can be. -/
def decodeObject (r : Record α) : Decoder α
  | .obj es => r.run es
  | _ => .error .invalidType

def decode (r : Record α) (name : String) : Decoder α
  | .obj es => r.run es
  | .arr vs => r.ofElements name vs
  | _ => .error .invalidType

/-- Reads the case of a type by the literal under `key`, then the fields of that case. -/
def tagged (key : String) (d : Decoder β) (fields : β → Record α) (es : List (String × Json)) :
    Except DecodeError α := do
  match find? key es with
  | none => .error (.missingField key)
  | some (_, v) =>
    let case ← d v
    ((fields case).run es).mapError DecodeError.withinCase

/-- A literal without its underscores and with a capital at the head of each word. -/
def caseName (literal : String) : String :=
  String.join ((literal.splitOn "_").map String.capitalize)

/-- Decodes a type with cases. In an array the literal of the case is the first element. -/
def decodeTagged (name key : String) (table : List (String × β)) (fields : β → Record α) :
    Decoder α
  | .obj es => tagged key (.tag table) fields es
  | .arr [] => .error (.missingField key)
  | .arr (.str s :: vs) => do
    let case ← Decoder.literal table s
    ((fields case).ofElements ("variant " ++ name ++ "::" ++ caseName s) vs).mapError
      DecodeError.withinCase
  | _ => .error .invalidType

end Record

end SiteContent
