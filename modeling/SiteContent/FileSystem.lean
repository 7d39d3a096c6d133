import SiteContent.Dict

/-! Trees of files, and what paths mean in them. -/

namespace SiteContent

/-- Why a path cannot be read or written. -/
inductive OsError where
  | notFound
  | permissionDenied
  | notADirectory
  | isADirectory
  | nameTooLong
  | zeroByte
  | other (code : Nat) (text : String)
  deriving Repr, DecidableEq

def OsError.message : OsError → String
  | .notFound => "No such file or directory (os error 2)"
  | .permissionDenied => "Permission denied (os error 13)"
  | .notADirectory => "Not a directory (os error 20)"
  | .isADirectory => "Is a directory (os error 21)"
  | .nameTooLong => "File name too long (os error 36)"
  | .zeroByte => "file name contained an unexpected NUL byte"
  | .other code text => text ++ " (os error " ++ toString code ++ ")"

/-- What cannot be done with a file or a directory, and why. -/
structure Locks where
  /-- Reading the file, or listing the directory. -/
  read : Option OsError := none
  /-- Writing the file, or making new files in the directory. -/
  write : Option OsError := none
  /-- Going through the directory to what is in it. -/
  search : Option OsError := none
  deriving Repr, DecidableEq, Inhabited

inductive FileTree where
  | file (content : List UInt8) (locks : Locks := {})
  | directory (entries : List (String × FileTree)) (locks : Locks := {})
  deriving Repr, Inhabited

namespace FileTree

def empty : FileTree := .directory []

/-- The entries of a directory; a file has none. -/
def entries : FileTree → Dict FileTree
  | .directory es _ => es
  | .file _ _ => []

def locks : FileTree → Locks
  | .directory _ locks => locks
  | .file _ locks => locks

def isDirectory : FileTree → Bool
  | .directory _ _ => true
  | .file _ _ => false

/-- The tree below a sequence of names. -/
def get? : FileTree → List String → Option FileTree
  | t, [] => some t
  | t, name :: rest => (t.entries.get? name).bind fun below => get? below rest

/-- Puts a tree below a sequence of names, with the directories on the way. -/
def put : FileTree → List String → FileTree → FileTree
  | _, [], new => new
  | t, name :: rest, new =>
    .directory (t.entries.insert name (put ((t.entries.get? name).getD empty) rest new)) t.locks

mutual

/-- The files of a tree, each by the names that lead to it. -/
def files : FileTree → List (List String)
  | .file _ _ => [[]]
  | .directory es _ => filesOfEntries es

def filesOfEntries : List (String × FileTree) → List (List String)
  | [] => []
  | (name, t) :: es => t.files.map (name :: ·) ++ filesOfEntries es

end

end FileTree

namespace Path

/-- The parts of a path between its slashes. -/
def parts (path : String) : List String :=
  (path.toList.splitOn '/').map String.ofList

def isAbsolute (path : String) : Bool :=
  path.toList.head? == some '/'

/-- A part that leads nowhere. -/
def isIdle (part : String) : Bool :=
  part == "" || part == "."

/-- What is wrong with a path before any directory is looked at. -/
def fault? (path : String) : Option OsError :=
  if path.toList.contains '\x00' then some .zeroByte
  else if path.isEmpty then some .notFound
  else if 4096 ≤ path.utf8ByteSize then some .nameTooLong
  else none

/-- Whether no directory can have an entry of this name. -/
def isOverlong (name : String) : Bool :=
  255 < name.utf8ByteSize

/-- Joins the names below a directory. -/
def join (names : List String) : String :=
  "/".intercalate names

/-- A path below a directory. No slash is added to one that the directory ends with. -/
def below (directory path : String) : String :=
  match directory.toList.getLast? with
  | none | some '/' => directory ++ path
  | some _ => directory ++ "/" ++ path

/-- The last name of a path, unless the path goes up at its end. -/
def fileName? (path : String) : Option String :=
  match ((parts path).filter fun p => !isIdle p).getLast? with
  | some ".." | none => none
  | some name => some name

/-- What follows the last dot of a name; a dot at the beginning does not count. -/
def nameExtension? (name : String) : Option String :=
  let tail := name.toList.reverse.takeWhile (· ≠ '.')
  if tail.length + 1 < name.length then some (String.ofList tail.reverse) else none

def extension? (path : String) : Option String :=
  (fileName? path).bind nameExtension?

end Path

namespace FileTree

mutual

/-- The directories that a walk of the tree at a path cannot list, by the names that lead to them,
each with the cause. It does not come to anything below them. The last argument is what keeps it
from going through the directory above the tree. -/
def impasses : FileTree → String → Option OsError → List (List String × OsError)
  | .file _ _, _, _ => []
  | .directory es locks, path, above =>
    match (Path.fault? path).or (above.or locks.read) with
    | some cause => [([], cause)]
    | none => impassesOfEntries es path locks.search

def impassesOfEntries : List (String × FileTree) → String → Option OsError →
    List (List String × OsError)
  | [], _, _ => []
  | (name, t) :: es, path, above =>
    (t.impasses (Path.below path name) above).map (fun i => (name :: i.1, i.2)) ++
      impassesOfEntries es path above

end

/-- Whether a walk that takes the entries of each directory by name comes to the first place no
later than to the second. -/
def walkedFirst : List String → List String → Bool
  | [], _ => true
  | _ :: _, [] => false
  | a :: as, b :: bs => if a = b then walkedFirst as bs else decide (a < b)

/-- Where such a walk of the tree at a path ends before its time. -/
def impasse? (t : FileTree) (path : String) : Option (List String × OsError) :=
  ((t.impasses path none).mergeSort fun a b => walkedFirst a.1 b.1).head?

end FileTree

/-- A tree, and the place in it where relative paths begin. -/
structure FileSystem where
  root : FileTree
  workingDirectory : List String
  deriving Repr

namespace FileSystem

/-- Goes on by one part of a path. The directory above the root is the root. -/
def step (fs : FileSystem) (here : List String) (part : String) : Except OsError (List String) :=
  match fs.root.get? here with
  | none => .error .notFound
  | some (.file _ _) => .error .notADirectory
  | some (.directory es locks) =>
    if part = "" then .ok here
    else
      match locks.search with
      | some cause => .error cause
      | none =>
        if part = "." then .ok here
        else if part = ".." then .ok here.dropLast
        else if Path.isOverlong part then .error .nameTooLong
        else if Dict.contains es part then .ok (here ++ [part])
        else .error .notFound

def start (fs : FileSystem) (path : String) : List String :=
  if Path.isAbsolute path then [] else fs.workingDirectory

/-- The names by which a path is reached from the root. -/
def locate (fs : FileSystem) (path : String) : Except OsError (List String) :=
  match Path.fault? path with
  | some e => .error e
  | none => (Path.parts path).foldlM fs.step (fs.start path)

def lookup (fs : FileSystem) (path : String) : Except OsError FileTree := do
  match fs.root.get? (← fs.locate path) with
  | some t => .ok t
  | none => .error .notFound

def read (fs : FileSystem) (path : String) : Except OsError (List UInt8) := do
  match ← fs.lookup path with
  | .file content locks =>
    match locks.read with
    | some cause => .error cause
    | none => .ok content
  | .directory _ locks => .error (locks.read.getD .isADirectory)

/-- What is in the file at a path, whether or not it can be read. -/
def content? (fs : FileSystem) (path : String) : Option (List UInt8) :=
  match fs.lookup path with
  | .ok (.file content _) => some content
  | _ => none

/-- The tree of a directory. -/
def directory? (fs : FileSystem) (path : String) : Option FileTree :=
  match fs.lookup path with
  | .ok (.directory es locks) => some (.directory es locks)
  | _ => none

def isFile (fs : FileSystem) (path : String) : Bool :=
  (fs.content? path).isSome

/-- The directory that a path's last part lies in, and that part; there is none after a slash. -/
def parent (path : String) : List String × String :=
  let ps := Path.parts path
  let named := (ps.reverse.dropWhile (·.isEmpty)).reverse
  if named.length = ps.length then (ps.dropLast, ps.getLastD "") else (named.dropLast, "")

/-- What keeps a file of this name from being written into a directory. -/
def writeFault? (es : Dict FileTree) (locks : Locks) (name : String) : Option OsError :=
  locks.search.or <|
    if Path.isIdle name || name = ".." then some .isADirectory
    else if Path.isOverlong name then some .nameTooLong
    else
      match es.get? name with
      | some (.directory _ _) => some .isADirectory
      | some (.file _ own) => own.write
      | none => locks.write

/-- Writes a file over any file of that path, whose locks it keeps; its directory has to exist. -/
def write (fs : FileSystem) (path : String) (content : List UInt8) :
    Except OsError FileSystem := do
  match Path.fault? path with
  | some e => .error e
  | none =>
    let (above, name) := parent path
    let here ← above.foldlM fs.step (fs.start path)
    match fs.root.get? here with
    | none => .error .notFound
    | some (.file _ _) => .error .notADirectory
    | some (.directory es locks) =>
      match writeFault? es locks name with
      | some e => .error e
      | none =>
        let own := ((Dict.get? es name).map FileTree.locks).getD {}
        .ok { fs with root := fs.root.put (here ++ [name]) (.file content own) }

end FileSystem

end SiteContent
