import SiteContent.Command.Run
import SiteContent.Timestamp
import Std.Time.DateTime.Timestamp

/-! The program: what a command needs of the disk is read first, and what it prints and writes is
carried out afterwards. -/

namespace SiteContent.Program

/-- Why the system refuses something. -/
def causeOf : IO.Error → OsError
  | .noFileOrDirectory _ _ _ => .notFound
  | .permissionDenied _ _ _ => .permissionDenied
  | .interrupted _ code text | .alreadyExists _ code text | .invalidArgument _ code text
  | .resourceExhausted _ code text | .inappropriateType _ code text | .noSuchThing _ code text
  | .otherError code text | .resourceBusy code text | .resourceVanished code text
  | .unsupportedOperation code text | .hardwareFault code text
  | .unsatisfiedConstraints code text | .illegalOperation code text | .protocolError code text
  | .timeExpired code text => .other code.toNat text
  | .unexpectedEof => .other 5 "Input/output error"
  | .userError text => .other 5 text

/-- Reads a file, or a directory with the files and directories in it; what cannot be read is
locked. Links and special files in a directory are left out. -/
partial def readTree (place : IO.FS.DirEntry) : BaseIO FileTree := do
  if ← place.path.isDir then
    match ← place.path.readDir.toBaseIO with
    | .error e => return .directory [] { read := some (causeOf e) }
    | .ok found =>
      let mut entries : Dict FileTree := []
      let mut locks : Locks := {}
      for entry in found do
        match ← entry.path.symlinkMetadata.toBaseIO with
        | .ok status =>
          if status.type == .dir || status.type == .file then
            entries := entries.insert entry.fileName (← readTree entry)
        | .error e =>
          -- Only the name can be told here; one without an extension is taken for a directory's.
          locks := { locks with search := some (causeOf e) }
          let own : Locks := { read := some (causeOf e) }
          entries := entries.insert entry.fileName
            (if (Path.nameExtension? entry.fileName).isSome then .file [] own
            else .directory [] own)
      return .directory entries locks
  else
    match ← (IO.FS.readBinFile place.path).toBaseIO with
    | .ok content => return .file content.toList
    | .error e => return .file [] { read := some (causeOf e) }

/-- Adds the directories that a path leads through, and the file at its end or, where `deep` says
so, the tree. -/
def survey (fs : FileSystem) (path : String) (deep : Bool) : BaseIO FileSystem := do
  let mut root := fs.root
  let mut here := fs.start path
  let mut walked := if Path.isAbsolute path then "/" else "."
  for part in Path.parts path do
    let above := here
    walked := walked ++ "/" ++ part
    here :=
      if Path.isIdle part then here else if part = ".." then here.dropLast else here ++ [part]
    let place : IO.FS.DirEntry := ⟨".", walked⟩
    match ← place.path.metadata.toBaseIO, root.get? above with
    | .ok status, _ =>
      let t ← if status.type == .dir then pure ((root.get? here).getD .empty) else readTree place
      root := root.put here t
    | .error (.permissionDenied _ _ _), some (.directory es locks) =>
      root := root.put above (.directory es { locks with search := some .permissionDenied })
    | .error _, _ => pure ()
  if deep && (root.get? here).isSome then
    root := root.put here (← readTree ⟨".", walked⟩)
  return { fs with root }

/-- The part of the disk that a command looks at. -/
def filesFor (command : Command) : IO FileSystem := do
  let directory := (← IO.currentDir).toString
  let names := (Path.parts directory).filter fun p => !Path.isIdle p
  let mut fs : FileSystem := ⟨FileTree.empty.put names .empty, names⟩
  match command with
  | .validate o =>
    fs ← survey fs (o.configFile.getD Command.standardConfigFile) false
    if let some path := o.reportFile then
      fs ← survey fs path false
    if let .ok c := Command.configuration fs o.configFile then
      fs ← survey fs (o.apply c).contentDir true
    return fs
  | .check _ file _ _ => survey fs file false
  | .collections | .schema _ => return fs

/-- Writes a report file that a run has changed, or tells why this cannot be done. -/
def keepReport (command : Command) (before after : FileSystem) : IO (Option OsError) := do
  if let .validate o := command then
    if let some path := o.reportFile then
      if let some content := after.content? path then
        if before.content? path != some content then
          if let .error e ← (IO.FS.writeBinFile path ⟨content.toArray⟩).toBaseIO then
            return some (causeOf e)
  return none

/-- The same files, but that the one at a path cannot be written. -/
def lockReport (command : Command) (fs : FileSystem) (cause : OsError) : FileSystem :=
  match command with
  | .validate { reportFile := some path, .. } =>
    let (above, name) := FileSystem.parent path
    match above.foldlM fs.step (fs.start path) with
    | .error _ => fs
    | .ok here =>
      let relock (t : FileTree) : FileTree :=
        match t with
        | .file content locks => .file content { locks with write := some cause }
        | .directory es locks => .directory es { locks with write := some cause }
      let place := if (fs.root.get? (here ++ [name])).isSome then here ++ [name] else here
      match fs.root.get? place with
      | some t => { fs with root := fs.root.put place (relock t) }
      | none => fs
  | _ => fs

/-- Runs a command. Whether a report can be written shows when it is written. -/
def perform (now : String) (args : List String) : IO Command.Result := do
  match Command.parse args with
  | .error _ => return Command.runArguments .sequential ⟨.empty, []⟩ now args
  | .ok command =>
    let fs ← filesFor command
    let result := command.run .sequential fs now
    match ← keepReport command fs result.files with
    | none => return result
    | some cause => return command.run .sequential (lockReport command fs cause) now

end SiteContent.Program

open SiteContent in
def main (args : List String) : IO UInt32 := do
  let now := Timestamp.render
    (← Std.Time.Timestamp.now).toNanosecondsSinceUnixEpoch.val.toNat
  let result ← Program.perform now args
  (← IO.getStdout).putStr result.stdout
  (← IO.getStderr).putStr result.stderr
  return result.exitCode.toUInt32
