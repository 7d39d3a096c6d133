/-! Path patterns: `*` and `?` inside one path component, `**` across components, byte classes and
alternatives. -/

namespace SiteContent

/-- Why a pattern is malformed. -/
inductive GlobFault where
  | unclosedClass
  | invalidRange (first last : Char)
  | unclosedAlternates
  | unopenedAlternates
  | danglingEscape
  deriving Repr, DecidableEq

def GlobFault.message : GlobFault → String
  | .unclosedClass => "unclosed character class; missing ']'"
  | .invalidRange a b =>
    String.ofList ("invalid range; '".toList ++ [a] ++ "' > '".toList ++ [b, '\''])
  | .unclosedAlternates =>
    "unclosed alternate group; missing '\x7d' (maybe escape '\x7b' with '[\x7b]'?)"
  | .unopenedAlternates =>
    "unopened alternate group; missing '\x7b' (maybe escape '\x7d' with '[\x7d]'?)"
  | .danglingEscape => "dangling '\\'"

/-- A malformed pattern, as written. -/
structure GlobError where
  pattern : String
  fault : GlobFault
  deriving Repr, DecidableEq

def GlobError.message (e : GlobError) : String :=
  "error parsing glob '" ++ e.pattern ++ "': " ++ e.fault.message

namespace Glob

inductive Piece where
  | literal (c : Char)
  /-- One byte that is no separator. -/
  | one
  /-- Any run of bytes without separators. -/
  | run
  /-- Zero or more whole components at the head of a path. -/
  | leading
  /-- A separator and anything after it. -/
  | trailing
  /-- A separator, with any components before the next one. -/
  | between
  | oneOf (negated : Bool) (ranges : List (Char × Char))
  | either (alternatives : List (List Piece))
  deriving Repr, Inhabited

/-- A group of alternatives that is not closed yet: the pieces before it and its finished
alternatives, each last first. -/
structure OpenGroup where
  before : List Piece
  finished : List (List Piece)

/-- The pieces of the alternative being read, last first, and the groups around it. -/
structure Reading where
  current : List Piece
  groups : List OpenGroup

namespace Reading

def push (r : Reading) (p : Piece) : Reading :=
  { r with current := p :: r.current }

/-- Puts `**` in place of the separator before it, or leaves an earlier `**` that took it. -/
def replaceSeparator (r : Reading) (p : Piece) : Reading :=
  match r.current with
  | .leading :: _ | .trailing :: _ => r
  | _ :: rest => { r with current := p :: rest }
  | [] => { r with current := [p] }

def openGroup (r : Reading) : Reading :=
  ⟨[], ⟨r.current, []⟩ :: r.groups⟩

def nextAlternative (r : Reading) : Reading :=
  match r.groups with
  | [] => r.push (.literal ',')
  | g :: gs => ⟨[], { g with finished := r.current.reverse :: g.finished } :: gs⟩

def closeGroup (r : Reading) : Except GlobFault Reading :=
  match r.groups with
  | [] => .error .unopenedAlternates
  | g :: gs =>
    .ok ⟨.either (r.current.reverse :: g.finished).reverse :: g.before, gs⟩

/-- Reads `**` given the character before it and the text after it. It spans components only when
it is a component of its own. -/
def doubleStar (r : Reading) (before : Option Char) (rest : List Char) : Reading × List Char :=
  let plain := ((r.push .run).push .run, rest)
  if r.current.isEmpty then
    match rest with
    | [] => (r.push .leading, [])
    | '/' :: rest => (r.push .leading, rest)
    | _ => plain
  else if before ≠ some '/' &&
      (r.groups.isEmpty || (before ≠ some ',' && before ≠ some '\x7b')) then plain
  else
    match rest with
    | [] => (r.replaceSeparator .trailing, [])
    | '/' :: rest => (r.replaceSeparator .between, rest)
    | ',' :: _ | '\x7d' :: _ =>
      if r.groups.isEmpty then plain else (r.replaceSeparator .trailing, rest)
    | _ => plain

end Reading

/-- A class being read: its ranges, last first, and whether a hyphen awaits the end of a range. -/
structure ClassReading where
  ranges : List (Char × Char)
  pending : Bool

/-- Reads a class up to its closing bracket. A bracket or hyphen in first place is literal, and so
is a hyphen in last place. -/
def readClass (c : ClassReading) (first : Bool) :
    List Char → Except GlobFault (List (Char × Char) × List Char)
  | [] => .error .unclosedClass
  | ch :: rest =>
    if ch = ']' && !first then
      .ok ((if c.pending then ('-', '-') :: c.ranges else c.ranges).reverse, rest)
    else if ch = '-' && !first && !c.pending then readClass { c with pending := true } false rest
    else
      match c.pending, c.ranges with
      | true, (a, _) :: ranges =>
        if ch < a then .error (.invalidRange a ch)
        else readClass ⟨(a, ch) :: ranges, false⟩ false rest
      | _, ranges => readClass ⟨(ch, ch) :: ranges, false⟩ false rest

/-- Reads the text after `before`; each step takes a character, so `fuel` of them are enough. -/
def read : Nat → Option Char → Reading → List Char → Except GlobFault Reading
  | 0, _, r, _ | _, _, r, [] => .ok r
  | fuel + 1, before, r, c :: rest =>
    match c with
    | '?' => read fuel (some c) (r.push .one) rest
    | '*' =>
      match rest with
      | '*' :: rest =>
        let (r, left) := r.doubleStar before rest
        read fuel (if left.length < rest.length then some '/' else some '*') r left
      | _ => read fuel (some c) (r.push .run) rest
    | '[' => do
      let (negated, body) :=
        match rest with
        | '!' :: body | '^' :: body => (true, body)
        | body => (false, body)
      let (ranges, rest) ← readClass ⟨[], false⟩ true body
      read fuel (some ']') (r.push (.oneOf negated ranges)) rest
    | '\x7b' => read fuel (some c) r.openGroup rest
    | '\x7d' => do read fuel (some c) (← r.closeGroup) rest
    | ',' => read fuel (some c) r.nextAlternative rest
    | '\\' =>
      match rest with
      | [] => .error .danglingEscape
      | e :: rest => read fuel (some e) (r.push (.literal e)) rest
    | c => read fuel (some c) (r.push (.literal c)) rest

def parsePieces (cs : List Char) : Except GlobFault (List Piece) := do
  let r ← read cs.length none ⟨[], []⟩ cs
  if r.groups.isEmpty then .ok r.current.reverse else .error .unclosedAlternates

end Glob

/-- A pattern with its text. -/
structure Glob where
  text : String
  pieces : List Glob.Piece
  deriving Repr, Inhabited

namespace Glob

def compile (pattern : String) : Except GlobError Glob :=
  match parsePieces pattern.toList with
  | .ok pieces => .ok ⟨pattern, pieces⟩
  | .error fault => .error ⟨pattern, fault⟩

end Glob

end SiteContent
