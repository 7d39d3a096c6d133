import SiteContent.Glob.Pattern

/-! Matching a whole path, byte by byte, against a pattern. A piece is matched in front of whatever
the rest of the pattern accepts. -/

namespace SiteContent.Glob

def separator : UInt8 := '/'.toUInt8

def bytes (c : Char) : List UInt8 :=
  (String.ofList [c]).toUTF8.toList

/-- What the rest of a pattern accepts. -/
abbrev Rest := List UInt8 → Bool

/-- Strips the given bytes. -/
def strip : List UInt8 → Rest → Rest
  | [], k, s => k s
  | b :: bs, k, s =>
    match s with
    | [] => false
    | x :: s => x == b && strip bs k s

/-- After some bytes without separators. -/
def afterRun (k : Rest) : Rest
  | [] => k []
  | b :: s => k (b :: s) || (b != separator && afterRun k s)

/-- After any bytes at all. -/
def afterAny (k : Rest) : Rest
  | [] => k []
  | b :: s => k (b :: s) || afterAny k s

/-- After some separator. -/
def afterSeparator (k : Rest) : Rest
  | [] => false
  | b :: s => (b == separator && k s) || afterSeparator k s

/-- The bytes of a class, as ranges. The ends of a range meet at the last byte of its first
character and the first byte of its last. -/
def byteRanges : Char × Char → List (UInt8 × UInt8)
  | (a, b) =>
    let as := bytes a
    let bs := bytes b
    if a = b then as.map fun x => (x, x)
    else
      as.dropLast.map (fun x => (x, x)) ++ [(as.getLast?.getD 0, bs.head?.getD 0)] ++
        bs.tail.map fun x => (x, x)

def inRanges (ranges : List (Char × Char)) (b : UInt8) : Bool :=
  (ranges.flatMap byteRanges).any fun r => r.1 ≤ b && b ≤ r.2

mutual

/-- Whether nothing is left of an alternative once empty alternatives are dropped. -/
def isVoid : Piece → Bool
  | .either alternatives => allVoid alternatives
  | _ => false

def allPiecesVoid : List Piece → Bool
  | [] => true
  | p :: ps => isVoid p && allPiecesVoid ps

def allVoid : List (List Piece) → Bool
  | [] => true
  | a :: as => allPiecesVoid a && allVoid as

end

mutual

def piece (k : Rest) : Piece → Rest
  | .literal c => strip (bytes c) k
  | .one => fun s =>
    match s with
    | [] => false
    | b :: s => b != separator && k s
  | .run => afterRun k
  | .leading => fun s => k s || afterSeparator k s
  | .trailing => strip [separator] (afterAny k)
  | .between => strip [separator] fun s => k s || afterSeparator k s
  | .oneOf negated ranges => fun s =>
    match s with
    | [] => false
    | b :: s => (inRanges ranges b != negated) && k s
  | .either alternatives => fun s =>
    if allVoid alternatives then k s else someOf k alternatives s

/-- Pieces one after the other. -/
def sequence (k : Rest) : List Piece → Rest
  | [] => k
  | p :: ps => piece (sequence k ps) p

/-- Empty alternatives do not count. -/
def someOf (k : Rest) : List (List Piece) → Rest
  | [] => fun _ => false
  | a :: as => fun s => (!allPiecesVoid a && sequence k a s) || someOf k as s

end

/-- A pattern of nothing but `**` matches every path. -/
def isMatch (g : Glob) (path : String) : Bool :=
  match g.pieces with
  | [.leading] => true
  | ps => sequence (fun s => s.isEmpty) ps path.toUTF8.toList

end SiteContent.Glob
