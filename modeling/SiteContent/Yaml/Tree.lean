import SiteContent.Dict
import SiteContent.Yaml.Lexer

/-! The nodes of a YAML document, from its tokens. -/

namespace SiteContent.Yaml

/-- What may stand before a node. Anchors are numbered. -/
structure Properties where
  anchor : Option Nat := none
  tag : Option Tag := none
  deriving Repr, DecidableEq

inductive Tree where
  | alias (anchor : Nat)
  | scalar (properties : Properties) (text : String) (style : Style)
  | sequence (properties : Properties) (items : List Tree)
  | mapping (properties : Properties) (entries : List (Tree × Tree))
  deriving Repr, Inhabited

namespace Tree

/-- The node that stands where nothing is written. -/
def void : Tree :=
  .scalar {} "" .plain

def properties : Tree → Properties
  | .alias _ => {}
  | .scalar ps _ _ | .sequence ps _ | .mapping ps _ => ps

mutual

/-- A node and all nodes below it, in the order in which they begin. -/
def nodes : Tree → List Tree
  | .sequence ps items => .sequence ps items :: nodesOfItems items
  | .mapping ps entries => .mapping ps entries :: nodesOfEntries entries
  | t => [t]

def nodesOfItems : List Tree → List Tree
  | [] => []
  | t :: ts => t.nodes ++ nodesOfItems ts

def nodesOfEntries : List (Tree × Tree) → List Tree
  | [] => []
  | (k, v) :: es => k.nodes ++ (v.nodes ++ nodesOfEntries es)

end

mutual

/-- How many marks it takes to write a tree down: one for a leaf, and two around a collection. -/
def size : Tree → Nat
  | .sequence _ items => sizeOfItems items + 2
  | .mapping _ entries => sizeOfEntries entries + 2
  | _ => 1

def sizeOfItems : List Tree → Nat
  | [] => 0
  | t :: ts => t.size + sizeOfItems ts

def sizeOfEntries : List (Tree × Tree) → Nat
  | [] => 0
  | (k, v) :: es => k.size + v.size + sizeOfEntries es

end

/-- The node that the aliases of an anchor stand for: of several, the last to begin. -/
def target? (root : Tree) (anchor : Nat) : Option Tree :=
  root.nodes.foldl (fun found t => if t.properties.anchor = some anchor then some t else found) none

/-- The tokens still to be read, and the numbers of the anchors met so far. -/
structure Reading where
  rest : List Token
  anchors : Dict Nat

abbrev Reader := StateT Reading Option

namespace Reader

def peek : Reader (Option Token) := do
  return (← get).rest.head?

def skip : Reader Unit :=
  modify fun r => { r with rest := r.rest.tail }

/-- Passes the next token if it is the given one. -/
def skipIf (t : Token) : Reader Bool := do
  if (← peek) == some t then
    skip
    return true
  else return false

/-- Passes the comma before an entry; there is none before the first. -/
def separator (first : Bool) : Reader Bool :=
  if first then return true else skipIf .comma

def fail {α : Type} : Reader α :=
  fun _ => none

/-- A new name takes the next number, and so does a name that is used again; only new names count
towards the next number. -/
def declare (name : String) : Reader Nat := do
  let r ← get
  let number := r.anchors.length
  set { r with anchors := r.anchors.insert name number }
  return number

def anchor : Reader (Option Nat) := do
  match ← peek with
  | some (.anchor name) =>
    skip
    return some (← declare name)
  | _ => return none

/-- The meaning of a tag, by the handles that the document declares. -/
def tag (handles : Dict Tag) : Reader (Option Tag) := do
  match ← peek with
  | some (.tag handle suffix) =>
    skip
    if handle.isEmpty then return some suffix
    else
      match handles.get? handle with
      | some expansion => return some (expansion.append suffix)
      | none => fail
  | _ => return none

/-- An anchor and a tag, in either order. -/
def properties (handles : Dict Tag) : Reader Properties := do
  match ← anchor with
  | some a => return ⟨some a, ← tag handles⟩
  | none =>
    let t ← tag handles
    return ⟨← anchor, t⟩

/-- Where a node may stand: whether block collections may, and whether a sequence may without
indentation of its own. -/
structure Position where
  block : Bool
  unindented : Bool

def nextIsOneOf (ts : List Token) : Reader Bool := do
  match ← peek with
  | some t => return ts.contains t
  | none => return true

mutual

def node (handles : Dict Tag) : Nat → Position → Reader Tree
  | 0, _ => fail
  | fuel + 1, position => do
    match ← peek with
    | some (.alias name) =>
      skip
      match (← get).anchors.get? name with
      | some a => return .alias a
      | none => fail
    | _ =>
      let ps ← properties handles
      match ← peek with
      | some .hyphen =>
        if position.unindented then return .sequence ps (← unindentedItems handles fuel)
        else leaf ps
      | some (.scalar text style) =>
        skip
        return .scalar ps text style
      | some .openBracket =>
        skip
        return .sequence ps (← flowItems handles fuel true)
      | some .openBrace =>
        skip
        return .mapping ps (← flowEntries handles fuel true)
      | some .blockSequence =>
        if position.block then
          skip
          return .sequence ps (← blockItems handles fuel)
        else leaf ps
      | some .blockMapping =>
        if position.block then
          skip
          return .mapping ps (← blockEntries handles fuel)
        else leaf ps
      | _ => leaf ps

/-- A node without content needs an anchor or a tag. -/
def leaf (ps : Properties) : Reader Tree :=
  if ps = {} then fail else return .scalar ps "" .plain

/-- A node, or nothing before one of the given tokens. -/
def nodeUnless (handles : Dict Tag) : Nat → Position → List Token → Reader Tree
  | 0, _, _ => fail
  | fuel + 1, position, ts => do
    if ← nextIsOneOf ts then return void
    else node handles fuel position

def blockItems (handles : Dict Tag) : Nat → Reader (List Tree)
  | 0 => fail
  | fuel + 1 => do
    if ← skipIf .hyphen then
      let item ← nodeUnless handles fuel ⟨true, false⟩ [.hyphen, .blockEnd]
      return item :: (← blockItems handles fuel)
    else if ← skipIf .blockEnd then return []
    else fail

def unindentedItems (handles : Dict Tag) : Nat → Reader (List Tree)
  | 0 => fail
  | fuel + 1 => do
    if ← skipIf .hyphen then
      let item ← nodeUnless handles fuel ⟨true, false⟩ [.hyphen, .key, .value, .blockEnd]
      return item :: (← unindentedItems handles fuel)
    else return []

def blockEntries (handles : Dict Tag) : Nat → Reader (List (Tree × Tree))
  | 0 => fail
  | fuel + 1 => do
    if ← skipIf .key then
      let k ← nodeUnless handles fuel ⟨true, true⟩ [.key, .value, .blockEnd]
      let v ←
        if ← skipIf .value then
          nodeUnless handles fuel ⟨true, true⟩ [.key, .value, .blockEnd]
        else pure void
      return (k, v) :: (← blockEntries handles fuel)
    else if ← skipIf .blockEnd then return []
    else fail

def flowItems (handles : Dict Tag) : Nat → Bool → Reader (List Tree)
  | 0, _ => fail
  | fuel + 1, first => do
    if ← skipIf .closeBracket then return []
    else if !(← separator first) then fail
    else if ← skipIf .closeBracket then return []
    else
      let item ←
        if ← skipIf .key then pair handles fuel
        else node handles fuel ⟨false, false⟩
      return item :: (← flowItems handles fuel false)

/-- A mapping of one entry that stands as an item. The token in the place of an empty key is
passed. -/
def pair (handles : Dict Tag) : Nat → Reader Tree
  | 0 => fail
  | fuel + 1 => do
    let k ←
      if ← nextIsOneOf [.value, .comma, .closeBracket] then
        skip
        pure void
      else node handles fuel ⟨false, false⟩
    let v ←
      if ← skipIf .value then
        nodeUnless handles fuel ⟨false, false⟩ [.comma, .closeBracket]
      else pure void
    return .mapping {} [(k, v)]

def flowEntries (handles : Dict Tag) : Nat → Bool → Reader (List (Tree × Tree))
  | 0, _ => fail
  | fuel + 1, first => do
    if ← skipIf .closeBrace then return []
    else if !(← separator first) then fail
    else if ← skipIf .closeBrace then return []
    else
      let entry ←
        if ← skipIf .key then do
          let k ← nodeUnless handles fuel ⟨false, false⟩ [.value, .comma, .closeBrace]
          let v ←
            if ← skipIf .value then
              nodeUnless handles fuel ⟨false, false⟩ [.comma, .closeBrace]
            else pure void
          pure (k, v)
        else do
          let k ← node handles fuel ⟨false, false⟩
          pure (k, void)
      return entry :: (← flowEntries handles fuel false)

end

/-- The directives before a document: the version at most once, and each handle at most once. -/
def directives : Bool → Dict Tag → List Token → Option (Dict Tag × List Token)
  | versioned, handles, .version major minor :: rest =>
    if versioned || major ≠ 1 || (minor ≠ 1 && minor ≠ 2) then none
    else directives true handles rest
  | versioned, handles, .tagHandle handle expansion :: rest =>
    if handles.contains handle then none
    else directives versioned (handles.insert handle expansion) rest
  | _, handles, rest => some (handles, rest)

/-- The handles that need no directive. -/
def standardHandles : Dict Tag :=
  [("!", .mark), ("!!", .standard "")]

def isDirective : Token → Bool
  | .version _ _ | .tagHandle _ _ => true
  | _ => false

/-- Reads one node from the given tokens, and gives the tokens after it. -/
def document (handles : Dict Tag) (ts : List Token) : Option (Tree × List Token) := do
  let handles := handles.foldl (fun d e => d.insert e.1 e.2) standardHandles
  let (t, r) ← (node handles (3 * ts.length + 3) ⟨true, false⟩).run ⟨ts, []⟩
  some (t, r.rest)

end Reader

/-- The document that a list of tokens makes up. There is one at most; a text without any is
void. -/
def ofTokens? (ts : List Token) : Option Tree := do
  let (handles, marked) ← Reader.directives false [] ts
  let explicit := marked.head? == some .documentStart
  let body := if explicit then marked.tail else marked
  if ts.isEmpty then some void
  else if !explicit && (ts.head?.any Reader.isDirective || ts.head? == some .documentEnd) then none
  else
    let (t, rest) ←
      if explicit && (body.isEmpty || body.head?.any fun t =>
          Reader.isDirective t || t == .documentStart || t == .documentEnd) then
        some (void, body)
      else Reader.document handles body
    if rest.all (· == .documentEnd) then some t else none

end Tree

end SiteContent.Yaml
