import Z80Backend.Document.Token.Lexer

/-! # Nodes of a document

    The tokens of a text make a tree of scalars, sequences and mappings.
    Only the first document of a text is read.

    A node may have a tag, which says what it is, and an anchor, by which
    aliases elsewhere stand for it.  A node may stand inside itself by an
    alias, so an alias holds the number of an anchor and not a node. -/

namespace Z80Backend.Document

/-! ## Nodes -/

/-- A node.  An empty tag is none. -/
inductive Node where
  /-- A scalar; `plain` unless it is quoted or a block. -/
  | scalar (tag text : String) (plain : Bool)
  | sequence (tag : String) (items : List Node)
  | mapping (tag : String) (entries : List (Node × Node))
  /-- Stands for the node with anchor number `target`. -/
  | aliasOf (name : String) (target : Nat)
  deriving Repr, Inhabited

/-- The node where nothing is written. -/
def Node.empty : Node := .scalar "" "" true

/-- The anchors of a document, numbered in the order of their names. -/
structure Anchors where
  /-- The numbers of the names, the last one first. -/
  names : List (String × Nat) := []
  /-- The nodes that are complete, by their numbers. -/
  nodes : List (Nat × Node) := []
  deriving Repr, Inhabited

/-- Gives a name the next number. -/
def Anchors.declare (a : Anchors) (name : String) : Anchors :=
  { a with names := (name, a.names.length) :: a.names }

/-! ## Tags -/

/-- The tags of the standard types start with this. -/
def standardTag : String := "tag:yaml.org,2002:"

/-- A tag in short form: the standard ones start with `!!`, and the tag `!` is
    none. -/
def shortTag (s : String) : String :=
  if s.startsWith standardTag then "!!" ++ String.ofList (s.toList.drop standardTag.length)
  else if s == "!" then ""
  else s

/-! ## Reading nodes -/

/-- What is left to read, with the handles and anchors declared so far. -/
structure Reading where
  tokens : List Token
  handles : List (String × String) := []
  anchors : Anchors := {}
  deriving Repr, Inhabited

/-- A reader of a part of a document; it fails where the document does. -/
abbrev Reader := StateT Reading Option

namespace Reader

/-- The next token. -/
def peek : Reader Token := do
  match (← get).tokens with
  | t :: _ => return t
  | [] => failure

/-- Passes the next token. -/
def skip : Reader Unit := modify fun r => { r with tokens := r.tokens.drop 1 }

/-- Passes the next token if it is `t`. -/
def accept (t : Token) : Reader Bool := do
  if (← peek) == t then
    skip
    return true
  else return false

/-- Passes the next token, which has to be `t`. -/
def expect (t : Token) : Reader Unit := do
  if ← accept t then return else failure

/-- Is the next token one of `ts`? -/
def sees (ts : List Token) : Reader Bool := return ts.contains (← peek)

/-- Reads an anchor, if there is one. -/
def anchor? : Reader (Option String) := do
  match ← peek with
  | .anchor name =>
    skip
    return some name
  | _ => return none

/-- The tag that a handle and a suffix make. -/
def fullTag (handle suffix : String) : Reader String := do
  if handle.isEmpty then return suffix
  else
    match (← get).handles.lookup handle with
    | some meaning => return meaning ++ suffix
    | none => failure

/-- Reads a tag, if there is one. -/
def tag? : Reader (Option String) := do
  match ← peek with
  | .tag handle suffix =>
    skip
    return some (← fullTag handle suffix)
  | _ => return none

/-- Reads an anchor and a tag, in either order; both may be missing. -/
def properties : Reader (Option String × Option String) := do
  match ← anchor? with
  | some name => return (some name, ← tag?)
  | none =>
    match ← tag? with
    | some t => return (← anchor?, some t)
    | none => return (none, none)

/-- The number that a name stands for. -/
def target (name : String) : Reader Nat := do
  match (← get).anchors.names.lookup name with
  | some n => return n
  | none => failure

/-- Gives an anchor its number. -/
def declare (name : String) : Reader Nat := do
  let n := (← get).anchors.names.length
  modify fun r => { r with anchors := r.anchors.declare name }
  return n

/-- Keeps a node that has an anchor. -/
def keep (n : Nat) (node : Node) : Reader Unit :=
  modify fun r => { r with anchors := { r.anchors with nodes := (n, node) :: r.anchors.nodes } }

/-! ## Collections

    The readers of collections take the number of steps they may use.  Each
    step passes a token or is followed by one that does. -/

/-- The node that has properties and nothing else. -/
def blank (optional : Bool) (tag : String) : Reader Node :=
  if optional then return .scalar tag "" true else failure

/-- Reads a node that is left out in front of the tokens `ends`. -/
def orEmpty (ends : List Token) (read : Reader Node) : Reader Node := do
  if ← sees ends then return .empty else read

mutual

/-- Reads a node.  Block collections are read only in a block, and a sequence
    at the column of its key only as the value or key of a block mapping. -/
def node : Nat → Bool → Bool → Reader Node
  | 0, _, _ => failure
  | n + 1, block, sameColumn => do
    match ← peek with
    | .aliasOf name =>
      skip
      return .aliasOf name (← target name)
    | _ =>
      let (name?, tag?) ← properties
      let number? ← name?.mapM declare
      let x ← content n block sameColumn (shortTag (tag?.getD "")) (name?.isSome || tag?.isSome)
      number?.forM fun i => keep i x
      return x

/-- Reads a node behind its properties.  It may be left out when it has
    some. -/
def content : Nat → Bool → Bool → String → Bool → Reader Node
  | 0, _, _, _, _ => failure
  | n + 1, block, sameColumn, tag, optional => do
    match ← peek with
    | .scalar text plain =>
      skip
      return .scalar tag text plain
    | .flowSequenceStart =>
      skip
      return .sequence tag (← flowItems n true)
    | .flowMappingStart =>
      skip
      return .mapping tag (← flowEntries n true)
    | .blockEntry =>
      if sameColumn then return .sequence tag (← looseItems n) else blank optional tag
    | .blockSequenceStart =>
      if block then
        skip
        return .sequence tag (← blockItems n)
      else blank optional tag
    | .blockMappingStart =>
      if block then
        skip
        return .mapping tag (← blockEntries n)
      else blank optional tag
    | _ => blank optional tag

/-- Reads the items of a block sequence. -/
def blockItems : Nat → Reader (List Node)
  | 0 => failure
  | n + 1 => do
    if ← accept .blockEnd then return []
    else if ← accept .blockEntry then
      let x ← orEmpty [.blockEntry, .blockEnd] (node n true false)
      return x :: (← blockItems n)
    else failure

/-- Reads the items of a sequence at the column of its key. -/
def looseItems : Nat → Reader (List Node)
  | 0 => failure
  | n + 1 => do
    if ← accept .blockEntry then
      let x ← orEmpty [.blockEntry, .key, .value, .blockEnd] (node n true false)
      return x :: (← looseItems n)
    else return []

/-- Reads the entries of a block mapping. -/
def blockEntries : Nat → Reader (List (Node × Node))
  | 0 => failure
  | n + 1 => do
    if ← accept .blockEnd then return []
    else if ← accept .key then
      let ends : List Token := [.key, .value, .blockEnd]
      let k ← orEmpty ends (node n true true)
      let v ← if ← accept .value then orEmpty ends (node n true true) else pure .empty
      return (k, v) :: (← blockEntries n)
    else failure

/-- Reads the items of a flow sequence.  A pair of key and value may stand for
    a mapping with one entry. -/
def flowItems : Nat → Bool → Reader (List Node)
  | 0, _ => failure
  | n + 1, first => do
    if ← accept .flowSequenceEnd then return []
    else
      if !first then expect .flowEntry
      if ← accept .key then
        let x ← flowPair n
        return x :: (← flowItems n false)
      else if ← accept .flowSequenceEnd then return []
      else
        let x ← node n false false
        return x :: (← flowItems n false)

/-- Reads a pair inside a flow sequence, behind the mark of its key. -/
def flowPair : Nat → Reader Node
  | 0 => failure
  | n + 1 => do
    let k ←
      if ← sees [.value, .flowEntry, .flowSequenceEnd] then
        skip
        pure .empty
      else node n false false
    let v ←
      if ← accept .value then orEmpty [.flowEntry, .flowSequenceEnd] (node n false false)
      else pure .empty
    return .mapping "" [(k, v)]

/-- Reads the entries of a flow mapping. -/
def flowEntries : Nat → Bool → Reader (List (Node × Node))
  | 0, _ => failure
  | n + 1, first => do
    if ← accept .flowMappingEnd then return []
    else
      if !first then expect .flowEntry
      if ← accept .key then
        let ends : List Token := [.flowEntry, .flowMappingEnd]
        let k ← orEmpty (.value :: ends) (node n false false)
        let v ← if ← accept .value then orEmpty ends (node n false false) else pure .empty
        return (k, v) :: (← flowEntries n false)
      else if ← accept .flowMappingEnd then return []
      else
        let k ← node n false false
        return (k, .empty) :: (← flowEntries n false)

end

/-! ## Documents -/

/-- Does the token stand between documents? -/
def isBoundary : Token → Bool
  | .version _ _ | .tagHandle _ _ | .documentStart | .documentEnd | .streamEnd => true
  | _ => false

/-- Reads directives.  Of the versions of YAML only 1.1 is known, and nothing
    may be declared twice. -/
def directives : Nat → Bool → Reader Unit
  | 0, _ => failure
  | n + 1, versioned => do
    match ← peek with
    | .version major minor =>
      if versioned || major != 1 || minor != 1 then failure
      skip
      directives n true
    | .tagHandle handle meaning =>
      if ((← get).handles.lookup handle).isSome then failure
      skip
      modify fun r => { r with handles := (handle, meaning) :: r.handles }
      directives n versioned
    | _ => return

/-- The handles that need no declaration. -/
def knownHandles : List (String × String) := [("!", "!"), ("!!", standardTag)]

/-- Reads the root of the first document; a text without one has an empty
    root.  The token behind the root has to be there. -/
def root (n : Nat) : Reader Node := do
  match ← peek with
  | .streamEnd => return .empty
  | t =>
    let marked := isBoundary t && t != .documentEnd
    if marked then
      directives n false
      expect .documentStart
    modify fun r => { r with handles := r.handles ++ knownHandles }
    let bare ← if marked then isBoundary <$> peek else pure false
    let x ← if bare then pure .empty else node n true false
    let _ ← peek
    return x

end Reader

end Z80Backend.Document

namespace Z80Backend

/-- A document. -/
structure Document where
  root : Document.Node
  /-- The nodes with anchors, by their numbers. -/
  anchored : List (Nat × Document.Node) := []
  /-- The number of tokens; there are no more nodes than that. -/
  size : Nat := 0
  deriving Repr, Inhabited

/-- Reads the first document of a text. -/
def Document.ofString (s : String) : Option Document := do
  let ts := tokens s
  let (root, r) ← (Reader.root (3 * ts.length + 4)).run { tokens := ts }
  return { root, anchored := r.anchors.nodes, size := ts.length }

end Z80Backend
