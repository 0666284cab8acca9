import Z80Backend.Document.Token.Property

/-! # Cutting a text into tokens

    A `Lexer` holds the place in the text, the tokens found so far, and what
    it takes to see the structure: the columns of the open block collections,
    and for each collection where a key may have started.

    That a key was a key shows only at the colon behind it.  Then the token
    `key` is put in front of it and, when it is the first key at its column,
    the start of a block mapping.  A key without a question mark stays on one
    line and is at most 1024 characters long.

    A text may go wrong behind the first document.  A token is handed on only
    when two more have been found and it can no longer become a key, so the
    fault still counts when it comes that soon. -/

namespace Z80Backend.Document

/-- The place where a key may have started. -/
structure KeyStart where
  /-- The number of its first token. -/
  token : Nat
  index : Nat
  line : Nat
  column : Nat
  /-- Does the block mapping need a key here? -/
  required : Bool
  deriving DecidableEq, Repr, Inhabited

/-- Can what started here still be a key?  It must not have gone on to another
    line, nor be too long. -/
def KeyStart.isOpen (k : KeyStart) (c : Cursor) : Bool :=
  c.line ≤ k.line && c.index ≤ k.index + 1024

/-- A text that is being cut into tokens. -/
structure Lexer where
  cursor : Cursor
  tokens : Array Token := #[]
  /-- The columns of the open block collections, the innermost first. -/
  indents : List Nat := []
  /-- Where a key may have started in the innermost collection. -/
  key : Option KeyStart := none
  /-- The same for each collection around one in flow style, from the inside
      out. -/
  outer : List (Option KeyStart) := []
  /-- May a key start here? -/
  keyAllowed : Bool := true
  deriving Repr, Inhabited

namespace Lexer

/-- The deepest nesting that is read. -/
def maxDepth : Nat := 10000

/-- Is the place inside a collection in flow style? -/
def inFlow (l : Lexer) : Bool := !l.outer.isEmpty

/-- The column of the innermost block collection, `-1` outside all of them. -/
def indent (l : Lexer) : Int := (l.indents.head?.map Int.ofNat).getD (-1)

/-- Adds a token. -/
def push (l : Lexer) (t : Token) : Lexer := { l with tokens := l.tokens.push t }

/-- Passes `n` characters and adds the token they make. -/
def take (l : Lexer) (n : Nat) (t : Token) : Lexer :=
  { l with cursor := l.cursor.advance n }.push t

/-- Allows or forbids a key at the next place. -/
def allowKey (l : Lexer) (b : Bool) : Lexer := { l with keyAllowed := b }

/-! ## Block structure -/

/-- Closes the block collections to the right of a column. -/
def unindent (l : Lexer) (column : Int) : Lexer :=
  if l.inFlow then l
  else
    let closed := l.indents.takeWhile fun (i : Nat) => column < (i : Int)
    { l with
      indents := l.indents.drop closed.length
      tokens := closed.foldl (fun ts _ => ts.push .blockEnd) l.tokens }

/-- Opens a block collection at a column that lies further right than the
    innermost one.  Its token goes in as number `n`. -/
def openBlock? (l : Lexer) (column : Nat) (n : Nat) (t : Token) : Option Lexer :=
  if l.inFlow || (column : Int) ≤ l.indent then some l
  else if l.indents.length < maxDepth then
    some { l with indents := column :: l.indents, tokens := l.tokens.insertIdxIfInBounds n t }
  else none

/-! ## Keys -/

/-- Gives up the key that may have started, which fails when there has to be
    one. -/
def dropKey? (l : Lexer) : Option Lexer :=
  match l.key with
  | some k => if k.required then none else some { l with key := none }
  | none   => some l

/-- Notes that a key may start here. -/
def startKey? (l : Lexer) : Option Lexer :=
  if l.keyAllowed then do
    let c := l.cursor
    let k : KeyStart :=
      { token := l.tokens.size, index := c.index, line := c.line, column := c.column
        required := !l.inFlow && l.indent == (c.column : Int) }
    return { ← l.dropKey? with key := some k }
  else some l

/-- The key in front of a colon; it fails when there has to be one and is
    none. -/
def finishedKey? (l : Lexer) : Option (Option KeyStart) :=
  match l.key with
  | some k => if k.isOpen l.cursor then some (some k) else if k.required then none else some none
  | none   => some none

/-! ## Single tokens -/

/-- Adds a mark that starts an item or a key of a block collection.  In a block
    it opens the collection and has to stand where a key may start. -/
def blockMark? (l : Lexer) (start : Token) : Option Lexer :=
  if l.inFlow then some l
  else if l.keyAllowed then l.openBlock? l.cursor.column l.tokens.size start
  else none

/-- Reads the mark of an item. -/
def entry? (l : Lexer) : Option Lexer := do
  let l ← (← l.blockMark? .blockSequenceStart).dropKey?
  return (l.allowKey true).take 1 .blockEntry

/-- Reads the mark of a key. -/
def keyMark? (l : Lexer) : Option Lexer := do
  let l ← (← l.blockMark? .blockMappingStart).dropKey?
  return (l.allowKey !l.inFlow).take 1 .key

/-- Reads the colon in front of a value. -/
def colon? (l : Lexer) : Option Lexer := do
  match ← l.finishedKey? with
  | some k =>
    let l := { l with tokens := l.tokens.insertIdxIfInBounds k.token .key, key := none }
    let l ← l.openBlock? k.column k.token .blockMappingStart
    return (l.allowKey false).take 1 .value
  | none =>
    let l ← { l with key := none }.blockMark? .blockMappingStart
    return (l.allowKey !l.inFlow).take 1 .value

/-- Opens a collection in flow style. -/
def openFlow? (l : Lexer) (t : Token) : Option Lexer := do
  let l ← l.startKey?
  if l.outer.length < maxDepth then
    return ({ l with key := none, outer := l.key :: l.outer }.allowKey true).take 1 t
  else none

/-- Closes a collection in flow style. -/
def closeFlow? (l : Lexer) (t : Token) : Option Lexer := do
  let l ← l.dropKey?
  let l := match l.outer with
    | k :: ks => { l with key := k, outer := ks }
    | [] => l
  return (l.allowKey false).take 1 t

/-- Reads a comma. -/
def comma? (l : Lexer) : Option Lexer := do
  return ((← l.dropKey?).allowKey true).take 1 .flowEntry

/-- Adds a token that may start a key; `r` is the token and the place behind
    it. -/
def keyed? (l : Lexer) (r : Option (Token × Cursor)) : Option Lexer := do
  let l ← l.startKey?
  let (t, c) ← r
  return ({ l with cursor := c }.allowKey false).push t

/-- Reads a plain scalar.  A key may start behind it when a line has ended. -/
def plain? (l : Lexer) : Option Lexer := do
  let (s, ended, c) ← l.cursor.plain? l.inFlow (l.indent + 1)
  return (← l.keyed? (some (.scalar s true, c))).allowKey ended

/-- Reads a quoted scalar. -/
def quoted? (l : Lexer) (quote : Char) : Option Lexer :=
  l.keyed? ((l.cursor.quoted? quote).map fun (s, c) => (.scalar s false, c))

/-- Reads a block scalar. -/
def block? (l : Lexer) : Option Lexer := do
  let l ← l.dropKey?
  let (s, c) ← l.cursor.block? l.indent
  return ({ l with cursor := c }.allowKey true).push (.scalar s false)

/-- Adds the mark of a boundary between documents, or the end of the text. -/
def boundary? (l : Lexer) (n : Nat) (t : Token) : Option Lexer := do
  return ((← (l.unindent (-1)).dropKey?).allowKey false).take n t

/-- Reads a directive. -/
def directive? (l : Lexer) : Option Lexer := do
  let l ← (l.unindent (-1)).dropKey?
  let (t, c) ← l.cursor.directive?
  return ({ l with cursor := c }.allowKey false).push t

/-! ## The next token -/

/-- The characters that have a meaning of their own at the start of a token. -/
def indicators : List Char := "-?:,[]\x7b\x7d#&*!|>\x27\"%@\x60".toList

/-- May a plain scalar start with `d`, with `ds` behind it? -/
def startsPlain (inFlow : Bool) (d : Char) (ds : List Char) : Bool :=
  !(isSeparator d || indicators.contains d) ||
    (d == '-' && !ds.head?.any isBlank) ||
    (!inFlow && (d == '?' || d == ':') && !endsWord ds)

/-- Reads a token inside a line; it starts with `d`, with `ds` behind it. -/
def inLine? (l : Lexer) (d : Char) (ds : List Char) : Option Lexer :=
  if d == '[' then l.openFlow? .flowSequenceStart
  else if d == '\x7b' then l.openFlow? .flowMappingStart
  else if d == ']' then l.closeFlow? .flowSequenceEnd
  else if d == '\x7d' then l.closeFlow? .flowMappingEnd
  else if d == ',' then l.comma?
  else if d == '-' && endsWord ds then l.entry?
  else if d == '?' && (l.inFlow || endsWord ds) then l.keyMark?
  else if d == ':' && (l.inFlow || endsWord ds) then l.colon?
  else if d == '*' then l.keyed? (l.cursor.anchorName?.map fun (s, c) => (.aliasOf s, c))
  else if d == '&' then l.keyed? (l.cursor.anchorName?.map fun (s, c) => (.anchor s, c))
  else if d == '!' then l.keyed? l.cursor.tag?
  else if (d == '|' || d == '>') && !l.inFlow then l.block?
  else if d == '\x27' || d == '"' then l.quoted? d
  else if startsPlain l.inFlow d ds then l.plain?
  else none

/-- Passes a comment behind a token.  Behind the mark of an item a comment
    belongs to the item. -/
def afterToken (l : Lexer) : Lexer :=
  if l.tokens.back? == some .blockEntry || 0 < l.cursor.breaks then l
  else { l with cursor := l.cursor.skipComment }

/-- Passes blanks, comments and ends of lines.  Where a key may start in a
    block, a tab is no blank. -/
def skipGap : Nat → Lexer → Lexer
  | 0, l => l
  | n + 1, l =>
    let tabs := l.inFlow || !l.keyAllowed
    let c := l.cursor.skip fun d => d == ' ' || (tabs && d == '\t')
    let c := if c.sees '#' then c.skipComments (c.rest.length + 1) else c
    if c.atBreak then
      skipGap n { l with cursor := c.nextLine, keyAllowed := l.keyAllowed || !l.inFlow }
    else { l with cursor := c }

/-- Reads the next token. -/
def next? (l : Lexer) : Option Lexer :=
  let l := l.skipGap (l.cursor.rest.length + 1)
  let c := l.cursor
  let l := l.unindent c.column
  match c.rest with
  | [] => l.boundary? 0 .streamEnd
  | d :: ds =>
    if c.column == 0 && d == '%' then l.directive?
    else if c.marks '-' then l.boundary? 3 .documentStart
    else if c.marks '.' then l.boundary? 3 .documentEnd
    else (l.inLine? d ds).map (·.afterToken)

/-! ## All tokens -/

/-- The tokens that are handed on before a fault: each but the last two, up to
    the first that may still become a key. -/
def settled (l : Lexer) : List Token :=
  let waiting := (l.key :: l.outer).filterMap fun k? =>
    (k?.filter (·.isOpen l.cursor)).map (·.token)
  l.tokens.toList.take (waiting.foldl min (l.tokens.size - 2))

/-- Reads up to `n` tokens. -/
def run : Nat → Lexer → List Token
  | 0, l => l.settled
  | n + 1, l =>
    match l.next? with
    | none => l.settled
    | some l' => if l'.tokens.back? == some .streamEnd then l'.tokens.toList else run n l'

end Lexer

/-- The tokens of a text.  They stop short of `streamEnd` when the text has a
    fault. -/
def tokens (s : String) : List Token :=
  let cs := match s.toList with
    | '\uFEFF' :: cs => cs
    | cs => cs
  if cs.all isAllowed then Lexer.run (cs.length + 1) { cursor := { rest := cs } } else []

end Z80Backend.Document
