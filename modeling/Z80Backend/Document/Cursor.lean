/-! # Characters of a document

    A layout is kept in a YAML document.  A `Cursor` is a place in its text:
    what is left to read, and where that is by line and column.

    Lines end at a carriage return, a line feed, or both together as one end,
    and at the three further characters that YAML 1.1 counts as ends of lines. -/

namespace Z80Backend.Document

/-! ## Classes of characters -/

/-- May the character stand in a document? -/
def isAllowed (c : Char) : Bool :=
  let n := c.toNat
  n == 0x9 || n == 0xA || n == 0xD || (0x20 ≤ n && n ≤ 0x7E) || n == 0x85 ||
    (0xA0 ≤ n && n ≤ 0xFFFD) || 0x10000 ≤ n

/-- Is the character a space or a tab? -/
def isBlank (c : Char) : Bool := c == ' ' || c == '\t'

/-- Does the character end a line? -/
def isBreak (c : Char) : Bool :=
  c == '\n' || c == '\r' || c == '\u0085' || c == '\u2028' || c == '\u2029'

/-- Does the character separate words? -/
def isSeparator (c : Char) : Bool := isBlank c || isBreak c

/-- May the character stand in the name of an anchor or of a directive? -/
def isNameChar (c : Char) : Bool := c.isAlphanum || c == '_' || c == '-'

/-- The character that an end of line is read as. -/
def breakText (c : Char) : Char := if c == '\u2028' || c == '\u2029' then c else '\n'

/-- Does a text end here, or go on with a separator? -/
def endsWord : List Char → Bool
  | [] => true
  | c :: _ => isSeparator c

/-! ## Cursors -/

/-- A place in a text. -/
structure Cursor where
  /-- What is left to read. -/
  rest : List Char
  /-- The characters read so far. -/
  index : Nat := 0
  line : Nat := 0
  column : Nat := 0
  /-- The ends of lines since the last character that is not blank. -/
  breaks : Nat := 0
  deriving DecidableEq, Repr, Inhabited

namespace Cursor

/-- The next character. -/
def peek? (c : Cursor) : Option Char := c.rest.head?

/-- Is the next character `d`? -/
def sees (c : Cursor) (d : Char) : Bool := c.peek? == some d

/-- Is nothing left? -/
def atEnd (c : Cursor) : Bool := c.rest.isEmpty

/-- Is the next character a blank? -/
def atBlank (c : Cursor) : Bool := c.peek?.any isBlank

/-- Does the line end here? -/
def atBreak (c : Cursor) : Bool := c.peek?.any isBreak

/-- Does the line or the text end here? -/
def atLineEnd (c : Cursor) : Bool := c.peek?.all isBreak

/-- Passes the next character, which does not end a line. -/
def next (c : Cursor) : Cursor :=
  match c.rest with
  | [] => c
  | d :: ds =>
    { c with
      rest := ds
      index := c.index + 1
      column := c.column + 1
      breaks := if isBlank d then c.breaks else 0 }

/-- Passes `n` characters. -/
def advance (c : Cursor) : Nat → Cursor
  | 0 => c
  | n + 1 => c.next.advance n

@[simp] theorem rest_next (c : Cursor) : c.next.rest = c.rest.tail := by
  unfold next
  split <;> simp_all

/-- Passing characters takes them off what is left. -/
theorem rest_advance (c : Cursor) (n : Nat) : (c.advance n).rest = c.rest.drop n := by
  induction n generalizing c with
  | zero => rfl
  | succ n ih => rw [advance, ih, rest_next, List.drop_tail]

/-- Passes the end of a line. -/
def nextLine (c : Cursor) : Cursor :=
  let pass (n : Nat) : Cursor :=
    { rest := c.rest.drop n, index := c.index + n, line := c.line + 1, breaks := c.breaks + 1 }
  match c.rest with
  | '\r' :: '\n' :: _ => pass 2
  | _ => pass 1

/-- The longest run of characters with a property, and the place behind it.
    None of them ends a line. -/
def span (c : Cursor) (p : Char → Bool) : List Char × Cursor :=
  let run := c.rest.takeWhile p
  (run, c.advance run.length)

/-- A run and what is left behind it make up the text. -/
theorem span_append (c : Cursor) (p : Char → Bool) :
    (c.span p).1 ++ (c.span p).2.rest = c.rest := by
  simp only [span, rest_advance]
  exact List.prefix_iff_eq_append.mp (List.takeWhile_prefix p)

/-- Passes the longest run of characters with a property. -/
def skip (c : Cursor) (p : Char → Bool) : Cursor := (c.span p).2

/-- Passes blanks. -/
def skipBlanks (c : Cursor) : Cursor := c.skip isBlank

/-- Passes the rest of a line, up to its end. -/
def skipLine (c : Cursor) : Cursor := c.skip fun d => !isBreak d

/-- Does a line start here with three characters `d` that stand alone? -/
def marks (c : Cursor) (d : Char) : Bool :=
  c.column == 0 && c.rest.take 3 == [d, d, d] && endsWord (c.rest.drop 3)

/-- Does a line start here that marks a boundary of documents? -/
def atMarker (c : Cursor) : Bool := c.marks '-' || c.marks '.'

/-! ## Comments -/

/-- How far ahead a comment is looked for. -/
def commentReach : Nat := 512

/-- The blanks in front of a comment on the same line, if there is one. -/
def comment? (c : Cursor) : Option Nat :=
  let n := (c.rest.takeWhile isBlank).length
  if n < commentReach && (c.rest.drop n).head? == some '#' then some n else none

/-- Passes a comment on the same line, if there is one. -/
def skipComment (c : Cursor) : Cursor :=
  match c.comment? with
  | some _ => c.skipLine
  | none   => c

/-- Passes blanks and line feeds; used where only blank lines are ahead. -/
def skipBlankLines : Nat → Cursor → Cursor
  | 0, c => c
  | n + 1, c =>
    if c.atBlank then skipBlankLines n c.next
    else if c.atBreak then skipBlankLines n c.nextLine
    else c

/-- Does a comment follow after nothing but blank lines? -/
def leadsToComment (c : Cursor) : Bool :=
  let n := (c.rest.takeWhile fun d => isBlank d || d == '\n' || d == '\r').length
  0 < n && n < commentReach && (c.rest.drop n).head? == some '#'

/-- Passes a comment and the comments below it.  Lines between comments may
    hold any blanks, tabs too. -/
def skipComments : Nat → Cursor → Cursor
  | 0, c => c
  | n + 1, c =>
    let c := c.skipLine
    if c.leadsToComment then skipComments n (skipBlankLines c.rest.length c) else c

end Cursor

end Z80Backend.Document
