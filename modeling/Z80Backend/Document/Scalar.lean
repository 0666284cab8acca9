import Z80Backend.Document.Cursor
import Z80Backend.Text.Numeral

/-! # Texts of scalars

    A scalar is written plain, between quotes, or as a block of indented
    lines.  Each form has its own rules for what ends it.  They share the rule
    for lines: the end of one line counts as a space, and further ends of
    lines stay.

    A reader gives the text and the place behind it, or nothing when the
    scalar is not written right.  The readers take the number of steps they may
    use; the characters that are left are always enough. -/

namespace Z80Backend.Document

/-! ## Gaps between words -/

/-- White space inside a scalar. -/
structure Gap where
  /-- The blanks of a line that goes on. -/
  blanks : String := ""
  /-- Has the line ended, or been joined to the next? -/
  ended : Bool := false
  /-- The first end of line. -/
  first : String := ""
  /-- The ends of lines after the first. -/
  more : String := ""
  deriving DecidableEq, Repr, Inhabited

namespace Gap

/-- The text that a gap stands for. -/
def text (g : Gap) : String :=
  if !g.ended then g.blanks
  else if g.first == "\n" then (if g.more.isEmpty then " " else g.more)
  else g.first ++ g.more

/-- Adds a blank.  Blanks at the start of a line do not count. -/
def blank (g : Gap) (d : Char) : Gap := if g.ended then g else { g with blanks := g.blanks.push d }

/-- Adds the end of a line. -/
def lineEnd (g : Gap) (d : Char) : Gap :=
  if g.ended then { g with more := g.more.push (breakText d) }
  else { ended := true, first := String.singleton (breakText d) }

end Gap

namespace Cursor

/-- Reads white space.  A tab left of `margin` is refused, once a line has
    ended. -/
def gap (margin : Int) : Nat → Gap → Cursor → Option (Gap × Cursor)
  | 0, _, _ => none
  | n + 1, g, c =>
    match c.rest with
    | [] => some (g, c)
    | d :: _ =>
      if isBlank d then
        if g.ended && d == '\t' && (c.column : Int) < margin then none
        else gap margin n (g.blank d) c.next
      else if isBreak d then gap margin n (g.lineEnd d) c.nextLine
      else some (g, c)

/-! ## Plain scalars -/

/-- The characters that enclose and divide collections in flow style. -/
def flowMarks : List Char := [',', '[', ']', '\x7b', '\x7d']

/-- Does a plain scalar end in front of `d`, with `ds` behind it?  In flow style
    it also ends where the next key is announced. -/
def endsPlain (inFlow : Bool) (d : Char) (ds : List Char) : Bool :=
  isSeparator d || (d == ':' && endsWord ds) ||
    (inFlow && (flowMarks.contains d || (d == '?' && endsWord ds && ds.head? != some '\t')))

/-- The length of the word of a plain scalar that starts here. -/
def wordLength (inFlow : Bool) : List Char → Nat
  | [] => 0
  | d :: ds => if endsPlain inFlow d ds then 0 else wordLength inFlow ds + 1

/-- Reads on in a plain scalar behind a gap.  Also tells whether a line ended
    behind the last word. -/
def plainFrom (inFlow : Bool) (margin : Int) :
    Nat → String → Gap → Cursor → Option (String × Bool × Cursor)
  | 0, _, _, _ => none
  | n + 1, s, g, c =>
    if c.atMarker || c.sees '#' then some (s, g.ended, c)
    else
      let word := c.rest.take (wordLength inFlow c.rest)
      let (s, g) : String × Gap :=
        if word.isEmpty then (s, g) else (s ++ g.text ++ String.ofList word, {})
      let c := c.advance word.length
      if c.atBlank || c.atBreak then
        match gap margin (c.rest.length + 1) g c with
        | some (g, c) =>
          if !inFlow && (c.column : Int) < margin then some (s, g.ended, c)
          else plainFrom inFlow margin n s g c
        | none => none
      else some (s, g.ended, c)

/-- Reads a plain scalar. -/
def plain? (inFlow : Bool) (margin : Int) (c : Cursor) : Option (String × Bool × Cursor) :=
  plainFrom inFlow margin (c.rest.length + 1) "" {} c

/-! ## Quoted scalars -/

/-- The character that a one-letter escape stands for. -/
def escaped? : Char → Option Char
  | '0' => some '\x00'
  | 'a' => some '\x07'
  | 'b' => some '\x08'
  | 't' => some '\t'
  | '\t' => some '\t'
  | 'n' => some '\n'
  | 'v' => some '\x0B'
  | 'f' => some '\x0C'
  | 'r' => some '\r'
  | 'e' => some '\x1B'
  | ' ' => some ' '
  | '"' => some '"'
  | '\x27' => some '\x27'
  | '\\' => some '\\'
  | 'N' => some '\u0085'
  | '_' => some '\u00A0'
  | 'L' => some '\u2028'
  | 'P' => some '\u2029'
  | _ => none

/-- The number of digits behind an escape that names a code point. -/
def escapeDigits? : Char → Option Nat
  | 'x' => some 2
  | 'u' => some 4
  | 'U' => some 8
  | _ => none

/-- The value of `n` hexadecimal digits. -/
def hexNumber? (n : Nat) (cs : List Char) : Option Nat := do
  let digits ← (cs.take n).mapM Text.hexValue?
  if digits.length = n then some (digits.foldl (fun v d => 16 * v + d) 0) else none

/-- The character with a code point. -/
def codePoint? (n : Nat) : Option Char := if n.isValidChar then some (Char.ofNat n) else none

/-- The character of the escape behind a backslash, and the number of its
    characters. -/
def escape? : List Char → Option (Char × Nat)
  | [] => none
  | d :: ds =>
    match escapeDigits? d with
    | some n => (hexNumber? n ds).bind codePoint? |>.map fun e => (e, n + 1)
    | none   => (escaped? d).map fun e => (e, 1)

/-- Reads the word of a double-quoted scalar that starts here.  Also tells
    whether it ends with an escaped end of line. -/
def doubleWord : Nat → String → Cursor → Option (String × Bool × Cursor)
  | 0, _, _ => none
  | n + 1, s, c =>
    match c.rest with
    | [] => some (s, false, c)
    | '\\' :: ds =>
      if ds.head?.any isBreak then some (s, true, c.next.nextLine)
      else
        match escape? ds with
        | some (e, k) => doubleWord n (s.push e) (c.advance (k + 1))
        | none => none
    | d :: _ =>
      if isSeparator d || d == '"' then some (s, false, c) else doubleWord n (s.push d) c.next

/-- Reads the word of a single-quoted scalar that starts here. -/
def singleWord : Nat → String → Cursor → Option (String × Bool × Cursor)
  | 0, _, _ => none
  | n + 1, s, c =>
    match c.rest with
    | [] => some (s, false, c)
    | '\x27' :: '\x27' :: _ => singleWord n (s.push '\x27') (c.advance 2)
    | d :: _ =>
      if isSeparator d || d == '\x27' then some (s, false, c) else singleWord n (s.push d) c.next

/-- Reads on in a quoted scalar; `quote` ends it. -/
def quotedFrom (quote : Char) : Nat → String → Cursor → Option (String × Cursor)
  | 0, _, _ => none
  | n + 1, s, c =>
    if c.atMarker || c.atEnd then none
    else do
      let room := c.rest.length + 1
      let (s, joined, c) ← if quote == '"' then doubleWord room s c else singleWord room s c
      if c.sees quote then some (s, c.next)
      else
        let (g, c) ← gap (-1) (c.rest.length + 1) { ended := joined } c
        quotedFrom quote n (s ++ g.text) c

/-- Reads a quoted scalar, from its first quote on. -/
def quoted? (quote : Char) (c : Cursor) : Option (String × Cursor) :=
  quotedFrom quote (c.rest.length + 1) "" c.next

/-! ## Block scalars -/

/-- What becomes of the ends of lines behind a block. -/
inductive Chomping where
  | strip | clip | keep
  deriving DecidableEq, Repr, Inhabited

/-- Reads a chomping mark. -/
def chomping (c : Cursor) : Chomping × Cursor :=
  if c.sees '+' then (.keep, c.next) else if c.sees '-' then (.strip, c.next) else (.clip, c)

/-- Reads a digit for the indentation; it may not be zero. -/
def blockIndent? (c : Cursor) : Option (Nat × Cursor) :=
  match c.peek? with
  | some d =>
    if d == '0' then none
    else if d.isDigit then some (d.toNat - '0'.toNat, c.next)
    else some (0, c)
  | none => some (0, c)

/-- Reads the marks of a block: how it is chomped, and by how much it is
    indented, with zero where that is not said. -/
def blockMarks? (c : Cursor) : Option (Chomping × Nat × Cursor) := do
  let (k, c') := c.chomping
  if k != .clip then
    let (i, c) ← c'.blockIndent?
    some (k, i, c)
  else
    let (i, c) ← c.blockIndent?
    if i = 0 then some (.clip, 0, c)
    else
      let (k, c) := c.chomping
      some (k, i, c)

/-- Passes indentation and empty lines; `widest` is the widest indentation so
    far.  Where `indent` is zero, it is not known yet. -/
def blockBreaks (indent : Nat) : Nat → Nat → String → Cursor → Option (Nat × String × Cursor)
  | 0, _, _, _ => none
  | n + 1, widest, s, c =>
    let blanks := (c.rest.takeWhile (· == ' ')).length
    let c := c.advance (if indent = 0 then blanks else min blanks (indent - c.column))
    let widest := max widest c.column
    match c.rest with
    | [] => some (widest, s, c)
    | d :: _ =>
      if d == '\t' && (indent = 0 || c.column < indent) then none
      else if isBreak d then blockBreaks indent n widest (s.push (breakText d)) c.nextLine
      else some (widest, s, c)

/-- Reads the lines of a block.  `lead` is the end of the line before, `more`
    are the ends of empty lines behind it, and `spaced` tells whether that line
    started with a blank.  Gives the text, and both kinds of ends that are left
    over. -/
def blockLines (literal : Bool) (indent : Nat) :
    Nat → String → String → String → Bool → Cursor → Option (String × String × String × Cursor)
  | 0, _, _, _, _, _ => none
  | n + 1, s, lead, more, spaced, c =>
    if c.column == indent && !c.atEnd then do
      let blank := c.atBlank
      let joint :=
        if !literal && !spaced && !blank && lead == "\n" then (if more.isEmpty then " " else "")
        else lead
      let (line, c) := c.span fun d => !isBreak d
      let s := s ++ joint ++ more ++ String.ofList line
      let lead := (c.peek?.map fun d => String.singleton (breakText d)).getD ""
      let c := if c.atBreak then c.nextLine else c
      let (_, more, c) ← blockBreaks indent (c.rest.length + 1) 0 "" c
      blockLines literal indent n s lead more blank c
    else some (s, lead, more, c)

/-- Reads a block scalar, from its mark on; `outer` is the indentation around
    it. -/
def block? (outer : Int) (c : Cursor) : Option (String × Cursor) := do
  let literal := c.sees '|'
  let (chomp, step, c) ← c.next.blockMarks?
  let c := c.skipBlanks
  let c := if c.sees '#' then c.skipLine else c
  if !c.atLineEnd then none
  else
    let c := if c.atBreak then c.nextLine else c
    let given := if step = 0 then 0 else outer.toNat + step
    let (widest, more, c) ← blockBreaks given (c.rest.length + 1) 0 "" c
    let indent := if given = 0 then max (max widest (outer + 1).toNat) 1 else given
    let (s, lead, more, c) ← blockLines literal indent (c.rest.length + 1) "" "" more false c
    match chomp with
    | .strip => some (s, c)
    | .clip  => some (s ++ lead, c)
    | .keep  => some (s ++ lead ++ more, c)

end Cursor

end Z80Backend.Document
