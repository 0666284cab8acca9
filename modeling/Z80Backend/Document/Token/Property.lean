import Z80Backend.Document.Scalar
import Z80Backend.Document.Token

/-! # Anchors, tags and directives

    The tokens that start with `&`, `*`, `!` or, at the start of a line, `%`.
    A reader gives the token and the place behind it, or nothing when it is not
    written right. -/

namespace Z80Backend.Document.Cursor

/-! ## Anchors and aliases -/

/-- The characters that may follow a name without a separator. -/
def nameEnds : List Char := ['?', ':', ',', ']', '\x7d', '%', '@', '\x60']

/-- Reads the name of an anchor behind its mark. -/
def anchorName? (c : Cursor) : Option (String × Cursor) :=
  let (name, c) := c.next.span isNameChar
  if name.isEmpty then none
  else if endsWord c.rest || c.peek?.any nameEnds.contains then some (String.ofList name, c)
  else none

/-! ## Tags -/

/-- May the character stand in a tag? -/
def isTagChar (c : Char) : Bool := isNameChar c || ";/?:@&=+$,.!~*\x27()[]%".toList.contains c

/-- The octet of an escape `%hh`. -/
def tagOctet? : List Char → Option Nat
  | '%' :: a :: b :: _ => hexNumber? 2 [a, b]
  | _ => none

/-- The number of octets of a character, by the first of them. -/
def octetCount? (n : Nat) : Option Nat :=
  if n < 0x80 then some 1
  else if n / 0x20 = 6 then some 2
  else if n / 0x10 = 14 then some 3
  else if n / 8 = 30 then some 4
  else none

/-- Reads the escaped octets of one character, and counts them. -/
def tagEscape? (cs : List Char) : Option (Char × Nat) := do
  let first ← tagOctet? cs
  let count ← octetCount? first
  let others ← (List.range' 1 (count - 1)).mapM fun i => tagOctet? (cs.drop (3 * i))
  if others.all fun n => n / 0x40 == 2 then
    let lead := if count = 1 then first else first % Nat.pow 2 (7 - count)
    some (Char.ofNat (others.foldl (fun v n => 0x40 * v + n % 0x40) lead), count)
  else none

/-- Reads the characters of a tag. -/
def tagChars : Nat → String → Cursor → Option (String × Cursor)
  | 0, _, _ => none
  | n + 1, s, c =>
    match c.rest with
    | [] => some (s, c)
    | d :: _ =>
      if d == '%' then
        match tagEscape? c.rest with
        | some (e, count) => tagChars n (s.push e) (c.advance (3 * count))
        | none => none
      else if isTagChar d then tagChars n (s.push d) c.next
      else some (s, c)

/-- Reads the rest of a tag that starts with `s`. -/
def tagRest? (s : String) (c : Cursor) : Option (String × Cursor) :=
  tagChars (c.rest.length + 1) s c

/-- Reads a handle: `!`, or a name between two of them.  Without the second it
    may still be the start of a tag. -/
def handle? (c : Cursor) : Option (String × Cursor) :=
  if c.sees '!' then
    let (name, c) := c.next.span isNameChar
    let s := "!" ++ String.ofList name
    if c.sees '!' then some (s.push '!', c.next) else some (s, c)
  else none

/-- Reads a tag. -/
def tag? (c : Cursor) : Option (Token × Cursor) := do
  let (t, c) ←
    if (c.rest.drop 1).head? == some '<' then
      let (s, c) ← (c.advance 2).tagRest? ""
      if s.isEmpty || !c.sees '>' then none else some (Token.tag "" s, c.next)
    else
      let (handle, c) ← c.handle?
      if handle.length > 1 && handle.endsWith "!" then
        let (s, c) ← c.tagRest? ""
        if s.isEmpty then none else some (Token.tag handle s, c)
      else
        let (s, c) ← c.tagRest? (String.ofList (handle.toList.drop 1))
        some (if s.isEmpty then Token.tag "" "!" else Token.tag "!" s, c)
  if endsWord c.rest then some (t, c) else none

/-! ## Directives -/

/-- Reads a number of one or two digits. -/
def versionNumber? (c : Cursor) : Option (Nat × Cursor) :=
  let (ds, c) := c.span Char.isDigit
  if ds.isEmpty || ds.length > 2 then none
  else some (ds.foldl (fun v d => 10 * v + (d.toNat - '0'.toNat)) 0, c)

/-- Reads what follows the name of a directive. -/
def directiveValue? (name : String) (c : Cursor) : Option (Token × Cursor) := do
  let c := c.skipBlanks
  if name == "YAML" then
    let (major, c) ← c.versionNumber?
    if c.sees '.' then
      let (minor, c) ← c.next.versionNumber?
      some (.version major minor, c)
    else none
  else if name == "TAG" then
    let (handle, c) ← c.handle?
    if handle.endsWith "!" && c.atBlank then
      let (s, c) ← c.skipBlanks.tagRest? ""
      if !s.isEmpty && endsWord c.rest then some (.tagHandle handle s, c) else none
    else none
  else none

/-- Reads a directive with the rest of its line. -/
def directive? (c : Cursor) : Option (Token × Cursor) := do
  let (name, c) := c.next.span isNameChar
  if name.isEmpty || !endsWord c.rest then none
  else
    let (t, c) ← directiveValue? (String.ofList name) c
    let c := c.skipBlanks
    let c := if c.sees '#' then c.skipLine else c
    if c.atBreak then some (t, c.nextLine) else if c.atEnd then some (t, c) else none

end Z80Backend.Document.Cursor
