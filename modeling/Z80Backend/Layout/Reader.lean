import Z80Backend.Document.Fields
import Z80Backend.Layout.Section

/-! # Reading layouts

    A layout document has a mapping `sections`, with an entry for each section
    that departs from the default layout.  Entries that are not known are
    passed over. -/

namespace Z80Backend

/-- Why a layout cannot be read. -/
inductive LayoutReadError where
  /-- There is nothing to read. -/
  | unreadable
  /-- The text is no document, or not of the right shape. -/
  | malformed
  | invalid (cause : LayoutFault)
  deriving DecidableEq, Repr

/-- The wording of a read error. -/
def LayoutReadError.message : LayoutReadError → String
  | unreadable => "load layout: no such file"
  | malformed => "parse layout: malformed document"
  | invalid f => "parse layout: " ++ f.message

namespace Document

/-- The integer that a node holds, and no integer for null. -/
def heldInteger? (d : Document) (x : Node) : Option (Option Int64) := do
  match ← d.value? x with
  | .null => some none
  | v => v.word?.map some

end Document

namespace SectionLayout

/-- Changes the layout of a section as a node says.  A base of null makes the
    section follow the one before it. -/
def update? (x : SectionLayout) (d : Document) (node : Document.Node) : Option SectionLayout := do
  let fs ← d.fields? ["at", "align"] node
  let base ← match fs.get? "at" with
    | some v => d.heldInteger? v
    | none   => some x.base
  let align ← match fs.get? "align" with
    | some v => (d.heldInteger? v).map (·.getD x.align)
    | none   => some x.align
  return { base, align }

/-- An alignment of zero means none. -/
def normalize (x : SectionLayout) : SectionLayout :=
  if x.align = 0 then { x with align := 1 } else x

end SectionLayout

namespace Layout

/-- Changes a layout as the sections in a node say. -/
def update? (l : Layout) (d : Document) (node : Document.Node) : Option Layout := do
  let fs ← d.fields? ["code", "data", "var"] node
  let section? name (x : SectionLayout) : Option SectionLayout :=
    match fs.get? name with
    | some v => x.update? d v
    | none   => some x
  return { code := ← section? "code" l.code
           data := ← section? "data" l.data
           var := ← section? "var" l.var }

/-- The layout that a document describes. -/
def ofDocument? (d : Document) : Option Layout := do
  let fs ← d.fields? ["sections"] d.root
  let l ← match fs.get? "sections" with
    | some v => ({} : Layout).update? d v
    | none   => some {}
  return { code := l.code.normalize, data := l.data.normalize, var := l.var.normalize }

/-- Reads the text of a layout document. -/
def ofString (s : String) : Except LayoutReadError Layout :=
  match (Document.ofString s).bind ofDocument? with
  | none => .error .malformed
  | some l =>
    match l.fault? with
    | some f => .error (.invalid f)
    | none   => .ok l

/-- Reads the contents of a layout file; they are absent when it cannot be
    read. -/
def ofFile (contents : Option String) : Except LayoutReadError Layout :=
  match contents with
  | some s => ofString s
  | none   => .error .unreadable

end Layout

end Z80Backend
