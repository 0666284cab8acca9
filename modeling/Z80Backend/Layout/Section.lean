import Z80Backend.Syntax.Module
import Z80Backend.Text.Numeral

/-! # Section layouts

    A layout says where each section starts and how its start is aligned.  A
    section without a base follows the one before it. -/

namespace Z80Backend

/-- Where one section starts. -/
structure SectionLayout where
  base : Option Int64 := none
  align : Int64 := 1
  deriving DecidableEq, Repr, Inhabited

/-- Where the sections start.  By default code starts at zero and the others
    follow it. -/
structure Layout where
  code : SectionLayout := { base := some 0 }
  data : SectionLayout := {}
  var : SectionLayout := {}
  deriving DecidableEq, Repr, Inhabited

/-- What is wrong with a layout. -/
inductive LayoutFault where
  | base (s : Section) (n : Int64)
  | align (s : Section) (n : Int64)
  deriving DecidableEq, Repr

/-- The wording of a layout fault. -/
def LayoutFault.message : LayoutFault → String
  | base s n => "section " ++ s.text ++ ": base $" ++ Text.hexSigned 1 n ++ " outside 0..$FFFF"
  | align s n =>
    "section " ++ s.text ++ ": align must be at least 1, got " ++ Text.decimal n

/-- What is wrong with the layout of one section: the base is looked at
    first. -/
def SectionLayout.fault? (s : Section) (x : SectionLayout) : Option LayoutFault :=
  let badAlign := if x.align < 1 then some (.align s x.align) else none
  match x.base with
  | some n => if n < 0 ∨ 0xFFFF < n then some (.base s n) else badAlign
  | none   => badAlign

namespace Layout

/-- The layout of a section; an unknown section is laid out like code. -/
def get (l : Layout) : Section → SectionLayout
  | .data => l.data
  | .var => l.var
  | _ => l.code

/-- Changes the layout of a section. -/
def modify (l : Layout) (s : Section) (f : SectionLayout → SectionLayout) : Layout :=
  match s with
  | .data => { l with data := f l.data }
  | .var => { l with var := f l.var }
  | _ => { l with code := f l.code }

/-- Pins a section. -/
def withBase (l : Layout) (s : Section) (n : Int64) : Layout :=
  l.modify s fun x => { x with base := some n }

/-- Aligns the start of a section. -/
def withAlign (l : Layout) (s : Section) (n : Int64) : Layout :=
  l.modify s fun x => { x with align := n }

/-- The first thing that is wrong with a layout. -/
def fault? (l : Layout) : Option LayoutFault :=
  [Section.code, .data, .var].findSome? fun s => (l.get s).fault? s

end Layout

end Z80Backend
