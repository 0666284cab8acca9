import Z80Backend.Text.Numeral

/-! # Generated labels

    Labels that the compiler makes up carry a reserved beginning, the reason
    they were made, and a number.  All kinds share one numbering, so no two
    of them are alike. -/

namespace Z80Backend.Label

/-- How every generated label begins. -/
def reserved : String := "__zax_"

/-- The generated label of a kind with a number. -/
def make (kind : String) (n : Int) : String := reserved ++ kind ++ "_" ++ n.repr

/-- The generated label of a kind with a number on 64 bits. -/
def make64 (kind : String) (n : Int) : String := make kind (Int64.ofInt n).toInt

/-- Was the name generated? -/
def isGenerated (name : String) : Bool := reserved.toList.isPrefixOf name.toList

/-- The number that follows, on 64 bits. -/
def next (n : Int64) : Int64 := n + 1

end Z80Backend.Label
