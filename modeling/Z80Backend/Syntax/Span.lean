/-! # Source positions -/

namespace Z80Backend

/-- Where a node stands in its source file.  The span with an empty file and
    zero line and column stands for an unknown position. -/
structure Span where
  file : String := ""
  line : Int64 := 0
  column : Int64 := 0
  deriving DecidableEq, Repr, Inhabited

/-- The unknown position. -/
def Span.unknown : Span := {}

end Z80Backend
