import Z80Backend.Diagnostic

/-! # Stack reports

    For each function the report gives the number of returns, the depth at
    its end, and what was wrong with the stack. -/

namespace Z80Backend

/-- What was found out about the stack of one function. -/
structure StackSummary where
  name : String
  returns : Int64 := 0
  /-- The depth where control runs off the end of the body. -/
  exit : Depth := .known 0
  /-- Can control run off the end of the body? -/
  reachable : Bool := false
  issues : List Diagnostic := []
  deriving DecidableEq, Repr

namespace StackSummary

/-- Is the stack in order? -/
def ok (s : StackSummary) : Bool := s.issues.isEmpty

/-- The lines of the report for one function. -/
def text (s : StackSummary) : String :=
  let exit := if s.reachable then s.exit.text else "unreachable"
  let status := if s.ok then "ok" else s.issues.length.repr ++ " issue(s)"
  Text.padRight 24 s.name ++ " rets=" ++ Text.padRight 3 (Text.decimal s.returns) ++
    " exit=" ++ Text.padRight 12 exit ++ " " ++ status ++ "\n" ++
    String.join (s.issues.map fun d => "    " ++ d.message ++ "\n")

/-- The number of issues in several functions. -/
def issueCount (ss : List StackSummary) : Nat := (ss.map (·.issues.length)).foldl (· + ·) 0

/-- A rule of sixty characters. -/
def rule (c : Char) : String := String.ofList (List.replicate 60 c) ++ "\n"

/-- The report on several functions. -/
def report (ss : List StackSummary) : String :=
  let n := issueCount ss
  rule '=' ++ "STACK VERIFICATION REPORT\n" ++ rule '=' ++
    String.join (ss.map (·.text)) ++ rule '-' ++
    (if n = 0 then "All " ++ ss.length.repr ++ " function(s) balanced.\n"
     else n.repr ++ " stack issue(s) in " ++ ss.length.repr ++ " function(s).\n")

end StackSummary

end Z80Backend
