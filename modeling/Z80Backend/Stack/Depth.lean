import Z80Backend.Text.Numeral
import Z80Backend.Text.Quoted

/-! # Stack depths

    The depth of the stack is the net change of `sp` in bytes since the start
    of a body.  A depth is known exactly, unknown because paths disagreed
    before, or untracked because `sp` was written in a way that cannot be
    followed.

    Where paths meet, their depths have to agree.  `Depth.join` merges them
    and tells why they do not. -/

namespace Z80Backend

/-- What is known of the stack depth at one point. -/
inductive Depth where
  | known (n : Int64)
  | unknown
  | untracked
  deriving DecidableEq, Repr, Inhabited

/-- A point where paths meet. -/
inductive JoinSite where
  | ifJoin
  | selectJoin
  | whileBackEdge
  | repeatBackEdge
  | named (s : String)
  deriving DecidableEq, Repr, Inhabited

/-- The name of a meeting point. -/
def JoinSite.text : JoinSite → String
  | ifJoin => "if join"
  | selectJoin => "select join"
  | whileBackEdge => "while back-edge"
  | repeatBackEdge => "repeat back-edge"
  | named s => s

/-- What is wrong with the stack. -/
inductive StackError where
  /-- Paths meet and `sp` was written untracked on one of them. -/
  | joinUntracked (site : JoinSite)
  /-- Paths meet and the depth is unknown on one of them. -/
  | joinUnknown (site : JoinSite)
  /-- Paths meet with different depths. -/
  | mismatch (site : JoinSite) (first other : Int64)
  | retUnknown
  | retUntracked
  | retUnbalanced (n : Int64)
  | endUnknown (fn : String)
  | endUntracked (fn : String)
  | endUnbalanced (fn : String) (n : Int64)
  deriving DecidableEq, Repr

/-- The wording of a stack error. -/
def StackError.message : StackError → String
  | joinUntracked s =>
    "Cannot verify stack depth at " ++ s.text ++ " due to untracked SP mutation."
  | joinUnknown s => "Cannot verify stack depth at " ++ s.text ++ " due to unknown stack state."
  | mismatch s m n =>
    "Stack depth mismatch at " ++ s.text ++ " (" ++ Text.decimal m ++ " vs " ++
      Text.decimal n ++ ")."
  | retUnknown => "ret reached with unknown stack depth; cannot verify function stack balance."
  | retUntracked =>
    "ret reached after untracked SP mutation; cannot verify function stack balance."
  | retUnbalanced n => "ret with non-zero tracked stack delta (" ++ Text.decimal n ++ ")."
  | endUnknown f =>
    "Function " ++ Text.quote f ++
      " has unknown stack depth at fallthrough; cannot verify stack balance."
  | endUntracked f =>
    "Function " ++ Text.quote f ++
      " has untracked SP mutation at fallthrough; cannot verify stack balance."
  | endUnbalanced f n =>
    "Function " ++ Text.quote f ++ " has non-zero stack delta (" ++ Text.decimal n ++
      ") at fallthrough."

namespace Depth

/-- Moves a known depth; the other states stay. -/
def add (d : Depth) (delta : Int64) : Depth :=
  match d with
  | known n => known (n + delta)
  | d => d

/-- Is the stack as it was at the start? -/
def isBalanced (d : Depth) : Bool := d == known 0

/-- The state as written in reports. -/
def text : Depth → String
  | known n => Text.decimal n
  | unknown => "unknown"
  | untracked => "untracked"

/-- The bytes of a known depth, and zero otherwise. -/
def bytes : Depth → Int64
  | known n => n
  | _ => 0

/-- Merges the depths of the paths that reach `site`.  The first is the one
    the others are compared with. -/
def join (site : JoinSite) : List Depth → Depth × Option StackError
  | [] => (unknown, none)
  | first :: rest =>
    match rest.find? (· != first) with
    | none => (first, none)
    | some other =>
      if (first :: rest).contains untracked then (untracked, some (.joinUntracked site))
      else if (first :: rest).contains unknown then (unknown, some (.joinUnknown site))
      else (unknown, some (.mismatch site first.bytes other.bytes))

/-- What is wrong with returning at a depth. -/
def returnError? : Depth → Option StackError
  | unknown => some .retUnknown
  | untracked => some .retUntracked
  | known n => if n = 0 then none else some (.retUnbalanced n)

/-- What is wrong with running off the end of a function at a depth. -/
def endError? (fn : String) : Depth → Option StackError
  | unknown => some (.endUnknown fn)
  | untracked => some (.endUntracked fn)
  | known n => if n = 0 then none else some (.endUnbalanced fn n)

end Depth

end Z80Backend
