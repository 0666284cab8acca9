import Z80Backend.Chunk
import Z80Backend.Diagnostic
import Z80Backend.Op.Expansion

/-! # The journal

    Everything that happens during a compilation is an event, kept in order.
    Some of them are announced to whoever follows the compilation, and all of
    them make lines of the log.  The diagnostics of a compilation are those
    it announced. -/

namespace Z80Backend

/-- A slot that was filled. -/
structure Patch where
  chunk : String
  kind : FixupKind
  symbol : String
  address : Int64
  value : Int64
  deriving DecidableEq, Repr, Inhabited

/-- Something that is announced to whoever follows the compilation. -/
inductive Announcement where
  /-- A problem was reported. -/
  | diagnostic (d : Diagnostic)
  /-- A function or storage item became a chunk. -/
  | chunk (c : Chunk)
  /-- A slot was filled. -/
  | patch (p : Patch)
  /-- The compilation of a module ended. -/
  | done (module : String) (messages : List String)

/-- The title of an announcement. -/
def Announcement.title : Announcement → String
  | diagnostic _ => "Diagnostic"
  | chunk _ => "Chunk Lowered"
  | patch _ => "Fixup Resolved"
  | done _ _ => "Compile Done"

/-- Something that happened. -/
inductive Event where
  | announced (a : Announcement)
  | compileStart (compiler module : String) (items : Nat)
  | loweredFunction (name : String) (size : Int64) (preserved : List String) (hasFrame : Bool)
      (issues : Nat)
  | loweredData (name : String) (size : Int64) (fixups : Nat)
  | expandedOp (op : OpUse) (fn : String) (instructions : Nat)
  | expandedNestedOp (op : OpUse)
  | typedAccess (fn : String) (i : Instruction) (steps : Nat)
  | loweredCall (fn callee : String) (args : Nat) (isExternal : Bool)
  | loweredModule (name : String) (chunks diagnostics : Nat)
  | placedChunk (name : String) (home : Section) (addr size : Int64)
  | compileDone (compiler module : String) (chunks diagnostics : Nat) (errors : Bool)

/-- The events so far, in order. -/
abbrev Journal := List Event

/-- What was announced. -/
def Journal.announcements (j : Journal) : List Announcement :=
  j.filterMap fun e => match e with | .announced a => some a | _ => none

/-- The diagnostics among the events. -/
def Journal.diagnostics (j : Journal) : List Diagnostic :=
  j.announcements.filterMap fun a => match a with | .diagnostic d => some d | _ => none

/-- The chunks among the events. -/
def Journal.chunks (j : Journal) : List Chunk :=
  j.announcements.filterMap fun a => match a with | .chunk c => some c | _ => none

/-! ## The log -/

/-- The levels of log lines. -/
inductive LogLevel where
  | debug
  | info
  | trace
  deriving DecidableEq, Repr, Inhabited

/-- The name of a level. -/
def LogLevel.text : LogLevel → String
  | debug => "DEBUG"
  | info => "INFO"
  | trace => "INFO+1"

/-- A line of the log. -/
def logLine (level : LogLevel) (title : String) (attrs : List (String × String)) : String :=
  level.text ++ " " ++ title ++ String.join (attrs.map fun (k, v) => " " ++ k ++ "=" ++ v)

/-- A truth value in the log. -/
def boolText (b : Bool) : String := if b then "true" else "false"

/-- What the log tells of an announcement. -/
def Announcement.attrs : Announcement → List (String × String)
  | diagnostic d => [("id", d.category), ("severity", d.severity.text), ("message", d.message)]
  | chunk c =>
    [("chunk", c.name), ("size", Text.decimal c.size), ("fixups", c.fixups.length.repr)]
  | patch p =>
    [("chunk", p.chunk), ("kind", p.kind.text), ("symbol", p.symbol),
     ("addr", Text.decimal p.address), ("value", Text.decimal p.value)]
  | done m messages => [("module", m), ("diagnostics", " | ".intercalate messages)]

/-- The line that an event makes in the log. -/
def Event.log : Event → String
  | announced a => logLine .trace a.title a.attrs
  | compileStart c m items =>
    logLine .info "compile start" [("compiler", c), ("module", m), ("items", items.repr)]
  | loweredFunction n size preserved hasFrame issues =>
    logLine .debug "lowered function"
      [("name", n), ("size", Text.decimal size), ("preserved", ",".intercalate preserved),
       ("frame", boolText hasFrame), ("stack_issues", issues.repr)]
  | loweredData n size fixups =>
    logLine .trace "lowered data"
      [("name", n), ("size", Text.decimal size), ("fixups", fixups.repr)]
  | expandedOp op fn instructions =>
    logLine .trace "expanded op"
      [("name", op.name), ("signature", op.signature), ("function", fn),
       ("instructions", instructions.repr)]
  | expandedNestedOp op =>
    logLine .trace "expanded nested op" [("name", op.name), ("chain", chainText op.chain)]
  | typedAccess fn i steps =>
    logLine .trace "typed access"
      [("function", fn), ("instr", i.text), ("steps", steps.repr)]
  | loweredCall fn callee args isExternal =>
    logLine .trace "lowered call"
      [("function", fn), ("callee", callee), ("args", args.repr),
       ("extern", boolText isExternal)]
  | loweredModule n chunks diagnostics =>
    logLine .debug "lowered module"
      [("name", n), ("chunks", chunks.repr), ("diagnostics", diagnostics.repr)]
  | placedChunk n home addr size =>
    logLine .debug "placed chunk"
      [("name", n), ("section", home.text), ("addr", Text.decimal addr),
       ("size", Text.decimal size)]
  | compileDone c m chunks diagnostics errors =>
    logLine .info "compile done"
      [("compiler", c), ("module", m), ("chunks", chunks.repr),
       ("diagnostics", diagnostics.repr), ("errors", boolText errors)]

end Z80Backend
