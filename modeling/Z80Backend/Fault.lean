/-! # Faults

    A fault is an input that has no result, not even a list of problems. -/

namespace Z80Backend

/-- Why an input has no result. -/
inductive Fault where
  /-- A storage item whose bytes cannot be made. -/
  | dataSize (name : String) (size : Int64)
  /-- Op calls that nest without end. -/
  | nesting (fn : String)
  /-- An address outside the address space was written. -/
  | address (n : Int64)
  deriving DecidableEq, Repr

end Z80Backend
