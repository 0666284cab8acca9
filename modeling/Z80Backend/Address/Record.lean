import Z80Backend.Address.Build

/-! # Address records

    The flat form of an address, in which it is written down: a mode and one
    field for each thing that some mode uses.  Every address has a record, and
    a record denotes the address that its mode picks.

    A record may fill fields that its mode does not use.  They stay out of the
    address, but the memory reference of a record falls back on its symbol and
    offset unless the record is a frame location. -/

namespace Z80Backend

/-- How the address of a record is reached. -/
inductive AddressMode where
  | absolute | frame | computed
  deriving DecidableEq, Repr, Inhabited

/-- The name of a mode. -/
def AddressMode.text : AddressMode → String
  | absolute => "abs"
  | frame => "frame"
  | computed => "hl"

/-- The mode with the given name; any other name is the absolute mode. -/
def AddressMode.ofName (s : String) : AddressMode :=
  if s = "frame" then frame else if s = "hl" then computed else absolute

/-- An address written down field by field. -/
structure AddressRecord where
  mode : AddressMode
  sym : String := ""
  offset : Int64 := 0
  disp : Int64 := 0
  steps : List Step := []
  deriving DecidableEq, Repr, Inhabited

/-- The record of an address. -/
def Address.record : Address → AddressRecord
  | absolute sym offset => { mode := .absolute, sym, offset }
  | frame disp => { mode := .frame, disp }
  | computed steps => { mode := .computed, steps }

namespace AddressRecord

/-- The address that a record denotes. -/
def address (x : AddressRecord) : Address :=
  match x.mode with
  | .absolute => .absolute x.sym x.offset
  | .frame    => .frame x.disp
  | .computed => .computed x.steps

/-- The memory reference `extra` bytes past a record. -/
def mem (x : AddressRecord) (extra : Int64) : MemRef :=
  match x.mode with
  | .frame => Address.mem (.frame x.disp) extra
  | _      => Address.mem (.absolute x.sym x.offset) extra

@[simp] theorem address_record (a : Address) : a.record.address = a := by
  cases a <;> rfl

/-- On the record of an address the two memory references agree. -/
theorem mem_record (a : Address) (extra : Int64) : a.record.mem extra = a.mem extra := by
  cases a with
  | absolute _ _ => rfl
  | frame _ => rfl
  | computed _ => simp [Address.record, mem, Address.mem]

end AddressRecord

end Z80Backend
