import Z80Backend.Function.State

/-! # Frames

    Parameters and locals live in 2-byte slots beside the address in `ix`:
    the parameters above it, past the saved `ix` and the return address, and
    the locals below.  A slot holds a value of at most two bytes, or the
    address of a referenced one.

    A function saves the register pairs that it does not return a value in. -/

namespace Z80Backend

/-- The registers that a function can return values in or save. -/
def savedRegs : List StackReg := [.af, .bc, .de, .hl]

/-- Named storage, the first of a name counting. -/
abbrev StorageTable := List (String × Storage)

/-- The storage of a name. -/
def StorageTable.scope (t : StorageTable) : Scope := fun name => t.lookup name

namespace FuncDecl

/-- The displacement of parameter `i`. -/
def paramDisp (i : Nat) : Int64 := 4 + 2 * Int64.ofNat i

/-- The displacement of local `i`. -/
def localDisp (i : Nat) : Int64 := -2 - 2 * Int64.ofNat i

/-- The slots of the function, with the part each plays and its displacement,
    in declaration order. -/
def slots (d : FuncDecl) : List (SlotRole × String × TypeRef × Int64) :=
  (d.params.zipIdx.map fun (p, i) => (.parameter, p.name, p.type, paramDisp i)) ++
    d.locals.zipIdx.map fun (l, i) => (.localVar, l.name, l.type, localDisp i)

/-- What a slot holds, or what is wrong with it. -/
def slotHome (r : Resolver) (role : SlotRole) (name : String) (t : TypeRef) (disp : Int64) :
    Except AddressError Home :=
  if t.isRef then .ok (.ref disp)
  else
    match r.sizeOf t with
    | .error _ => .error (.slotSize role name t)
    | .ok size => if 2 < size then .error (.slotSize role name t) else .ok (.frame disp)

/-- Lays out slots in turn.  A slot that is in error is left out. -/
def layoutSlots (d : FuncDecl) (r : Resolver) :
    List (SlotRole × String × TypeRef × Int64) → StorageTable × FnState →
      StorageTable × FnState
  | [], acc => acc
  | (role, name, type, disp) :: rest, (table, s) =>
    d.layoutSlots r rest <|
      if (table.lookup name).isSome then
        (table, s.report (.call (.repeatedSlot role name d.name)) d.span)
      else
        match slotHome r role name type disp with
        | .error e => (table, s.report (.address e) d.span)
        | .ok home => (table ++ [(name, { home, type })], s)

/-- Reports return registers that do not exist. -/
def checkReturns (d : FuncDecl) (s : FnState) : FnState :=
  d.returns.foldl
    (fun s reg =>
      let reg := Text.lower reg
      if savedRegs.any (·.text == reg) then s
      else s.report (.call (.unknownReturn d.name reg)) d.span)
    s

/-- The registers that the function saves. -/
def preserved (d : FuncDecl) : List StackReg :=
  savedRegs.filter fun reg => !(d.returns.map Text.lower).contains reg.text

/-- Does the function have a frame? -/
def hasFrame (d : FuncDecl) : Bool := !(d.params.isEmpty && d.locals.isEmpty)

end FuncDecl

end Z80Backend
