import Z80Backend.Address.AddressError
import Z80Backend.Address.Step

/-! # Effective addresses

    `Address.build base index scale` computes base plus index times scale.
    Where the sum is a symbol plus a constant, or a frame slot, the address is
    direct and needs no code.  Everything else becomes steps that leave the
    address in `hl`.

    The code works in `hl` and `de`: the index is brought to `hl` and scaled
    there, the base is brought to `de`, and one addition joins them.  When
    bringing in the base would destroy what the index reads, the index goes
    first and waits on the stack. -/

namespace Z80Backend

/-! ## Bases, indexes and addresses -/

/-- Where a base address comes from. -/
inductive Origin where
  /-- The address of a symbol. -/
  | global (sym : String)
  /-- The frame location at a displacement from `ix`. -/
  | frame (disp : Int64)
  /-- The address held in a frame slot. -/
  | pointer (disp : Int64)
  /-- The address held in a register pair. -/
  | reg (name : String)
  /-- An origin that has no name. -/
  | unknown (kind : Int64)
  deriving DecidableEq, Repr, Inhabited

/-- A base address: an origin and a constant offset from it. -/
structure Base where
  origin : Origin
  offset : Int64 := 0
  deriving DecidableEq, Repr, Inhabited

/-- How an address is reached. -/
inductive Address where
  /-- A symbol plus an offset, or the offset alone when the symbol is empty. -/
  | absolute (sym : String) (off : Int64)
  /-- The frame location at a displacement from `ix`. -/
  | frame (disp : Int64)
  /-- Steps that leave the address in `hl`. -/
  | computed (steps : List Step)
  deriving DecidableEq, Repr, Inhabited

/-- An index into an array. -/
inductive Index where
  | none
  /-- A constant. -/
  | const (n : Int64)
  /-- An 8-bit register, zero-extended. -/
  | reg8 (name : String)
  /-- A 16-bit register. -/
  | reg16 (name : String)
  /-- The value stored at a symbol. -/
  | global (sym : String) (off : Int64) (isByte : Bool)
  /-- The value stored in a frame slot. -/
  | slot (disp : Int64) (isByte : Bool)
  /-- The byte at `(hl)`. -/
  | memHL
  /-- The byte at `(ix+d)` or `(iy+d)`; an empty register stands for `ix`. -/
  | memIndexed (reg : String) (disp : Int64)
  /-- The value stored at an address. -/
  | stored (addr : Address) (isByte : Bool)
  /-- An index that has no name. -/
  | unknown (kind : Int64)
  deriving DecidableEq, Repr, Inhabited

namespace Address

/-- Can the address be used as an operand without any code? -/
def isDirect : Address → Bool
  | computed _ => false
  | _ => true

/-- The memory reference `extra` bytes past a direct address. -/
def mem (a : Address) (extra : Int64) : MemRef :=
  match a with
  | frame d => .slot (d + extra)
  | absolute s off => if s = "" then .address (off + extra) else .symbol s (off + extra)
  | computed _ => .address extra

/-! ## Pieces of code -/

/-- Brings `ix + disp` to `hl`. -/
def framePointer (disp : Int64) : List Step :=
  [.push (.index .ix), .pop .hl, .ldWord .de disp, .addHL .de]

/-- Adds a constant to `hl`, unless it is zero. -/
def addOffset (off : Int64) : List Step :=
  if off = 0 then [] else [.ldWord .de off, .addHL .de]

/-- Brings an address to `hl`. -/
def toHL : Address → List Step
  | frame d => framePointer d
  | absolute s off => if s = "" then [.ldWord .hl off] else [.ldSym .hl s off]
  | computed steps => steps

/-- Doubles `hl` for each of the low `k` bits of `n`, from the highest down,
    and adds `de` where the bit is set. -/
def doubleAndAdd (n : Nat) : Nat → List Step
  | 0 => []
  | k + 1 =>
    .addHL .hl :: ((if n.testBit k then [.addHL .de] else []) ++ doubleAndAdd n k)

/-- Multiplies `hl` by a positive constant.  A power of two takes doublings
    only; any other factor takes `de` as scratch, saved when `keepDE`. -/
def scaleHL (scale : Int64) (keepDE : Bool) : List Step :=
  let n := scale.toInt.toNat
  if scale = 1 then []
  else if scale &&& (scale - 1) = 0 then List.replicate n.log2 (.addHL .hl)
  else
    let body := [.ldReg .d .h, .ldReg .e .l] ++ doubleAndAdd n n.log2
    if keepDE then [.push .de] ++ body ++ [.pop .de] else body

/-- Do the two bytes of a slot lie within reach of `ix`? -/
def slotFits (disp : Int64) : Bool := fitsDisp disp && fitsDisp (disp + 1)

/-- Code that brings a base to `de`. -/
structure BaseCode where
  steps : List Step
  /-- Does it destroy `hl` on the way? -/
  clobbersHL : Bool := false

/-- Brings a base address to `de`. -/
def baseCode (b : Base) : Except AddressError BaseCode :=
  match b.origin with
  | .global s => .ok { steps := [.ldSym .de s b.offset] }
  | .pointer d =>
    if !slotFits d then .error (.slotRange d)
    else
      let fetch := [.loadByte .e (.slot d), .loadByte .d (.slot (d + 1))]
      if b.offset = 0 then .ok { steps := fetch }
      else
        .ok { steps := fetch ++ [.exDEHL, .ldWord .de b.offset, .addHL .de, .exDEHL]
              clobbersHL := true }
  | .frame d => .ok { steps := framePointer (d + b.offset) ++ [.exDEHL], clobbersHL := true }
  | .reg _ => .error (.unknownBase 3)
  | .unknown k => .error (.unknownBase k)

/-- Code that brings an index to `hl`. -/
structure IndexCode where
  steps : List Step
  /-- Does it read `h`, `l` or both? -/
  readsHL : Bool := false
  /-- Does it read `d`, `e` or both? -/
  readsDE : Bool := false
  /-- Does it use `de` as scratch? -/
  usesDE : Bool := false

/-- Code for an index held in an 8-bit register. -/
def regCode (r : Reg8) : IndexCode :=
  match r with
  | .h => { steps := [.ldReg .l .h, .ldByte .h 0], readsHL := true }
  | .l => { steps := [.ldByte .h 0, .ldReg .l .l], readsHL := true }
  | .d => { steps := [.ldByte .h 0, .ldReg .l .d], readsDE := true }
  | .e => { steps := [.ldByte .h 0, .ldReg .l .e], readsDE := true }
  | r => { steps := [.ldByte .h 0, .ldReg .l r] }

/-- Brings the unscaled index to `hl`. -/
def indexCode (i : Index) : Except AddressError IndexCode :=
  match i with
  | .const n => .ok { steps := [.ldWord .hl n] }
  | .reg8 name =>
    match Reg8.ofName? name with
    | some r => .ok (regCode r)
    | none   => .error (.byteIndex name)
  | .reg16 "hl" => .ok { steps := [], readsHL := true }
  | .reg16 "de" => .ok { steps := [.ldReg .h .d, .ldReg .l .e], readsDE := true }
  | .reg16 "bc" => .ok { steps := [.ldReg .h .b, .ldReg .l .c] }
  | .reg16 "ix" => .ok { steps := [.push (.index .ix), .pop .hl] }
  | .reg16 "iy" => .ok { steps := [.push (.index .iy), .pop .hl] }
  | .reg16 name => .error (.wordIndex name)
  | .global s off isByte =>
    .ok { steps := .loadWord .hl (.symbol s off) :: (if isByte then [.ldByte .h 0] else []) }
  | .slot d true => .ok { steps := [.ldByte .h 0, .loadByte .l (.slot d)] }
  | .slot d false =>
    if !fitsDisp (d + 1) then .error (.slotRange d)
    else
      .ok { steps := [.exDEHL, .loadByte .e (.slot d), .loadByte .d (.slot (d + 1)), .exDEHL] }
  | .memHL => .ok { steps := [.loadByte .l .hl, .ldByte .h 0], readsHL := true }
  | .memIndexed reg d =>
    .ok { steps := [.ldByte .h 0, .loadByte .l (.indexed (if reg = "" then "ix" else reg) d)] }
  | .stored a isByte =>
    let fetch :=
      if isByte then [.loadByte .l .hl, .ldByte .h 0]
      else [.loadByte .e .hl, .inc .hl, .loadByte .d .hl, .exDEHL]
    .ok { steps := a.toHL ++ fetch, usesDE := true }
  | .none => .error (.unknownIndex 0)
  | .unknown k => .error (.unknownIndex k)

/-! ## Building -/

/-- The address of a base alone. -/
def ofBase (b : Base) : Except AddressError Address :=
  match b.origin with
  | .global s => .ok (.absolute s b.offset)
  | .frame d =>
    if fitsDisp (d + b.offset) then .ok (.frame (d + b.offset))
    else .ok (.computed (framePointer (d + b.offset)))
  | .pointer d =>
    if !slotFits d then .error (.slotRange d)
    else
      .ok (.computed ([.loadByte .l (.slot d), .loadByte .h (.slot (d + 1))] ++ addOffset b.offset))
  | .reg name =>
    match WordReg.ofName? name with
    | some .hl => .ok (.computed (addOffset b.offset))
    | some .de => .ok (.computed ([.ldReg .h .d, .ldReg .l .e] ++ addOffset b.offset))
    | some .bc => .ok (.computed ([.ldReg .h .b, .ldReg .l .c] ++ addOffset b.offset))
    | none => .error (.baseReg name)
  | .unknown k => .error (.unknownBase k)

/-- The address of an indexed register pair.  The pair waits on the stack, so
    the index may read any register. -/
def fromReg (name : String) (off : Int64) (i : Index) (scale : Int64) :
    Except AddressError Address :=
  match WordReg.ofName? name with
  | none => .error (.baseReg name)
  | some r =>
    match indexCode i with
    | .error e => .error e
    | .ok c =>
      .ok (.computed ([.push r.onStack] ++ c.steps ++ scaleHL scale false ++ addOffset off ++
        [.pop .de, .addHL .de]))

/-- Joins a scaled index in `hl` and a base in `de`. -/
def join (c : IndexCode) (b : BaseCode) (scale : Int64) : List Step :=
  if c.usesDE || c.readsDE || (b.clobbersHL && c.readsHL) then
    c.steps ++ scaleHL scale false ++ [.push .hl] ++ b.steps ++ [.pop .hl, .addHL .de]
  else
    b.steps ++ c.steps ++ scaleHL scale true ++ [.addHL .de]

/-- The address of a base with a runtime or constant index. -/
def indexedBy (b : Base) (i : Index) (scale : Int64) : Except AddressError Address :=
  match b.origin with
  | .reg name => fromReg name b.offset i scale
  | _ =>
    match indexCode i with
    | .error e => .error e
    | .ok c =>
      match baseCode b with
      | .error e => .error e
      | .ok d    => .ok (.computed (join c d scale))

/-- The address of a base with a constant index of `off` bytes. -/
def atConst (b : Base) (off : Int64) : Except AddressError Address :=
  match b.origin with
  | .frame d =>
    if fitsDisp (d + b.offset + off) then .ok (.frame (d + b.offset + off))
    else indexedBy b (.const off) 1
  | _ => indexedBy b (.const off) 1

/-- The address `base + index * scale`. -/
def build (b : Base) (i : Index) (scale : Int64) : Except AddressError Address :=
  if scale ≤ 0 then .error (.elementSize scale)
  else
    match i with
    | .none    => ofBase b
    | .const n => atConst b (n * scale)
    | i        => indexedBy b i scale

/-! ## Common shapes -/

/-- A symbol plus a constant number of bytes. -/
def globalConst (sym : String) (off : Int64) : Except AddressError Address :=
  build { origin := .global sym } (.const off) 1

/-- The element of the array at a symbol whose number is in an 8-bit
    register. -/
def globalReg8 (sym reg : String) (scale : Int64) : Except AddressError Address :=
  build { origin := .global sym } (.reg8 reg) scale

/-- The element of the array at a symbol whose number is in a pair. -/
def globalReg16 (sym reg : String) (scale : Int64) : Except AddressError Address :=
  build { origin := .global sym } (.reg16 reg) scale

/-- The element of the array at a symbol whose number is the word at another. -/
def globalGlobal (sym index : String) (scale : Int64) : Except AddressError Address :=
  build { origin := .global sym } (.global index 0 false) scale

/-- The element of the array at a symbol whose number is in a frame slot. -/
def globalSlot (sym : String) (disp scale : Int64) : Except AddressError Address :=
  build { origin := .global sym } (.slot disp false) scale

/-- A frame location plus a constant number of bytes. -/
def frameConst (disp off : Int64) : Except AddressError Address :=
  build { origin := .frame disp } (.const off) 1

/-- The element of the array in the frame whose number is in an 8-bit
    register. -/
def frameReg8 (disp : Int64) (reg : String) (scale : Int64) : Except AddressError Address :=
  build { origin := .frame disp } (.reg8 reg) scale

/-- The element of the array in the frame whose number is in a pair. -/
def frameReg16 (disp : Int64) (reg : String) (scale : Int64) : Except AddressError Address :=
  build { origin := .frame disp } (.reg16 reg) scale

end Address

end Z80Backend
