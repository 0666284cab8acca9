import Z80Backend.Register
import Z80Backend.Value

/-! # Machine instructions

    The instructions of the Z80 that the assembler produces, with operands
    already sorted by the part they play.  Spelling no longer matters at this
    level: a redundant accumulator operand is gone, immediates have their
    width, and `(ix)` is `(ix+0)`. -/

namespace Z80Backend

/-! ## Operands -/

/-- A 16-bit immediate or address: known, or waiting for a symbol. -/
inductive Word where
  | const (n : UInt16)
  | symbol (name : String) (addend : Int64)
  deriving DecidableEq, Repr, Inhabited

/-- A byte in memory that an 8-bit operation can name directly. -/
inductive Cell where
  /-- `(hl)` -/
  | hl
  /-- `(ix+d)` or `(iy+d)` -/
  | indexed (x : IndexReg) (d : Int8)
  deriving DecidableEq, Repr, Inhabited

/-- The place of an 8-bit operation. -/
inductive Loc8 where
  | reg (r : Reg8)
  | half (x : IndexReg) (h : Half)
  | cell (m : Cell)
  deriving DecidableEq, Repr, Inhabited

/-- The target of a rotation or a bit operation. -/
inductive BitLoc where
  | reg (r : Reg8)
  | cell (m : Cell)
  deriving DecidableEq, Repr, Inhabited

/-! ## Operations -/

/-- The 8-bit accumulator operations. -/
inductive AluOp where
  | add | adc | sub | sbc | and | xor | or | cp
  deriving DecidableEq, Repr, Inhabited

/-- The opcode number of an accumulator operation. -/
def AluOp.code : AluOp → UInt8
  | add => 0
  | adc => 1
  | sub => 2
  | sbc => 3
  | and => 4
  | xor => 5
  | or => 6
  | cp => 7

/-- Rotations and shifts. -/
inductive RotateOp where
  | rlc | rrc | rl | rr | sla | sra | sll | srl
  deriving DecidableEq, Repr, Inhabited

/-- The opcode number of a rotation. -/
def RotateOp.code : RotateOp → UInt8
  | rlc => 0
  | rrc => 1
  | rl => 2
  | rr => 3
  | sla => 4
  | sra => 5
  | sll => 6
  | srl => 7

/-- Operations on one bit. -/
inductive BitOp where
  | bit | res | set
  deriving DecidableEq, Repr, Inhabited

/-- The opcode of a bit operation on bit 0 of `b`. -/
def BitOp.base : BitOp → UInt8
  | bit => 0x40
  | res => 0x80
  | set => 0xC0

/-- Instructions without operands. -/
inductive Plain where
  | nop | halt | di | ei | scf | ccf | cpl | daa | rlca | rrca | rla | rra | exx
  | neg | reti | retn | rrd | rld
  | ldi | ldir | ldd | lddr | cpi | cpir | cpd | cpdr
  | ini | inir | ind | indr | outi | otir | outd | otdr
  deriving DecidableEq, Repr, Inhabited

namespace Plain

/-- The opcode of an instruction without operands. -/
def bytes : Plain → List UInt8
  | nop  => [0x00]
  | halt => [0x76]
  | di   => [0xF3]
  | ei   => [0xFB]
  | scf  => [0x37]
  | ccf  => [0x3F]
  | cpl  => [0x2F]
  | daa  => [0x27]
  | rlca => [0x07]
  | rrca => [0x0F]
  | rla  => [0x17]
  | rra  => [0x1F]
  | exx  => [0xD9]
  | neg  => [0xED, 0x44]
  | reti => [0xED, 0x4D]
  | retn => [0xED, 0x45]
  | rrd  => [0xED, 0x67]
  | rld  => [0xED, 0x6F]
  | ldi  => [0xED, 0xA0]
  | ldir => [0xED, 0xB0]
  | ldd  => [0xED, 0xA8]
  | lddr => [0xED, 0xB8]
  | cpi  => [0xED, 0xA1]
  | cpir => [0xED, 0xB1]
  | cpd  => [0xED, 0xA9]
  | cpdr => [0xED, 0xB9]
  | ini  => [0xED, 0xA2]
  | inir => [0xED, 0xB2]
  | ind  => [0xED, 0xAA]
  | indr => [0xED, 0xBA]
  | outi => [0xED, 0xA3]
  | otir => [0xED, 0xB3]
  | outd => [0xED, 0xAB]
  | otdr => [0xED, 0xBB]

/-- The mnemonic. -/
def text : Plain → String
  | nop  => "nop"
  | halt => "halt"
  | di   => "di"
  | ei   => "ei"
  | scf  => "scf"
  | ccf  => "ccf"
  | cpl  => "cpl"
  | daa  => "daa"
  | rlca => "rlca"
  | rrca => "rrca"
  | rla  => "rla"
  | rra  => "rra"
  | exx  => "exx"
  | neg  => "neg"
  | reti => "reti"
  | retn => "retn"
  | rrd  => "rrd"
  | rld  => "rld"
  | ldi  => "ldi"
  | ldir => "ldir"
  | ldd  => "ldd"
  | lddr => "lddr"
  | cpi  => "cpi"
  | cpir => "cpir"
  | cpd  => "cpd"
  | cpdr => "cpdr"
  | ini  => "ini"
  | inir => "inir"
  | ind  => "ind"
  | indr => "indr"
  | outi => "outi"
  | otir => "otir"
  | outd => "outd"
  | otdr => "otdr"

/-- All of them. -/
def all : List Plain :=
  [nop, halt, di, ei, scf, ccf, cpl, daa, rlca, rrca, rla, rra, exx, neg, reti, retn, rrd, rld,
   ldi, ldir, ldd, lddr, cpi, cpir, cpd, cpdr, ini, inir, ind, indr, outi, otir, outd, otdr]

end Plain

/-! ## Instructions -/

/-- A Z80 instruction. -/
inductive MachineInstr where
  | plain (p : Plain)
  /-- An accumulator operation with a register or memory byte. -/
  | alu (op : AluOp) (src : Loc8)
  /-- An accumulator operation with an immediate. -/
  | aluImm (op : AluOp) (n : UInt8)
  /-- `add hl,p` -/
  | addHL (p : Pair)
  /-- `adc hl,p` -/
  | adcHL (p : Pair)
  /-- `sbc hl,p` -/
  | sbcHL (p : Pair)
  /-- `add x,p`, where the pair `hl` stands for `x` itself. -/
  | addIndex (x : IndexReg) (p : Pair)
  | rotate (op : RotateOp) (target : BitLoc)
  | bit (op : BitOp) (n : Fin 8) (target : BitLoc)
  | ret
  | retIf (cc : Condition)
  | jp (target : Word)
  | jpIf (cc : Condition) (target : Word)
  /-- `jp (hl)` -/
  | jpHL
  /-- `jp (ix)` or `jp (iy)` -/
  | jpIndex (x : IndexReg)
  | call (target : Word)
  | callIf (cc : Condition) (target : Word)
  /-- A short jump; its distance is filled in at link time. -/
  | jr (target : Value)
  | jrIf (cc : Condition) (target : Value)
  | djnz (target : Value)
  | inc8 (loc : Loc8)
  | dec8 (loc : Loc8)
  | inc16 (p : Pair)
  | dec16 (p : Pair)
  | incIndex (x : IndexReg)
  | decIndex (x : IndexReg)
  | push (r : StackReg)
  | pop (r : StackReg)
  /-- `ex de,hl` -/
  | exDE
  /-- `ex af,af'` -/
  | exAF
  /-- `ex (sp),hl` -/
  | exSP
  /-- `ex (sp),ix` or `ex (sp),iy` -/
  | exSPIndex (x : IndexReg)
  /-- `ld r,s` -/
  | ld (dst src : Reg8)
  /-- A load between registers in which `h` and `l` stand for the halves of
      an index register. -/
  | ldHalves (x : IndexReg) (dst src : Reg8)
  | ldImm (dst : Reg8) (n : UInt8)
  | ldHalfImm (x : IndexReg) (h : Half) (n : UInt8)
  /-- `ld r,(hl)` or `ld r,(ix+d)` -/
  | load (dst : Reg8) (src : Cell)
  /-- `ld (hl),r` or `ld (ix+d),r` -/
  | store (dst : Cell) (src : Reg8)
  /-- `ld (hl),n` or `ld (ix+d),n` -/
  | storeImm (dst : Cell) (n : UInt8)
  /-- `ld a,(bc)` -/
  | ldAFromBC
  /-- `ld a,(de)` -/
  | ldAFromDE
  /-- `ld (bc),a` -/
  | ldBCFromA
  /-- `ld (de),a` -/
  | ldDEFromA
  /-- `ld a,(nn)` -/
  | ldAAbs (addr : Word)
  /-- `ld (nn),a` -/
  | ldAbsA (addr : Word)
  /-- `ld a,i` or `ld a,r` -/
  | ldAControl (s : ControlReg)
  /-- `ld i,a` or `ld r,a` -/
  | ldControlA (s : ControlReg)
  | ldPairImm (p : Pair) (n : Word)
  | ldPairAbs (p : Pair) (addr : Word)
  | ldAbsPair (addr : Word) (p : Pair)
  | ldIndexImm (x : IndexReg) (n : Word)
  | ldIndexAbs (x : IndexReg) (addr : Word)
  | ldAbsIndex (addr : Word) (x : IndexReg)
  /-- `ld sp,hl` -/
  | ldSPHL
  /-- `ld sp,ix` or `ld sp,iy` -/
  | ldSPIndex (x : IndexReg)
  /-- `in r,(c)` -/
  | inC (dst : Reg8)
  /-- `in a,(n)` -/
  | inPort (n : UInt8)
  /-- `out (c),r` -/
  | outC (src : Reg8)
  /-- `out (n),a` -/
  | outPort (n : UInt8)
  /-- A restart at eight times `n`. -/
  | rst (n : Fin 8)
  | im (mode : Fin 3)
  deriving DecidableEq, Repr, Inhabited

end Z80Backend
