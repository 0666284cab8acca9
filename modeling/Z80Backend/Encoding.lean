import Z80Backend.MachineInstr

/-! # Encodings

    The bytes of a machine instruction.  A slot that waits for a symbol is
    left zero and described by a fixup; it always closes the instruction. -/

namespace Z80Backend

/-! ## Fixups -/

/-- The shape of a slot that waits for an address. -/
inductive FixupKind where
  /-- A signed distance from the next instruction, in one byte. -/
  | rel8
  /-- An address after an unprefixed opcode, low byte first. -/
  | abs16
  /-- An address after an opcode led by `ED`. -/
  | abs16ED
  /-- An address after an opcode led by `DD` or `FD`. -/
  | abs16Index
  /-- A shape without a name; it is filled like an address. -/
  | unknown
  deriving DecidableEq, Repr, Inhabited

/-- The kind with the given number. -/
def FixupKind.ofCode (n : Int64) : FixupKind :=
  if n = 0 then .rel8
  else if n = 1 then .abs16
  else if n = 2 then .abs16ED
  else if n = 3 then .abs16Index
  else .unknown

/-- The name of a kind. -/
def FixupKind.text : FixupKind → String
  | rel8 => "rel8"
  | abs16 => "abs16"
  | abs16ED => "abs16-ed"
  | abs16Index => "abs16-index"
  | unknown => "unknown"

/-- A slot that waits for an address.  `offset` is its position and `opcode`
    the bytes of its instruction before it.  The target is the symbol's
    address plus `addend`, or `addend` itself when the symbol is empty. -/
structure Fixup where
  kind : FixupKind
  offset : Int64
  symbol : String
  addend : Int64
  opcode : List UInt8
  deriving DecidableEq, Repr, Inhabited

/-! ## Bytes -/

/-- The bytes of an instruction and the slots in them that wait. -/
structure Encoding where
  bytes : List UInt8
  fixups : List Fixup := []
  deriving DecidableEq, Repr, Inhabited

namespace Encoding

/-- The kind of an address slot, told by the first byte of the opcode. -/
def wordKind : List UInt8 → FixupKind
  | b :: _ =>
    if b = 0xED then .abs16ED else if b = 0xDD ∨ b = 0xFD then .abs16Index else .abs16
  | [] => .abs16

/-- An opcode followed by a 16-bit word. -/
def withWord (opcode : List UInt8) : Word → Encoding
  | .const n =>
    { bytes := opcode ++ [UInt8.ofNat (n.toNat % 256), UInt8.ofNat (n.toNat / 256)] }
  | .symbol s k =>
    { bytes := opcode ++ [0, 0]
      fixups := [{ kind := wordKind opcode, offset := Int64.ofNat opcode.length,
                   symbol := s, addend := k, opcode }] }

/-- An opcode followed by a branch distance. -/
def withDistance (opcode : UInt8) (target : Value) : Encoding :=
  { bytes := [opcode, 0]
    fixups := [{ kind := .rel8, offset := 1, symbol := target.symbol,
                 addend := target.addend, opcode := [opcode] }] }

/-- The opcode of an operation on a memory byte: as it stands for `(hl)`, led
    and followed by a displacement for an index register. -/
def onCell (opcode : UInt8) : Cell → List UInt8
  | .hl => [opcode]
  | .indexed x d => [x.leadByte, opcode, d.toUInt8]

/-- An 8-bit operation whose operand number is put in by `put`. -/
def onLoc (put : UInt8 → UInt8) : Loc8 → List UInt8
  | .reg r => [put r.code]
  | .half x h => [x.leadByte, put h.code]
  | .cell m => onCell (put 6) m

/-- A rotation or bit operation; with an index register the displacement
    stands before the final byte. -/
def onBitLoc (op : UInt8) : BitLoc → List UInt8
  | .reg r => [0xCB, op + r.code]
  | .cell .hl => [0xCB, op + 6]
  | .cell (.indexed x d) => [x.leadByte, 0xCB, d.toUInt8, op + 6]

/-- `push` and `pop`, from the opcode for `bc`. -/
def onStackReg (base : UInt8) : StackReg → List UInt8
  | .bc => [base]
  | .de => [base + 0x10]
  | .hl => [base + 0x20]
  | .af => [base + 0x30]
  | .index x => [x.leadByte, base + 0x20]

end Encoding

open Encoding in
/-- The encoding of a machine instruction. -/
def MachineInstr.encoding : MachineInstr → Encoding
  | plain p => { bytes := p.bytes }
  | alu op src => { bytes := onLoc (0x80 + 8 * op.code + ·) src }
  | aluImm op n => { bytes := [0xC6 + 8 * op.code, n] }
  | addHL p => { bytes := [0x09 + 16 * p.code] }
  | adcHL p => { bytes := [0xED, 0x4A + 16 * p.code] }
  | sbcHL p => { bytes := [0xED, 0x42 + 16 * p.code] }
  | addIndex x p => { bytes := [x.leadByte, 0x09 + 16 * p.code] }
  | rotate op t => { bytes := onBitLoc (8 * op.code) t }
  | bit op n t => { bytes := onBitLoc (op.base + 8 * UInt8.ofNat n.val) t }
  | ret => { bytes := [0xC9] }
  | retIf cc => { bytes := [0xC0 + 8 * cc.code] }
  | jp t => withWord [0xC3] t
  | jpIf cc t => withWord [0xC2 + 8 * cc.code] t
  | jpHL => { bytes := [0xE9] }
  | jpIndex x => { bytes := [x.leadByte, 0xE9] }
  | call t => withWord [0xCD] t
  | callIf cc t => withWord [0xC4 + 8 * cc.code] t
  | jr t => withDistance 0x18 t
  | jrIf cc t => withDistance (0x20 + 8 * cc.code) t
  | djnz t => withDistance 0x10 t
  | inc8 loc => { bytes := onLoc (0x04 + 8 * ·) loc }
  | dec8 loc => { bytes := onLoc (0x05 + 8 * ·) loc }
  | inc16 p => { bytes := [0x03 + 16 * p.code] }
  | dec16 p => { bytes := [0x0B + 16 * p.code] }
  | incIndex x => { bytes := [x.leadByte, 0x23] }
  | decIndex x => { bytes := [x.leadByte, 0x2B] }
  | push r => { bytes := onStackReg 0xC5 r }
  | pop r => { bytes := onStackReg 0xC1 r }
  | exDE => { bytes := [0xEB] }
  | exAF => { bytes := [0x08] }
  | exSP => { bytes := [0xE3] }
  | exSPIndex x => { bytes := [x.leadByte, 0xE3] }
  | ld dst src => { bytes := [0x40 + 8 * dst.code + src.code] }
  | ldHalves x dst src => { bytes := [x.leadByte, 0x40 + 8 * dst.code + src.code] }
  | ldImm dst n => { bytes := [0x06 + 8 * dst.code, n] }
  | ldHalfImm x h n => { bytes := [x.leadByte, 0x06 + 8 * h.code, n] }
  | load dst src => { bytes := onCell (0x46 + 8 * dst.code) src }
  | store dst src => { bytes := onCell (0x70 + src.code) dst }
  | storeImm dst n => { bytes := onCell 0x36 dst ++ [n] }
  | ldAFromBC => { bytes := [0x0A] }
  | ldAFromDE => { bytes := [0x1A] }
  | ldBCFromA => { bytes := [0x02] }
  | ldDEFromA => { bytes := [0x12] }
  | ldAAbs a => withWord [0x3A] a
  | ldAbsA a => withWord [0x32] a
  | ldAControl .i => { bytes := [0xED, 0x57] }
  | ldAControl .r => { bytes := [0xED, 0x5F] }
  | ldControlA .i => { bytes := [0xED, 0x47] }
  | ldControlA .r => { bytes := [0xED, 0x4F] }
  | ldPairImm p n => withWord [0x01 + 16 * p.code] n
  | ldPairAbs .hl a => withWord [0x2A] a
  | ldPairAbs p a => withWord [0xED, 0x4B + 16 * p.code] a
  | ldAbsPair a .hl => withWord [0x22] a
  | ldAbsPair a p => withWord [0xED, 0x43 + 16 * p.code] a
  | ldIndexImm x n => withWord [x.leadByte, 0x21] n
  | ldIndexAbs x a => withWord [x.leadByte, 0x2A] a
  | ldAbsIndex a x => withWord [x.leadByte, 0x22] a
  | ldSPHL => { bytes := [0xF9] }
  | ldSPIndex x => { bytes := [x.leadByte, 0xF9] }
  | inC dst => { bytes := [0xED, 0x40 + 8 * dst.code] }
  | inPort n => { bytes := [0xDB, n] }
  | outC src => { bytes := [0xED, 0x41 + 8 * src.code] }
  | outPort n => { bytes := [0xD3, n] }
  | rst n => { bytes := [0xC7 + 8 * UInt8.ofNat n.val] }
  | im 0 => { bytes := [0xED, 0x46] }
  | im 1 => { bytes := [0xED, 0x56] }
  | im 2 => { bytes := [0xED, 0x5E] }

/-- The bytes of a machine instruction. -/
def MachineInstr.bytes (m : MachineInstr) : List UInt8 := m.encoding.bytes

end Z80Backend
