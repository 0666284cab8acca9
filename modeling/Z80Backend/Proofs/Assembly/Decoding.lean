import Mathlib.Algebra.GroupWithZero.Nat
import Z80Backend.Encoding
import Z80Backend.Proofs.Address.Machine

/-! # Decoding

    An opcode is read in octal: its digits choose a row and a column of the
    opcode table, and the table says which operand bytes follow.  The bytes
    `CB`, `ED`, `DD` and `FD` lead to tables of their own.

    The decoder is written from the table and knows nothing of the encoder.
    Slots that wait for a symbol are zero in the bytes, and so they are in
    what is decoded.

    * `MachineInstr.decode?` takes one instruction off a list of bytes.
    * `MachineInstr.decode?_bytes`: what the encoder wrote is read back,
      whatever follows it. -/

namespace Z80Backend

/-! ## Opcode tables -/

/-- An opcode, with the operand bytes that follow it. -/
inductive Template where
  | whole (m : MachineInstr)
  /-- One byte follows. -/
  | byte (f : UInt8 → MachineInstr)
  /-- A word follows, low byte first. -/
  | word (f : Word → MachineInstr)
  /-- The distance of a short jump follows. -/
  | distance (f : Value → MachineInstr)
  /-- The displacement of an index register follows. -/
  | displaced (f : Int8 → MachineInstr)
  /-- A displacement and then a byte follow. -/
  | displacedByte (f : Int8 → UInt8 → MachineInstr)

/-- Reads the operand bytes. -/
def Template.read : Template → List UInt8 → Option (MachineInstr × List UInt8)
  | whole m, bs => some (m, bs)
  | byte f, n :: bs => some (f n, bs)
  | word f, low :: high :: bs => some (f (.const (wordOf high low)), bs)
  | distance f, d :: bs => some (f { addend := d.toInt8.toInt64 }, bs)
  | displaced f, d :: bs => some (f d.toInt8, bs)
  | displacedByte f, d :: n :: bs => some (f d.toInt8 n, bs)
  | _, _ => none

namespace Opcode

/-! ### Digits -/

/-- The registers by number; six stands for memory. -/
def reg8s : List (Option Reg8) :=
  [some .b, some .c, some .d, some .e, some .h, some .l, none, some .a]

/-- The places of 8-bit operations by number. -/
def loc8s : List Loc8 :=
  [.reg .b, .reg .c, .reg .d, .reg .e, .reg .h, .reg .l, .cell .hl, .reg .a]

/-- The targets of bit operations by number. -/
def bitLocs : List BitLoc :=
  [.reg .b, .reg .c, .reg .d, .reg .e, .reg .h, .reg .l, .cell .hl, .reg .a]

def pairs : List Pair := [.bc, .de, .hl, .sp]

def conditions : List Condition := [.nz, .z, .nc, .c, .po, .pe, .p, .m]

def aluOps : List AluOp := [.add, .adc, .sub, .sbc, .and, .xor, .or, .cp]

def rotateOps : List RotateOp := [.rlc, .rrc, .rl, .rr, .sla, .sra, .sll, .srl]

/-! ### Opcodes without a lead byte -/

/-- Opcodes from `000` octal. -/
def quarter0 (y : Nat) : Nat → Option Template
  | 0 => [.whole (.plain .nop), .whole .exAF, .distance .djnz, .distance .jr,
      .distance (.jrIf .nz), .distance (.jrIf .z), .distance (.jrIf .nc), .distance (.jrIf .c)][y]?
  | 1 => pairs[y / 2]?.map fun p => if y % 2 = 0 then .word (.ldPairImm p) else .whole (.addHL p)
  | 2 => [.whole .ldBCFromA, .whole .ldAFromBC, .whole .ldDEFromA, .whole .ldAFromDE,
      .word (.ldAbsPair · .hl), .word (.ldPairAbs .hl), .word .ldAbsA, .word .ldAAbs][y]?
  | 3 => pairs[y / 2]?.map fun p => .whole (if y % 2 = 0 then .inc16 p else .dec16 p)
  | 4 => loc8s[y]?.map (.whole <| .inc8 ·)
  | 5 => loc8s[y]?.map (.whole <| .dec8 ·)
  | 6 => reg8s[y]?.map fun
    | some r => .byte (.ldImm r)
    | none => .byte (.storeImm .hl)
  | _ => [.rlca, .rrca, .rla, .rra, .daa, .cpl, .scf, .ccf][y]?.map (.whole <| .plain ·)

/-- Opcodes from `100` octal: moves, with `halt` where memory would move to
    memory. -/
def quarter1 (y z : Nat) : Option Template :=
  match reg8s[y]?, reg8s[z]? with
  | some (some dst), some (some src) => some (.whole (.ld dst src))
  | some (some dst), some none => some (.whole (.load dst .hl))
  | some none, some (some src) => some (.whole (.store .hl src))
  | some none, some none => some (.whole (.plain .halt))
  | _, _ => none

/-- Opcodes from `200` octal: accumulator operations. -/
def quarter2 (y z : Nat) : Option Template :=
  match aluOps[y]?, loc8s[z]? with
  | some op, some src => some (.whole (.alu op src))
  | _, _ => none

-- Bits and restarts are numbered up to 7, interrupt modes up to 2.
local instance neZero_eight : NeZero 8 := ⟨by decide⟩
local instance neZero_three : NeZero 3 := ⟨by decide⟩

/-- Opcodes from `300` octal, without the lead bytes. -/
def quarter3 (y : Nat) : Nat → Option Template
  | 0 => conditions[y]?.map (.whole <| .retIf ·)
  | 1 => [.pop .bc, .ret, .pop .de, .plain .exx, .pop .hl, .jpHL, .pop .af, .ldSPHL][y]?.map .whole
  | 2 => conditions[y]?.map (.word <| .jpIf ·)
  | 3 => ([some (.word .jp), none, some (.byte .outPort), some (.byte .inPort),
      some (.whole .exSP), some (.whole .exDE), some (.whole (.plain .di)),
      some (.whole (.plain .ei))][y]?).join
  | 4 => conditions[y]?.map (.word <| .callIf ·)
  | 5 => ([some (.whole (.push .bc)), some (.word .call), some (.whole (.push .de)), none,
      some (.whole (.push .hl)), none, some (.whole (.push .af)), none][y]?).join
  | 6 => aluOps[y]?.map (.byte <| .aluImm ·)
  | _ => some (.whole (.rst (Fin.ofNat 8 y)))

/-- An opcode without a lead byte. -/
def main (b : UInt8) : Option Template :=
  match b.toNat / 64 with
  | 0 => quarter0 (b.toNat / 8 % 8) (b.toNat % 8)
  | 1 => quarter1 (b.toNat / 8 % 8) (b.toNat % 8)
  | 2 => quarter2 (b.toNat / 8 % 8) (b.toNat % 8)
  | _ => quarter3 (b.toNat / 8 % 8) (b.toNat % 8)

/-! ### Opcodes behind a lead byte -/

/-- Rotations and bit operations on a target. -/
def bitwise (b : UInt8) (t : BitLoc) : Option MachineInstr :=
  let n := Fin.ofNat 8 (b.toNat / 8)
  match b.toNat / 64 with
  | 0 => rotateOps[b.toNat / 8]?.map (.rotate · t)
  | 1 => some (.bit .bit n t)
  | 2 => some (.bit .res n t)
  | _ => some (.bit .set n t)

/-- Opcodes behind `ED` from `100` octal. -/
def extended1 (y : Nat) : Nat → Option Template
  | 0 => (reg8s[y]?).join.map (.whole <| .inC ·)
  | 1 => (reg8s[y]?).join.map (.whole <| .outC ·)
  | 2 => pairs[y / 2]?.map fun p => .whole (if y % 2 = 0 then .sbcHL p else .adcHL p)
  | 3 => pairs[y / 2]?.map fun p => .word (if y % 2 = 0 then (.ldAbsPair · p) else .ldPairAbs p)
  | 4 => [.neg][y]?.map (.whole <| .plain ·)
  | 5 => [.retn, .reti][y]?.map (.whole <| .plain ·)
  | 6 => ([some 0, none, some 1, some 2][y]?).join.map (.whole <| .im ·)
  | _ => [.ldControlA .i, .ldControlA .r, .ldAControl .i, .ldAControl .r, .plain .rrd,
      .plain .rld][y]?.map .whole

/-- Opcodes behind `ED` from `200` octal: block operations. -/
def extended2 (y : Nat) : Nat → Option Template
  | 0 => ([.ldi, .ldd, .ldir, .lddr][y - 4]?).map (.whole <| .plain ·)
  | 1 => ([.cpi, .cpd, .cpir, .cpdr][y - 4]?).map (.whole <| .plain ·)
  | 2 => ([.ini, .ind, .inir, .indr][y - 4]?).map (.whole <| .plain ·)
  | 3 => ([.outi, .outd, .otir, .otdr][y - 4]?).map (.whole <| .plain ·)
  | _ => none

/-- An opcode behind `ED`. -/
def extended (b : UInt8) : Option Template :=
  match b.toNat / 64 with
  | 1 => extended1 (b.toNat / 8 % 8) (b.toNat % 8)
  | 2 => if b.toNat / 8 % 8 < 4 then none else extended2 (b.toNat / 8 % 8) (b.toNat % 8)
  | _ => none

/-- The halves of an index register by the number of `h` or `l`. -/
def half? : Nat → Option Half
  | 4 => some .high
  | 5 => some .low
  | _ => none

/-- An 8-bit operation behind the lead byte of an index register. -/
def onIndex (x : IndexReg) (y : Nat) (f : Loc8 → MachineInstr) : Option Template :=
  if y = 6 then some (.displaced fun d => f (.cell (.indexed x d)))
  else (half? y).map fun h => .whole (f (.half x h))

/-- Opcodes from `000` octal behind the lead byte of an index register. -/
def index0 (x : IndexReg) (y : Nat) : Nat → Option Template
  | 1 => if y = 4 then some (.word (.ldIndexImm x))
      else if y % 2 = 1 then pairs[y / 2]?.map (.whole <| .addIndex x ·) else none
  | 2 => if y = 4 then some (.word (.ldAbsIndex · x))
      else if y = 5 then some (.word (.ldIndexAbs x)) else none
  | 3 => if y = 4 then some (.whole (.incIndex x))
      else if y = 5 then some (.whole (.decIndex x)) else none
  | 4 => onIndex x y .inc8
  | 5 => onIndex x y .dec8
  | 6 => if y = 6 then some (.displacedByte fun d n => .storeImm (.indexed x d) n)
      else (half? y).map fun h => .byte (.ldHalfImm x h)
  | _ => none

/-- Opcodes from `100` octal behind the lead byte of an index register. -/
def index1 (x : IndexReg) (y z : Nat) : Option Template :=
  match reg8s[y]?, reg8s[z]? with
  | some (some dst), some (some src) => some (.whole (.ldHalves x dst src))
  | some (some dst), some none => some (.displaced fun d => .load dst (.indexed x d))
  | some none, some (some src) => some (.displaced fun d => .store (.indexed x d) src)
  | _, _ => none

/-- An opcode behind the lead byte of an index register. -/
def indexed (x : IndexReg) (b : UInt8) : Option Template :=
  match b.toNat / 64 with
  | 0 => index0 x (b.toNat / 8 % 8) (b.toNat % 8)
  | 1 => index1 x (b.toNat / 8 % 8) (b.toNat % 8)
  | 2 => (aluOps[b.toNat / 8 % 8]?).bind fun op => onIndex x (b.toNat % 8) (.alu op)
  | _ =>
    if b = 0xE1 then some (.whole (.pop (.index x)))
    else if b = 0xE3 then some (.whole (.exSPIndex x))
    else if b = 0xE5 then some (.whole (.push (.index x)))
    else if b = 0xE9 then some (.whole (.jpIndex x))
    else if b = 0xF9 then some (.whole (.ldSPIndex x))
    else none

end Opcode

/-! ## The decoder -/

namespace MachineInstr

/-- Decodes what follows the lead byte of an index register.  In bit
    operations the displacement comes before the opcode. -/
def decodeIndexed? (x : IndexReg) : List UInt8 → Option (MachineInstr × List UInt8)
  | 0xCB :: d :: b :: bs =>
    if b.toNat % 8 = 6 then (Opcode.bitwise b (.cell (.indexed x d.toInt8))).map (·, bs) else none
  | b :: bs => (Opcode.indexed x b).bind (·.read bs)
  | [] => none

/-- Takes one instruction off a list of bytes. -/
def decode? : List UInt8 → Option (MachineInstr × List UInt8)
  | 0xCB :: b :: bs =>
    (Opcode.bitLocs[b.toNat % 8]?).bind fun t => (Opcode.bitwise b t).map (·, bs)
  | 0xED :: b :: bs => (Opcode.extended b).bind (·.read bs)
  | 0xDD :: bs => decodeIndexed? .ix bs
  | 0xFD :: bs => decodeIndexed? .iy bs
  | b :: bs => (Opcode.main b).bind (·.read bs)
  | [] => none

end MachineInstr

/-! ## Open slots -/

/-- A word as its bytes have it: one that waits is zero. -/
def Word.closed : Word → Word
  | const n => .const n
  | symbol .. => .const 0

/-- An instruction as its bytes have it: a slot that waits is zero. -/
def MachineInstr.closed : MachineInstr → MachineInstr
  | jp t => .jp t.closed
  | jpIf cc t => .jpIf cc t.closed
  | call t => .call t.closed
  | callIf cc t => .callIf cc t.closed
  | jr _ => .jr {}
  | jrIf cc _ => .jrIf cc {}
  | djnz _ => .djnz {}
  | ldAAbs a => .ldAAbs a.closed
  | ldAbsA a => .ldAbsA a.closed
  | ldPairImm p n => .ldPairImm p n.closed
  | ldPairAbs p a => .ldPairAbs p a.closed
  | ldAbsPair a p => .ldAbsPair a.closed p
  | ldIndexImm x n => .ldIndexImm x n.closed
  | ldIndexAbs x a => .ldIndexAbs x a.closed
  | ldAbsIndex a x => .ldAbsIndex a.closed x
  | m => m

/-- A word that waits has a name to wait for. -/
def Word.IsNamed : Word → Prop
  | const _ => True
  | symbol name _ => name ≠ ""

/-- Short jumps test four conditions only, and what waits has a name. -/
def MachineInstr.IsProper : MachineInstr → Prop
  | jrIf cc _ => cc.isShort = true
  | jp t | jpIf _ t | call t | callIf _ t => t.IsNamed
  | ldAAbs a | ldAbsA a => a.IsNamed
  | ldPairImm _ a | ldPairAbs _ a | ldAbsPair a _ => a.IsNamed
  | ldIndexImm _ a | ldIndexAbs _ a | ldAbsIndex a _ => a.IsNamed
  | _ => True

/-! ## Reading back -/

namespace MachineInstr

variable {rest : List UInt8}

/-- An opcode with a word is read back if it is read back with any two bytes. -/
theorem decode?_withWord {opcode : List UInt8} {f : Word → MachineInstr}
    (h : ∀ low high, decode? (opcode ++ low :: high :: rest) =
      some (f (.const (wordOf high low)), rest)) (w : Word) :
    decode? ((Encoding.withWord opcode w).bytes ++ rest) = some (f w.closed, rest) := by
  cases w with
  | symbol s k =>
    show decode? (opcode ++ [0, 0] ++ rest) = _
    rw [List.append_assoc]
    exact h 0 0
  | const n =>
    have hlow : UInt8.ofNat (n.toNat % 256) = lowByte n := UInt8.ofNat_mod_size
    have hn := h (lowByte n) (highByte n)
    rw [wordOf_bytes] at hn
    show decode? (opcode ++ [UInt8.ofNat (n.toNat % 256), highByte n] ++ rest) = _
    rw [hlow, List.append_assoc]
    exact hn

theorem decode?_alu (op : AluOp) (src : Loc8) :
    decode? ((alu op src).bytes ++ rest) = some (alu op src, rest) := by
  cases src with
  | reg r => cases op <;> cases r <;> rfl
  | half x h => cases op <;> cases x <;> cases h <;> rfl
  | cell m =>
    cases m with
    | hl => cases op <;> rfl
    | indexed x d => cases op <;> cases x <;> rfl

theorem decode?_rotate (op : RotateOp) (t : BitLoc) :
    decode? ((rotate op t).bytes ++ rest) = some (rotate op t, rest) := by
  cases t with
  | reg r => cases op <;> cases r <;> rfl
  | cell m =>
    cases m with
    | hl => cases op <;> rfl
    | indexed x d => cases op <;> cases x <;> rfl

/-- The octal digits of a bit operation: its kind, the bit, and the target. -/
theorem toNat_bitOpcode (op : BitOp) (n : Fin 8) {c : UInt8} (hc : c.toNat < 8) :
    (op.base + 8 * UInt8.ofNat n.val + c).toNat = op.base.toNat + 8 * n.val + c.toNat := by
  have hn := n.isLt
  have hbase : op.base.toNat ≤ 0xC0 := by cases op <;> decide
  simp only [UInt8.toNat_add, UInt8.toNat_mul, UInt8.toNat_ofNat', UInt8.reduceToNat]
  omega

theorem bitwise_bit (op : BitOp) (n : Fin 8) {c : UInt8} (hc : c.toNat < 8) (t : BitLoc) :
    Opcode.bitwise (op.base + 8 * UInt8.ofNat n.val + c) t = some (.bit op n t) := by
  have hn := n.isLt
  have hdigit : Fin.ofNat 8 ((op.base.toNat + 8 * n.val + c.toNat) / 8) = n := by
    apply Fin.ext
    cases op <;> simp only [BitOp.base, UInt8.reduceToNat, Fin.val_ofNat] <;> omega
  have hkind : (op.base.toNat + 8 * n.val + c.toNat) / 64 = op.base.toNat / 64 := by
    cases op <;> simp only [BitOp.base, UInt8.reduceToNat] <;> omega
  unfold Opcode.bitwise
  rw [toNat_bitOpcode op n hc, hdigit, hkind]
  cases op <;> rfl

theorem decode?_bit (op : BitOp) (n : Fin 8) (t : BitLoc) :
    decode? ((bit op n t).bytes ++ rest) = some (bit op n t, rest) := by
  have hmod : ∀ c : UInt8, c.toNat < 8 →
      (op.base + 8 * UInt8.ofNat n.val + c).toNat % 8 = c.toNat := by
    intro c hc
    rw [toNat_bitOpcode op n hc]
    cases op <;> simp only [BitOp.base, UInt8.reduceToNat] <;> omega
  have hsix : (6 : UInt8).toNat < 8 := by decide
  cases t with
  | reg r =>
    have hc : r.code.toNat < 8 := by cases r <;> decide
    have hreg : Opcode.bitLocs[r.code.toNat]? = some (.reg r) := by cases r <;> rfl
    show (Opcode.bitLocs[(op.base + 8 * UInt8.ofNat n.val + r.code).toNat % 8]?).bind _ = _
    rw [hmod _ hc, hreg, Option.bind_some, bitwise_bit op n hc]
    rfl
  | cell m =>
    cases m with
    | hl =>
      show (Opcode.bitLocs[(op.base + 8 * UInt8.ofNat n.val + 6).toNat % 8]?).bind _ = _
      rw [hmod _ hsix]
      show (Opcode.bitwise _ (.cell .hl)).map _ = _
      rw [bitwise_bit op n hsix]
      rfl
    | indexed x d =>
      have hindexed : decode? ((bit op n (.cell (.indexed x d))).bytes ++ rest) =
          if (op.base + 8 * UInt8.ofNat n.val + 6).toNat % 8 = 6 then
            (Opcode.bitwise (op.base + 8 * UInt8.ofNat n.val + 6) (.cell (.indexed x d))).map
              (·, rest)
          else none := by
        cases x <;> rfl
      have hcell : (op.base + 8 * UInt8.ofNat n.val + 6).toNat % 8 = 6 := hmod 6 hsix
      rw [hindexed, bitwise_bit op n hsix, if_pos hcell]
      rfl

/-- What the encoder wrote is read back, whatever follows it. -/
theorem decode?_bytes {m : MachineInstr} (hproper : m.IsProper) (rest : List UInt8) :
    decode? (m.bytes ++ rest) = some (m.closed, rest) := by
  cases m with
  | plain p => cases p <;> rfl
  | alu op src => exact decode?_alu op src
  | aluImm op n => cases op <;> rfl
  | addHL p | adcHL p | sbcHL p => cases p <;> rfl
  | addIndex x p => cases x <;> cases p <;> rfl
  | rotate op t => exact decode?_rotate op t
  | bit op n t => exact decode?_bit op n t
  | ret | jpHL | exDE | exAF | exSP | ldSPHL => rfl
  | ldAFromBC | ldAFromDE | ldBCFromA | ldDEFromA => rfl
  | retIf cc => cases cc <;> rfl
  | jp t => exact decode?_withWord (f := .jp) (fun _ _ => rfl) t
  | jpIf cc t => cases cc <;> exact decode?_withWord (f := .jpIf _) (fun _ _ => rfl) t
  | jpIndex x | incIndex x | decIndex x | exSPIndex x | ldSPIndex x => cases x <;> rfl
  | call t => exact decode?_withWord (f := .call) (fun _ _ => rfl) t
  | callIf cc t => cases cc <;> exact decode?_withWord (f := .callIf _) (fun _ _ => rfl) t
  | jr t | djnz t => rfl
  | jrIf cc t => cases cc <;> first | rfl | exact absurd hproper nofun
  | inc8 loc | dec8 loc =>
    cases loc with
    | reg r => cases r <;> rfl
    | half x h => cases x <;> cases h <;> rfl
    | cell m =>
      cases m with
      | hl => rfl
      | indexed x d => cases x <;> rfl
  | inc16 p | dec16 p => cases p <;> rfl
  | push r | pop r =>
    cases r with
    | index x => cases x <;> rfl
    | bc | de | hl | af => rfl
  | ld dst src => cases dst <;> cases src <;> rfl
  | ldHalves x dst src => cases x <;> cases dst <;> cases src <;> rfl
  | ldImm dst n => cases dst <;> rfl
  | ldHalfImm x h n => cases x <;> cases h <;> rfl
  | load dst src =>
    cases src with
    | hl => cases dst <;> rfl
    | indexed x d => cases x <;> cases dst <;> rfl
  | store dst src =>
    cases dst with
    | hl => cases src <;> rfl
    | indexed x d => cases x <;> cases src <;> rfl
  | storeImm dst n =>
    cases dst with
    | hl => rfl
    | indexed x d => cases x <;> rfl
  | ldAControl c | ldControlA c => cases c <;> rfl
  | inC r | outC r => cases r <;> rfl
  | inPort n | outPort n => rfl
  | rst n => match n with | 0 | 1 | 2 | 3 | 4 | 5 | 6 | 7 => rfl
  | im mode => match mode with | 0 | 1 | 2 => rfl
  | ldAAbs a => exact decode?_withWord (f := .ldAAbs) (fun _ _ => rfl) a
  | ldAbsA a => exact decode?_withWord (f := .ldAbsA) (fun _ _ => rfl) a
  | ldPairImm p n => cases p <;> exact decode?_withWord (f := .ldPairImm _) (fun _ _ => rfl) n
  | ldPairAbs p a => cases p <;> exact decode?_withWord (f := .ldPairAbs _) (fun _ _ => rfl) a
  | ldAbsPair a p => cases p <;> exact decode?_withWord (f := (.ldAbsPair · _)) (fun _ _ => rfl) a
  | ldIndexImm x n => cases x <;> exact decode?_withWord (f := .ldIndexImm _) (fun _ _ => rfl) n
  | ldIndexAbs x a => cases x <;> exact decode?_withWord (f := .ldIndexAbs _) (fun _ _ => rfl) a
  | ldAbsIndex a x => cases x <;> exact decode?_withWord (f := (.ldAbsIndex · _)) (fun _ _ => rfl) a

end MachineInstr

end Z80Backend
