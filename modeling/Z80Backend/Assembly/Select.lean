import Z80Backend.Assembly.Arg
import Z80Backend.Assembly.Mnemonic
import Z80Backend.Encoding

/-! # From written to machine instructions

    `assemble` finds the machine instruction that a written instruction
    means.  Each group of mnemonics looks at the parts of its operands and
    either selects an instruction, reports why an operand is out of range, or
    declines; when it declines, the number of operands decides the message. -/

namespace Z80Backend

/-- The outcome of a group: an instruction, or `none` when the operands are
    of kinds that it does not take. -/
abbrev Selection := Except EncodeError (Option MachineInstr)

namespace Selection

/-- The group takes the operands. -/
def found (m : MachineInstr) : Selection := .ok (some m)

/-- The group does not take the operands. -/
def declined : Selection := .ok none

/-- Selects an instruction with an 8-bit immediate. -/
def withImm8 (head : String) (v : Value) (e : Expr) (f : UInt8 → MachineInstr) : Selection :=
  if !v.isConst then .error (.imm8NotConst head e)
  else if v.addend < -128 ∨ 255 < v.addend then .error (.imm8Range head v.addend)
  else found (f (UInt8.ofInt v.addend.toInt))

/-- Selects an instruction with a 16-bit immediate or address. -/
def withWord (head : String) (v : Value) (f : Word → MachineInstr) : Selection :=
  if !v.isConst then found (f (.symbol v.symbol v.addend))
  else if v.addend < -32768 ∨ 65535 < v.addend then .error (.imm16Range head v.addend)
  else found (f (.const (UInt16.ofInt v.addend.toInt)))

/-! ## Arithmetic -/

/-- An 8-bit accumulator operation. -/
def alu8 (head : String) (op : AluOp) : Arg → Selection
  | .reg8 r   => found (.alu op (.reg r))
  | .half x h => found (.alu op (.half x h))
  | .cell m   => found (.alu op (.cell m))
  | .imm v e  => withImm8 head v e (.aluImm op)
  | _ => declined

/-- A 16-bit addition or subtraction into `hl`. -/
def aluHL (op : AluOp) : Arg → Selection
  | .pair p =>
    match op with
    | .add => found (.addHL p)
    | .adc => found (.adcHL p)
    | .sbc => found (.sbcHL p)
    | _ => declined
  | _ => declined

/-- A 16-bit addition into an index register. -/
def aluIndex (op : AluOp) (x : IndexReg) : Arg → Selection
  | .pair p  => if op = .add ∧ p ≠ .hl then found (.addIndex x p) else declined
  | .index y => if op = .add ∧ y = x then found (.addIndex x .hl) else declined
  | _ => declined

/-- `add`, `adc`, `sub`, `sbc`, `and`, `xor`, `or` and `cp`. -/
def alu (head : String) (op : AluOp) : List Arg → Selection
  | [src] => alu8 head op src
  | [.reg8 .a, src] => alu8 head op src
  | [.pair .hl, src] => aluHL op src
  | [.index x, src] => aluIndex op x src
  | _ => declined

/-- `inc`. -/
def inc : List Arg → Selection
  | [.reg8 r]   => found (.inc8 (.reg r))
  | [.half x h] => found (.inc8 (.half x h))
  | [.cell m]   => found (.inc8 (.cell m))
  | [.pair p]   => found (.inc16 p)
  | [.index x]  => found (.incIndex x)
  | _ => declined

/-- `dec`. -/
def dec : List Arg → Selection
  | [.reg8 r]   => found (.dec8 (.reg r))
  | [.half x h] => found (.dec8 (.half x h))
  | [.cell m]   => found (.dec8 (.cell m))
  | [.pair p]   => found (.dec16 p)
  | [.index x]  => found (.decIndex x)
  | _ => declined

/-! ## Bits -/

/-- The target of a rotation or bit operation. -/
def bitLoc? : Arg → Option BitLoc
  | .reg8 r => some (.reg r)
  | .cell m => some (.cell m)
  | _ => none

/-- Rotations and shifts. -/
def rotate (op : RotateOp) : List Arg → Selection
  | [t] => .ok ((bitLoc? t).map (.rotate op))
  | _ => declined

/-- `bit`, `res` and `set`.  The bit index is checked before the target. -/
def bit (head : String) (op : BitOp) : List Arg → Selection
  | [.imm v e, t] =>
    if !v.isConst then .error (.bitNotConst head e)
    else if v.addend < 0 ∨ 7 < v.addend then .error (.bitRange head v.addend)
    else .ok ((bitLoc? t).map (.bit op (Fin.ofNat 8 v.addend.toInt.toNat)))
  | _ => declined

/-! ## Control -/

/-- `ret`. -/
def ret : List Arg → Selection
  | [] => found .ret
  | [a] => .ok (a.condition?.map .retIf)
  | _ => declined

/-- `jp`. -/
def jp (head : String) : List Arg → Selection
  | [.imm v _] => withWord head v .jp
  | [.cell .hl] => found .jpHL
  | [.cell (.indexed x d)] => if d = 0 then found (.jpIndex x) else declined
  | [a, .imm v _] =>
    match a.condition? with
    | some cc => withWord head v (.jpIf cc)
    | none    => declined
  | _ => declined

/-- `call`. -/
def call (head : String) : List Arg → Selection
  | [.imm v _] => withWord head v .call
  | [a, .imm v _] =>
    match a.condition? with
    | some cc => withWord head v (.callIf cc)
    | none    => declined
  | _ => declined

/-- `jr`. -/
def jr : List Arg → Selection
  | [.imm v _] => found (.jr v)
  | [a, .imm v _] =>
    match a.condition? with
    | some cc => if cc.isShort then found (.jrIf cc v) else .error (.longCondition cc)
    | none    => declined
  | _ => declined

/-- `djnz`. -/
def djnz : List Arg → Selection
  | [.imm v _] => found (.djnz v)
  | _ => declined

/-- `rst`. -/
def rst : List Arg → Selection
  | [.imm v e] =>
    if !v.isConst then .error (.vectorNotConst e)
    else if v.addend < 0 ∨ 0x38 < v.addend ∨ v.addend % 8 ≠ 0 then .error (.vectorRange v.addend)
    else found (.rst (Fin.ofNat 8 (v.addend.toInt.toNat / 8)))
  | _ => declined

/-- `im`. -/
def im : List Arg → Selection
  | [.imm v e] =>
    if !v.isConst then .error (.mode e)
    else if v.addend = 0 then found (.im 0)
    else if v.addend = 1 then found (.im 1)
    else if v.addend = 2 then found (.im 2)
    else .error (.mode e)
  | _ => declined

/-! ## Stack and exchange -/

/-- The register that `push` or `pop` moves. -/
def stackReg? : Arg → Option StackReg
  | .pair .bc => some .bc
  | .pair .de => some .de
  | .pair .hl => some .hl
  | .af => some .af
  | .index x => some (.index x)
  | _ => none

/-- `push`. -/
def push : List Arg → Selection
  | [a] => .ok ((stackReg? a).map .push)
  | _ => declined

/-- `pop`. -/
def pop : List Arg → Selection
  | [a] => .ok ((stackReg? a).map .pop)
  | _ => declined

/-- `ex`. -/
def ex : List Arg → Selection
  | [.pair .de, .pair .hl] => found .exDE
  | [.af, .afShadow] => found .exAF
  | [.memSP, .pair .hl] => found .exSP
  | [.memSP, .index x] => found (.exSPIndex x)
  | _ => declined

/-! ## Ports -/

/-- The value of an immediate port; a constant in parentheses counts. -/
def portValue? : Arg → Option (Value × Expr)
  | .port v e => some (v, e)
  | .memAbs v e => if v.isConst then some (v, e) else none
  | _ => none

/-- `in`. -/
def input (head : String) : List Arg → Selection
  | [.reg8 r, .portC] => found (.inC r)
  | [.reg8 .a, p] =>
    match portValue? p with
    | some (v, e) => withImm8 head v e .inPort
    | none => declined
  | _ => declined

/-- `out`. -/
def output (head : String) : List Arg → Selection
  | [.portC, .reg8 r] => found (.outC r)
  | [p, .reg8 .a] =>
    match portValue? p with
    | some (v, e) => withImm8 head v e .outPort
    | none => declined
  | _ => declined

/-! ## Loads -/

/-- The register whose opcode number a half of an index register takes. -/
def halfAlias : Half → Reg8
  | .high => .h
  | .low  => .l

/-- A load into an 8-bit register. -/
def ldReg (head : String) (dst : Reg8) : Arg → Selection
  | .reg8 src => found (.ld dst src)
  | .half x h => if dst = .h ∨ dst = .l then declined else found (.ldHalves x dst (halfAlias h))
  | .imm v e  => withImm8 head v e (.ldImm dst)
  | .cell m   => found (.load dst m)
  | .memBC    => if dst = .a then found .ldAFromBC else declined
  | .memDE    => if dst = .a then found .ldAFromDE else declined
  | .memAbs v _ => if dst = .a then withWord head v .ldAAbs else declined
  | .control s  => if dst = .a then found (.ldAControl s) else declined
  | _ => declined

/-- A load into a half of an index register.  The halves do not mix with `h`
    and `l`, nor those of one index register with those of the other. -/
def ldHalf (head : String) (x : IndexReg) (dst : Half) : Arg → Selection
  | .reg8 src => if src = .h ∨ src = .l then declined else found (.ldHalves x (halfAlias dst) src)
  | .half y h => if y = x then found (.ldHalves x (halfAlias dst) (halfAlias h)) else declined
  | .imm v e  => withImm8 head v e (.ldHalfImm x dst)
  | _ => declined

/-- A load into a memory byte. -/
def ldCell (head : String) (dst : Cell) : Arg → Selection
  | .reg8 src => found (.store dst src)
  | .imm v e  => withImm8 head v e (.storeImm dst)
  | _ => declined

/-- A load into memory at an address. -/
def ldAbs (head : String) (v : Value) : Arg → Selection
  | .reg8 .a => withWord head v .ldAbsA
  | .pair p  => withWord head v (.ldAbsPair · p)
  | .index x => withWord head v (.ldAbsIndex · x)
  | _ => declined

/-- A load into a pair. -/
def ldPair (head : String) (dst : Pair) : Arg → Selection
  | .imm v _    => withWord head v (.ldPairImm dst)
  | .memAbs v _ => withWord head v (.ldPairAbs dst)
  | .pair .hl   => if dst = .sp then found .ldSPHL else declined
  | .index x    => if dst = .sp then found (.ldSPIndex x) else declined
  | _ => declined

/-- A load into an index register. -/
def ldIndex (head : String) (dst : IndexReg) : Arg → Selection
  | .imm v _    => withWord head v (.ldIndexImm dst)
  | .memAbs v _ => withWord head v (.ldIndexAbs dst)
  | _ => declined

/-- `ld`. -/
def ld (head : String) : List Arg → Selection
  | [.reg8 dst, src] => ldReg head dst src
  | [.half x dst, src] => ldHalf head x dst src
  | [.cell m, src] => ldCell head m src
  | [.memBC, .reg8 .a] => found .ldBCFromA
  | [.memDE, .reg8 .a] => found .ldDEFromA
  | [.memAbs v _, src] => ldAbs head v src
  | [.control s, .reg8 .a] => found (.ldControlA s)
  | [.pair dst, src] => ldPair head dst src
  | [.index dst, src] => ldIndex head dst src
  | _ => declined

/-! ## Dispatch -/

/-- The choice of a mnemonic for the parts of its operands. -/
def ofMnemonic (head : String) (args : List Arg) : Mnemonic → Selection
  | .alu op => alu head op args
  | .rotate op => rotate op args
  | .bit op => bit head op args
  | .ret => ret args
  | .jp => jp head args
  | .call => call head args
  | .jr => jr args
  | .djnz => djnz args
  | .inc => inc args
  | .dec => dec args
  | .push => push args
  | .pop => pop args
  | .ex => ex args
  | .ld => ld head args
  | .input => input head args
  | .output => output head args
  | .rst => rst args
  | .im => im args
  | .plain p => if args.isEmpty then found (.plain p) else declined

end Selection

/-- The machine instruction that a written instruction means. -/
def assemble (r : Resolver) (i : Instruction) : Except EncodeError MachineInstr :=
  let head := Text.lower i.head
  match Mnemonic.ofName? head with
  | none => .error (.unsupported head)
  | some m =>
    match Arg.ofOperands r head i.operands with
    | .error e => .error e
    | .ok args =>
      match Selection.ofMnemonic head args m with
      | .error e => .error e
      | .ok (some code) => .ok code
      | .ok none =>
        if m.arity.contains args.length then .error (.operands head i)
        else .error (.operandCount head m.arity args.length)

/-- Is `head` a mnemonic, spelled in lower case? -/
def isMnemonic (head : String) : Bool := (Mnemonic.ofName? head).isSome

end Z80Backend
