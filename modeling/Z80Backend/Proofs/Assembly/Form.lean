import Z80Backend.Proofs.Address.Machine
import Z80Backend.Proofs.Assembly.Selection

/-! # Forms of instructions

    The same instruction can be written in several ways: in letters of either
    case, with or without the accumulator that an operation works on anyway,
    with an immediate of either sign, with a port in one of two spellings.
    The normal form keeps one of them.  It is read off the written operands
    alone and does not ask what they assemble to.

    * `Instruction.normal` is the normal form of a written instruction.
    * `MachineInstr.form` is the form that a machine instruction reads as.
    * `Arg.form_ofOperands`: sorting operands by the parts they play keeps
      their forms. -/

namespace Z80Backend

/-! ## Forms -/

/-- An operand of a form.  Names are in lower case. -/
inductive FormOperand where
  /-- A register or a condition. -/
  | reg (name : String)
  | imm (v : Value)
  /-- Memory at a register. -/
  | mem (name : String)
  /-- Memory at an index register plus a displacement. -/
  | indexed (name : String) (d : Int8)
  /-- Memory at an address. -/
  | abs (v : Value)
  /-- The port whose number is in `c`. -/
  | portC
  | port (v : Value)
  /-- An operand that is none of these. -/
  | other
  deriving DecidableEq, Repr, Inhabited

/-- An instruction up to spelling. -/
structure Form where
  head : String
  operands : List FormOperand
  deriving DecidableEq, Repr, Inhabited

/-- The value with a constant taken modulo `m`.  A symbol stays as it is. -/
def Value.modulo (m : Int) (v : Value) : Value :=
  if v.isConst then { addend := Int64.ofInt (v.addend.toInt % m) } else v

/-- A byte as a value. -/
def Value.ofByte (n : UInt8) : Value := { addend := Int64.ofNat n.toNat }

/-- A word as a value. -/
def Value.ofWord : Word → Value
  | .const n => { addend := Int64.ofNat n.toNat }
  | .symbol name k => { symbol := name, addend := k }

/-! ## Written instructions -/

/-- The value of an operand expression. -/
def Expr.written (r : Resolver) (e : Expr) : Value := (e.evalSymbolic r).toOption.getD {}

/-- Memory at a place, as a form. -/
def Place.form (r : Resolver) : Place → FormOperand
  | .name s =>
    let low := Text.lower s
    if low = "c" then .portC
    else if low ∈ ["hl", "bc", "de", "sp"] then .mem low
    else if low ∈ ["ix", "iy"] then .indexed low 0
    else .abs ((Expr.name s).written r)
  | .literal e => .abs (e.written r)
  | .add (.name base) off =>
    if Text.lower base ∈ ["ix", "iy"] then
      .indexed (Text.lower base) (Int8.ofInt (off.written r).addend.toInt)
    else .abs ((Expr.binary .add (.name base) off).written r)
  | .sub (.name base) off =>
    if Text.lower base ∈ ["ix", "iy"] then
      .indexed (Text.lower base) (Int8.ofInt (-(off.written r).addend).toInt)
    else .abs ((Expr.binary .sub (.name base) off).written r)
  | _ => .other

/-- A written operand, as a form. -/
def Operand.form (r : Resolver) : Operand → FormOperand
  | .reg name _ => .reg (Text.lower name)
  | .imm e _ => .imm (e.written r)
  | .mem p _ => p.form r
  | .portC _ => .portC
  | .port e _ => .port (e.written r)
  | .place .. | .missing => .other

namespace Form

/-- The operations that work on the accumulator whether or not it is
    written. -/
def accumulatorHeads : List String := ["add", "adc", "sub", "sbc", "and", "xor", "or", "cp"]

/-- The operands without a redundant accumulator. -/
def withoutAccumulator (head : String) (os : List FormOperand) : List FormOperand :=
  if os.length = 2 ∧ head ∈ accumulatorHeads ∧ os.head? = some (.reg "a") then os.tail else os

/-- Are the immediates of the instruction words? -/
def isWide (f : Form) : Bool :=
  f.head ∈ ["jp", "call"] || f.head == "ld" &&
    f.operands.any fun o => o ∈ ["bc", "de", "hl", "sp", "ix", "iy"].map FormOperand.reg

/-- An operand with its value taken modulo the width of its slot.  The target
    of a short jump is kept, since the distance is not known yet, and an
    address that a port instruction names is a port. -/
def reduceOperand (f : Form) : FormOperand → FormOperand
  | .imm v =>
    if f.head ∈ ["jr", "djnz"] then .imm v
    else .imm (v.modulo (if f.isWide then 65536 else 256))
  | .abs v => if f.head ∈ ["in", "out"] then .port (v.modulo 256) else .abs (v.modulo 65536)
  | .port v => .port (v.modulo 256)
  | o => o

/-- The normal form of a form. -/
def normal (f : Form) : Form :=
  { head := f.head, operands := (withoutAccumulator f.head f.operands).map f.reduceOperand }

/-- Operations on the accumulator take bytes. -/
theorem isWide_of_accumulator {head : String} (h : head ∈ accumulatorHeads)
    (os : List FormOperand) : isWide ⟨head, os⟩ = false := by
  have hbyte : ∀ head ∈ accumulatorHeads, head ∉ ["jp", "call"] ∧ head ≠ "ld" := by decide
  obtain ⟨hjump, hld⟩ := hbyte head h
  simp only [isWide, decide_eq_false hjump, beq_eq_false_iff_ne.2 hld, Bool.false_and,
    Bool.or_self]

/-- A redundant accumulator makes no difference. -/
theorem normal_accumulator {head : String} (h : head ∈ accumulatorHeads) (o : FormOperand) :
    normal ⟨head, [.reg "a", o]⟩ = normal ⟨head, [o]⟩ := by
  have hdrop : withoutAccumulator head [.reg "a", o] = [o] := by simp [withoutAccumulator, h]
  have hkeep : withoutAccumulator head [o] = [o] := by simp [withoutAccumulator]
  have hreduce : reduceOperand ⟨head, [.reg "a", o]⟩ = reduceOperand ⟨head, [o]⟩ := by
    funext o'
    unfold reduceOperand
    rw [isWide_of_accumulator h, isWide_of_accumulator h]
  simp only [normal, hdrop, hkeep, hreduce]

end Form

/-- A written instruction, as a form. -/
def Instruction.form (r : Resolver) (i : Instruction) : Form :=
  { head := Text.lower i.head, operands := i.operands.map (·.form r) }

/-- The normal form of a written instruction. -/
def Instruction.normal (r : Resolver) (i : Instruction) : Form := (i.form r).normal

/-- Only the names of registers and conditions read as such. -/
theorem Operand.form_eq_reg {r : Resolver} {o : Operand} {w : String} (h : o.form r = .reg w) :
    ∃ name span, o = .reg name span ∧ Text.lower name = w := by
  cases o with
  | reg name span => exact ⟨name, span, rfl, FormOperand.reg.inj h⟩
  | mem p span =>
    rw [form] at h
    unfold Place.form at h
    dsimp only at h
    repeat' split at h
    all_goals cases h
  | imm | portC | port | place | missing => cases h

theorem Form.reduceOperand_eq_reg {f : Form} {o : FormOperand} {w : String}
    (h : f.reduceOperand o = .reg w) : o = .reg w := by
  unfold reduceOperand at h
  split at h
  · split at h <;> cases h
  · split at h <;> cases h
  · cases h
  · exact h

/-! ## Machine instructions -/

/-- The name of a half of an index register. -/
def Half.text (x : IndexReg) : Half → String
  | high => x.text ++ "h"
  | low => x.text ++ "l"

/-- The name of a register in a load where `h` and `l` stand for halves. -/
def Reg8.textIn (x : IndexReg) : Reg8 → String
  | h => Half.text x .high
  | l => Half.text x .low
  | r => r.text

/-- The name of a control register. -/
def ControlReg.text : ControlReg → String
  | i => "i"
  | r => "r"

/-- A memory byte, as a form. -/
def Cell.form : Cell → FormOperand
  | hl => .mem "hl"
  | indexed x d => .indexed x.text d

def Loc8.form : Loc8 → FormOperand
  | reg r => .reg r.text
  | half x h => .reg (h.text x)
  | cell m => m.form

def BitLoc.form : BitLoc → FormOperand
  | reg r => .reg r.text
  | cell m => m.form

/-- The pair that is added to an index register; `hl` stands for itself. -/
def Pair.textIn (x : IndexReg) : Pair → String
  | hl => x.text
  | p => p.text

/-- The form that a machine instruction reads as. -/
def MachineInstr.form : MachineInstr → Form
  | plain p => ⟨p.text, []⟩
  | alu op src => ⟨(Mnemonic.alu op).text, [src.form]⟩
  | aluImm op n => ⟨(Mnemonic.alu op).text, [.imm (.ofByte n)]⟩
  | addHL p => ⟨"add", [.reg "hl", .reg p.text]⟩
  | adcHL p => ⟨"adc", [.reg "hl", .reg p.text]⟩
  | sbcHL p => ⟨"sbc", [.reg "hl", .reg p.text]⟩
  | addIndex x p => ⟨"add", [.reg x.text, .reg (p.textIn x)]⟩
  | rotate op t => ⟨(Mnemonic.rotate op).text, [t.form]⟩
  | bit op n t => ⟨(Mnemonic.bit op).text, [.imm { addend := Int64.ofNat n.val }, t.form]⟩
  | ret => ⟨"ret", []⟩
  | retIf cc => ⟨"ret", [.reg cc.text]⟩
  | jp t => ⟨"jp", [.imm (.ofWord t)]⟩
  | jpIf cc t => ⟨"jp", [.reg cc.text, .imm (.ofWord t)]⟩
  | jpHL => ⟨"jp", [.mem "hl"]⟩
  | jpIndex x => ⟨"jp", [.indexed x.text 0]⟩
  | call t => ⟨"call", [.imm (.ofWord t)]⟩
  | callIf cc t => ⟨"call", [.reg cc.text, .imm (.ofWord t)]⟩
  | jr t => ⟨"jr", [.imm t]⟩
  | jrIf cc t => ⟨"jr", [.reg cc.text, .imm t]⟩
  | djnz t => ⟨"djnz", [.imm t]⟩
  | inc8 loc => ⟨"inc", [loc.form]⟩
  | dec8 loc => ⟨"dec", [loc.form]⟩
  | inc16 p => ⟨"inc", [.reg p.text]⟩
  | dec16 p => ⟨"dec", [.reg p.text]⟩
  | incIndex x => ⟨"inc", [.reg x.text]⟩
  | decIndex x => ⟨"dec", [.reg x.text]⟩
  | push r => ⟨"push", [.reg r.text]⟩
  | pop r => ⟨"pop", [.reg r.text]⟩
  | exDE => ⟨"ex", [.reg "de", .reg "hl"]⟩
  | exAF => ⟨"ex", [.reg "af", .reg "af'"]⟩
  | exSP => ⟨"ex", [.mem "sp", .reg "hl"]⟩
  | exSPIndex x => ⟨"ex", [.mem "sp", .reg x.text]⟩
  | ld dst src => ⟨"ld", [.reg dst.text, .reg src.text]⟩
  | ldHalves x dst src => ⟨"ld", [.reg (dst.textIn x), .reg (src.textIn x)]⟩
  | ldImm dst n => ⟨"ld", [.reg dst.text, .imm (.ofByte n)]⟩
  | ldHalfImm x h n => ⟨"ld", [.reg (h.text x), .imm (.ofByte n)]⟩
  | load dst src => ⟨"ld", [.reg dst.text, src.form]⟩
  | store dst src => ⟨"ld", [dst.form, .reg src.text]⟩
  | storeImm dst n => ⟨"ld", [dst.form, .imm (.ofByte n)]⟩
  | ldAFromBC => ⟨"ld", [.reg "a", .mem "bc"]⟩
  | ldAFromDE => ⟨"ld", [.reg "a", .mem "de"]⟩
  | ldBCFromA => ⟨"ld", [.mem "bc", .reg "a"]⟩
  | ldDEFromA => ⟨"ld", [.mem "de", .reg "a"]⟩
  | ldAAbs a => ⟨"ld", [.reg "a", .abs (.ofWord a)]⟩
  | ldAbsA a => ⟨"ld", [.abs (.ofWord a), .reg "a"]⟩
  | ldAControl s => ⟨"ld", [.reg "a", .reg s.text]⟩
  | ldControlA s => ⟨"ld", [.reg s.text, .reg "a"]⟩
  | ldPairImm p n => ⟨"ld", [.reg p.text, .imm (.ofWord n)]⟩
  | ldPairAbs p a => ⟨"ld", [.reg p.text, .abs (.ofWord a)]⟩
  | ldAbsPair a p => ⟨"ld", [.abs (.ofWord a), .reg p.text]⟩
  | ldIndexImm x n => ⟨"ld", [.reg x.text, .imm (.ofWord n)]⟩
  | ldIndexAbs x a => ⟨"ld", [.reg x.text, .abs (.ofWord a)]⟩
  | ldAbsIndex a x => ⟨"ld", [.abs (.ofWord a), .reg x.text]⟩
  | ldSPHL => ⟨"ld", [.reg "sp", .reg "hl"]⟩
  | ldSPIndex x => ⟨"ld", [.reg "sp", .reg x.text]⟩
  | inC dst => ⟨"in", [.reg dst.text, .portC]⟩
  | inPort n => ⟨"in", [.reg "a", .port (.ofByte n)]⟩
  | outC src => ⟨"out", [.portC, .reg src.text]⟩
  | outPort n => ⟨"out", [.port (.ofByte n), .reg "a"]⟩
  | rst n => ⟨"rst", [.imm { addend := Int64.ofNat (8 * n.val) }]⟩
  | im mode => ⟨"im", [.imm { addend := Int64.ofNat mode.val }]⟩

/-! ## Parts of operands -/

/-- The part of an operand, as a form. -/
def Arg.form : Arg → FormOperand
  | reg8 r => .reg r.text
  | half x h => .reg (h.text x)
  | pair p => .reg p.text
  | af => .reg "af"
  | afShadow => .reg "af'"
  | index x => .reg x.text
  | control s => .reg s.text
  | cond cc => .reg cc.text
  | imm v _ => .imm v
  | cell m => m.form
  | memBC => .mem "bc"
  | memDE => .mem "de"
  | memSP => .mem "sp"
  | memAbs v _ => .abs v
  | portC => .portC
  | port v _ => .port v
  | other => .other

namespace Arg

variable {r : Resolver} {head : String}

/-- A name that stands for a part is the name of that part. -/
theorem form_ofRegName (name : String) :
    ofRegName name = .other ∨ (ofRegName name).form = .reg name := by
  unfold ofRegName
  split
  · rename_i x hx
    have hname := List.find?_some hx
    exact .inr (congrArg FormOperand.reg (beq_iff_eq.1 hname))
  split
  · rename_i x h hx
    unfold Half.ofName? at hx
    split at hx <;> cases hx <;> exact .inr rfl
  split
  · rename_i p hp
    have hname := List.find?_some hp
    exact .inr (congrArg FormOperand.reg (beq_iff_eq.1 hname))
  split
  · rename_i x hx
    have hname := List.find?_some hx
    exact .inr (congrArg FormOperand.reg (beq_iff_eq.1 hname))
  split
  · exact .inr rfl
  · exact .inr rfl
  · exact .inr rfl
  · exact .inr rfl
  split
  · rename_i cc hcc
    have hname := List.find?_some hcc
    exact .inr (congrArg FormOperand.reg (beq_iff_eq.1 hname))
  · exact .inl rfl

theorem written_of_evalSymbolic {e : Expr} {v : Value} (h : e.evalSymbolic r = .ok v) :
    e.written r = v := by
  rw [Expr.written, h]
  rfl

/-- A constant is a value without a symbol. -/
theorem written_of_eval {e : Expr} {n : Int64} (h : e.eval r = .ok n) :
    e.written r = { addend := n } := by
  apply written_of_evalSymbolic
  unfold Expr.evalSymbolic
  rw [h]

theorem form_ofAddress {e : Expr} {a : Arg} (h : ofAddress r head e = .ok a) :
    a.form = .abs (e.written r) := by
  unfold ofAddress at h
  split at h
  · rename_i v hv
    cases h
    rw [written_of_evalSymbolic hv]
    rfl
  · cases h

theorem text_of_indexReg {name : String} {x : IndexReg} (h : IndexReg.ofName? name = some x) :
    x.text = name ∧ name ∈ ["ix", "iy"] := by
  have hfound := List.find?_some h
  have hname : x.text = name := beq_iff_eq.1 hfound
  refine ⟨hname, ?_⟩
  rw [← hname]
  cases x <;> decide

theorem not_mem_of_indexReg {name : String} (h : IndexReg.ofName? name = none) :
    name ∉ ["ix", "iy"] := by
  intro hmem
  simp only [List.mem_cons, List.not_mem_nil, or_false] at hmem
  rcases hmem with rfl | rfl <;> simp [IndexReg.ofName?, IndexReg.text] at h

theorem form_ofDisplacement {x : IndexReg} {d : Int64} {a : Arg}
    (h : ofDisplacement head x d = .ok a) : a.form = .indexed x.text (Int8.ofInt d.toInt) := by
  unfold ofDisplacement at h
  split at h
  · cases h
  · cases h
    rfl

/-- Memory at a displacement or at an address, whichever the base asks for. -/
theorem form_ofOffset {op : BinaryOp} {base : String} {off : Expr} {a : Arg}
    (h : ofOffset r head op base off = .ok a) :
    a = .other ∨ a.form =
      if Text.lower base ∈ ["ix", "iy"] then
        .indexed (Text.lower base) (Int8.ofInt
          (if op = .sub then -(off.written r).addend else (off.written r).addend).toInt)
      else .abs ((Expr.binary op (.name base) off).written r) := by
  unfold ofOffset at h
  split at h
  · rename_i x hx
    obtain ⟨hname, hmem⟩ := text_of_indexReg hx
    split at h
    · cases h
    rename_i d hd
    right
    rw [if_pos hmem, written_of_eval hd, ← hname]
    exact form_ofDisplacement h
  · rename_i hx
    split at h
    · cases h
      exact .inl rfl
    · right
      rw [if_neg (not_mem_of_indexReg hx)]
      exact form_ofAddress h

theorem form_ofPlace {p : Place} {a : Arg} (h : ofPlace r head p = .ok a) :
    a = .other ∨ a.form = p.form r := by
  unfold ofPlace at h
  split at h
  · rename_i s
    right
    unfold Place.form
    dsimp only
    split at h
    · rename_i hs
      cases h
      simp [hs, form, Cell.form]
    · rename_i hs
      cases h
      simp [hs, form]
    · rename_i hs
      cases h
      simp [hs, form]
    · rename_i hs
      cases h
      simp [hs, form]
    · rename_i hs
      cases h
      simp [hs, form]
    · rename_i hhl hbc hde hsp hc
      have hpair : Text.lower s ∉ ["hl", "bc", "de", "sp"] := by
        simp only [List.mem_cons, List.not_mem_nil, or_false, not_or]
        exact ⟨hhl, hbc, hde, hsp⟩
      rw [if_neg hc, if_neg hpair]
      split at h
      · rename_i x hx
        obtain ⟨hname, hmem⟩ := text_of_indexReg hx
        cases h
        rw [if_pos hmem, ← hname]
        rfl
      · rename_i hx
        rw [if_neg (not_mem_of_indexReg hx)]
        exact form_ofAddress h
  · exact .inr (form_ofAddress h)
  · exact form_ofOffset h
  · exact form_ofOffset h
  · cases h
    exact .inl rfl

/-- The part that an operand plays has the operand's form, if it can play any
    part. -/
theorem form_ofOperand {o : Operand} {a : Arg} (h : ofOperand r head o = .ok a) :
    a = .other ∨ a.form = o.form r := by
  cases o with
  | reg name span =>
    cases h
    exact form_ofRegName _
  | imm e span =>
    simp only [ofOperand] at h
    split at h
    · rename_i v hv
      cases h
      exact .inr (congrArg FormOperand.imm (written_of_evalSymbolic hv).symm)
    · cases h
  | mem p span => exact form_ofPlace h
  | place p span =>
    cases h
    exact .inl rfl
  | portC span =>
    cases h
    exact .inr rfl
  | port e span =>
    simp only [ofOperand] at h
    split at h
    · rename_i v hv
      cases h
      exact .inr (congrArg FormOperand.port (written_of_evalSymbolic hv).symm)
    · cases h
  | missing =>
    cases h
    exact .inl rfl

theorem form_ofOperands {os : List Operand} {args : List Arg} (h : ofOperands r head os = .ok args)
    (hother : .other ∉ args) : args.map form = os.map (·.form r) := by
  induction os generalizing args with
  | nil =>
    cases h
    rfl
  | cons o os ih =>
    obtain ⟨a, as, rfl, ha, has⟩ := ofOperands_cons_eq_ok h
    simp only [List.mem_cons, not_or] at hother
    have hhead : a.form = o.form r := (form_ofOperand ha).resolve_left fun h => hother.1 h.symm
    rw [List.map_cons, List.map_cons, hhead, ih has hother.2]

end Arg

/-! ## Values in slots -/

namespace Value

/-- The word that stands for a value in a slot. -/
def toWord (v : Value) : Word :=
  if v.isConst then .const (UInt16.ofInt v.addend.toInt) else .symbol v.symbol v.addend

theorem ofWord_toWord (v : Value) : ofWord v.toWord = v.modulo 65536 := by
  unfold toWord modulo
  by_cases hc : v.isConst = true
  · have hnat : ((UInt16.ofInt v.addend.toInt).toNat : Int) = v.addend.toInt % 65536 := by
      simp only [UInt16.ofInt, UInt16.toNat_ofNat']
      omega
    rw [if_pos hc, if_pos hc, ← hnat, Int64.ofInt_eq_ofNat]
    rfl
  · rw [if_neg hc, if_neg hc]
    rfl

theorem ofByte_ofInt {v : Value} (hc : v.isConst = true) :
    ofByte (UInt8.ofInt v.addend.toInt) = v.modulo 256 := by
  have hnat : ((UInt8.ofInt v.addend.toInt).toNat : Int) = v.addend.toInt % 256 := by
    simp only [UInt8.ofInt, UInt8.toNat_ofNat']
    omega
  unfold modulo ofByte
  rw [if_pos hc, ← hnat, Int64.ofInt_eq_ofNat]

/-- A small constant is its own remainder. -/
theorem modulo_of_range {v : Value} (hc : v.isConst = true) {n : Nat} (hn : n < 256)
    (hv : v.addend.toInt = n) : v.modulo 256 = { addend := Int64.ofNat n } := by
  have hmod : v.addend.toInt % 256 = n := by omega
  unfold modulo
  rw [if_pos hc, hmod, Int64.ofInt_eq_ofNat]

end Value

end Z80Backend
