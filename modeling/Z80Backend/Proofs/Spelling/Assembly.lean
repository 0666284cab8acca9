import Mathlib.Data.List.Basic
import Z80Backend.Proofs.Assembly.Names
import Z80Backend.Proofs.Spelling.Caseless

/-! # Machine code of a spelling

    The machine code of an instruction and of its caseless form differ at most
    in how the name of a register is spelled in an address slot.  Such a slot
    is there when a register that is no pointer stands in parentheses: it is
    then read as a symbol, with the spelling that it has.

    * `MachineInstr.caseless` has these symbols in lower case.
    * `assemble_caseless`: up to that, an instruction and its caseless form
      have the same machine code or have none. -/

namespace Z80Backend

/-! ## Values -/

theorem Text.asciiLower_asciiLower (s : String) : asciiLower (asciiLower s) = asciiLower s := by
  have htwice : Char.toLower ∘ Char.toLower = Char.toLower := funext toLower_toLower
  rw [asciiLower, asciiLower, String.toList_ofList, List.map_map, htwice]

@[simp] theorem addressWord_addressWord (s : String) :
    addressWord (addressWord s) = addressWord s := by
  cases h : isRegisterName s with
  | true =>
    rw [addressWord_of_true (by simpa using h), addressWord_of_true h,
      Text.asciiLower_asciiLower]
  | false => rw [addressWord_of_false (by simpa using h)]

/-- The empty symbol is no register. -/
theorem addressWord_eq_empty {s : String} : addressWord s = "" ↔ s = "" := by
  constructor
  · intro h
    have hreg : isRegisterName s = false := by
      rw [← isRegisterName_addressWord, h]
      decide
    rwa [addressWord_of_false hreg] at h
  · rintro rfl
    decide

namespace Value

/-- The value with the name of a register in lower case. -/
def caseless (v : Value) : Value := { v with symbol := addressWord v.symbol }

@[simp] theorem addend_caseless (v : Value) : v.caseless.addend = v.addend := rfl

@[simp] theorem isConst_caseless (v : Value) : v.caseless.isConst = v.isConst := by
  simp [isConst, caseless, Bool.beq_eq_decide_eq, addressWord_eq_empty]

theorem caseless_of_isConst {v : Value} (h : v.isConst = true) : v.caseless = v := by
  obtain ⟨s, k⟩ := v
  obtain rfl : s = "" := by simpa [isConst] using h
  rfl

/-- A sum or difference is spelled as its parts are. -/
theorem combine?_caseless (op : BinaryOp) (v w : Value) :
    combine? op v.caseless w = (combine? op v w).map fun u =>
      if v.isConst then u else u.caseless := by
  cases hv : v.isConst with
  | true =>
    rw [caseless_of_isConst hv]
    simp
  | false =>
    cases op with
    | add =>
      simp only [combine?, isConst_caseless, hv]
      cases w.isConst <;> rfl
    | sub =>
      simp only [combine?]
      cases w.isConst <;> rfl
    | _ => rfl

end Value

/-- The word with the name of a register in lower case. -/
def Word.caseless : Word → Word
  | const n => const n
  | symbol s k => symbol (addressWord s) k

/-- The instruction with the name of a register in its address slot in lower
    case. -/
def MachineInstr.caseless : MachineInstr → MachineInstr
  | ldAAbs a => ldAAbs a.caseless
  | ldAbsA a => ldAbsA a.caseless
  | ldPairAbs p a => ldPairAbs p a.caseless
  | ldAbsPair a p => ldAbsPair a.caseless p
  | ldIndexAbs x a => ldIndexAbs x a.caseless
  | ldAbsIndex a x => ldAbsIndex a.caseless x
  | m => m

@[simp] theorem Word.caseless_caseless (w : Word) : w.caseless.caseless = w.caseless := by
  cases w with
  | const n => rfl
  | symbol s k => simp [caseless]

/-! ## Selections -/

namespace Arg

/-- The part with the name of a register in an address in lower case.  The
    expression, which is for messages only, is left out. -/
def caseless : Arg → Arg
  | memAbs v _ => memAbs v.caseless .missing
  | a => a

theorem caseless_of_ne {a : Arg} (h : ∀ v e, a ≠ .memAbs v e) : a.caseless = a := by
  cases a with
  | memAbs v e => exact absurd rfl (h v e)
  | _ => rfl

theorem map_caseless_of_not_mem {args : List Arg} (h : ∀ v e, .memAbs v e ∉ args) :
    args.map caseless = args := by
  have hself : ∀ a ∈ args, a.caseless = id a := by
    intro a ha
    apply caseless_of_ne
    rintro v e rfl
    exact h v e ha
  rw [List.map_congr_left hself, List.map_id]

theorem mem_map_caseless {args : List Arg} {v : Value} {e : Expr} (h : .memAbs v e ∈ args) :
    .memAbs v.caseless .missing ∈ args.map caseless :=
  List.mem_map.mpr ⟨_, h, rfl⟩

end Arg

/-- Only loads name an address. -/
theorem MachineInstr.head_of_abs {code : MachineInstr} {v : Value}
    (h : .abs v ∈ code.form.operands) : code.form.head = "ld" := by
  cases code with
  | alu op src | inc8 src | dec8 src => cases src with
    | cell m => cases m <;> simp [form, Loc8.form, Cell.form] at h
    | _ => simp [form, Loc8.form] at h
  | rotate op t | bit op n t => cases t with
    | cell m => cases m <;> simp [form, BitLoc.form, Cell.form] at h
    | _ => simp [form, BitLoc.form] at h
  | load | store | storeImm | ldAAbs | ldAbsA | ldPairAbs | ldAbsPair | ldIndexAbs | ldAbsIndex =>
    rfl
  | _ => simp [form] at h

namespace Selection

variable {head : String}

/-- Whatever is selected from operands with an address is a load or reads a
    port. -/
theorem mem_of_memAbs {m : Mnemonic} {args : List Arg} {v : Value} {e : Expr}
    (h : .memAbs v e ∈ args) :
    Yields (fun _ => m = .ld ∨ m = .input ∨ m = .output) (ofMnemonic head args m) := by
  intro code hcode
  have hform := (reads_ofMnemonic code hcode).form
  have hmem : .abs v ∈ args.map Arg.form := List.mem_map.mpr ⟨_, h, rfl⟩
  -- The accumulator is the only operand that a normal form leaves out.
  have hkept : .abs v ∈ Form.withoutAccumulator m.text (args.map Arg.form) := by
    unfold Form.withoutAccumulator
    split
    · rename_i hacc
      cases hargs : args.map Arg.form with
      | nil => simp [hargs] at hmem
      | cons o os =>
        rw [hargs] at hmem hacc
        obtain rfl : o = .reg "a" := by simpa using hacc.2.2
        simpa using hmem
    · exact hmem
  by_cases hport : m.text ∈ ["in", "out"]
  · right
    cases m with
    | input => exact .inl rfl
    | output => exact .inr rfl
    | alu op | rotate op | bit op | plain op =>
      cases op <;> simp [Mnemonic.text, Plain.text] at hport
    | _ => simp [Mnemonic.text] at hport
  · left
    have habs : .abs (v.modulo 65536) ∈ code.form.operands := by
      rw [hform]
      refine List.mem_map.mpr ⟨_, hkept, ?_⟩
      simp only [Form.reduceOperand, if_neg hport]
    have hhead : m.text = "ld" := by
      have hld := code.head_of_abs habs
      rwa [hform] at hld
    cases m with
    | ld => rfl
    | alu op | rotate op | bit op | plain op =>
      cases op <;> simp [Mnemonic.text, Plain.text] at hhead
    | _ => simp [Mnemonic.text] at hhead

/-- What is selected, in its caseless form. -/
def outcome (sel : Selection) : Option MachineInstr :=
  sel.toOption.join.map MachineInstr.caseless

theorem outcome_eq_none {sel : Selection} (h : Yields (fun _ => False) sel) :
    sel.outcome = none := by
  match sel, h with
  | .error _, _ => rfl
  | .ok none, _ => rfl
  | .ok (some code), h => exact (h code rfl).elim

theorem outcome_withWord (v : Value) {f : Word → MachineInstr}
    (hf : ∀ w, (f w.caseless).caseless = (f w).caseless) :
    (withWord head v.caseless f).outcome = (withWord head v f).outcome := by
  unfold withWord
  rw [Value.isConst_caseless, Value.addend_caseless]
  split
  · exact congrArg some (hf (.symbol v.symbol v.addend))
  · rfl

theorem outcome_withImm8 (v : Value) (e e' : Expr) (f : UInt8 → MachineInstr) :
    (withImm8 head v.caseless e' f).outcome = (withImm8 head v e f).outcome := by
  unfold withImm8
  rw [Value.isConst_caseless, Value.addend_caseless]
  split
  · rfl
  · rfl

/-- The address of a port is a constant, and as such has one spelling. -/
theorem outcome_input (args : List Arg) :
    (input head (args.map Arg.caseless)).outcome = (input head args).outcome := by
  have hother : ∀ args : List Arg, args.length ≠ 2 → input head args = declined := by
    intro args h
    unfold input
    split <;> simp at h ⊢
  by_cases h : args.length = 2
  · obtain ⟨a, p, rfl⟩ := List.length_eq_two.mp h
    by_cases hp : ∃ v e, p = .memAbs v e
    · obtain ⟨v, e, rfl⟩ := hp
      cases a with
      | reg8 dst =>
        cases hv : v.isConst <;> cases dst <;>
          simp [input, portValue?, Arg.caseless, hv, outcome_withImm8 v e]
      | _ => exact Eq.refl declined.outcome
    · rw [List.map_cons, List.map_cons, Arg.caseless_of_ne fun v e hv => hp ⟨v, e, hv⟩]
      cases a with
      | memAbs v e => exact Eq.refl declined.outcome
      | _ => rfl
  · rw [hother args h, hother _ (by simpa using h)]

theorem outcome_output (args : List Arg) :
    (output head (args.map Arg.caseless)).outcome = (output head args).outcome := by
  have hother : ∀ args : List Arg, args.length ≠ 2 → output head args = declined := by
    intro args h
    unfold output
    split <;> simp at h ⊢
  by_cases h : args.length = 2
  · obtain ⟨p, a, rfl⟩ := List.length_eq_two.mp h
    by_cases hp : ∃ v e, p = .memAbs v e
    · obtain ⟨v, e, rfl⟩ := hp
      cases a with
      | reg8 src =>
        cases hv : v.isConst <;> cases src <;>
          simp [output, portValue?, Arg.caseless, hv, outcome_withImm8 v e]
      | _ => exact Eq.refl declined.outcome
    · rw [List.map_cons, Arg.caseless_of_ne fun v e hv => hp ⟨v, e, hv⟩]
      cases a with
      | memAbs v e => cases p <;> exact Eq.refl declined.outcome
      | _ => rfl
  · rw [hother args h, hother _ (by simpa using h)]

theorem outcome_ldAbs (v : Value) (src : Arg) :
    (ldAbs head v.caseless src).outcome = (ldAbs head v src).outcome := by
  unfold ldAbs
  split
  · exact outcome_withWord v fun w => by simp [MachineInstr.caseless]
  · exact outcome_withWord v fun w => by simp [MachineInstr.caseless]
  · exact outcome_withWord v fun w => by simp [MachineInstr.caseless]
  · rfl

/-- A load through an address is the same load in any spelling. -/
theorem outcome_ld (args : List Arg) :
    (ld head (args.map Arg.caseless)).outcome = (ld head args).outcome := by
  have hother : ∀ args : List Arg, args.length ≠ 2 → ld head args = declined := by
    intro args h
    unfold ld
    split <;> simp at h ⊢
  by_cases h : args.length = 2
  · obtain ⟨dst, src, rfl⟩ := List.length_eq_two.mp h
    by_cases hsrc : ∃ v e, src = .memAbs v e
    · obtain ⟨v, e, rfl⟩ := hsrc
      cases dst with
      | reg8 r =>
        simp only [List.map_cons, List.map_nil, Arg.caseless, ld, ldReg]
        split
        · exact outcome_withWord v fun w => by simp [MachineInstr.caseless]
        · rfl
      | pair p =>
        simp only [List.map_cons, List.map_nil, Arg.caseless, ld, ldPair]
        exact outcome_withWord v fun w => by simp [MachineInstr.caseless]
      | index x =>
        simp only [List.map_cons, List.map_nil, Arg.caseless, ld, ldIndex]
        exact outcome_withWord v fun w => by simp [MachineInstr.caseless]
      | _ => simp only [List.map_cons, List.map_nil, Arg.caseless, ld, ldHalf, ldCell, ldAbs]
    · rw [List.map_cons, List.map_cons, Arg.caseless_of_ne fun v e hv => hsrc ⟨v, e, hv⟩]
      cases dst with
      | memAbs v e => exact outcome_ldAbs v src
      | _ => rfl
  · rw [hother args h, hother _ (by simpa using h)]

/-- The same is selected from operands in any spelling. -/
theorem outcome_ofMnemonic (args : List Arg) (m : Mnemonic) :
    (ofMnemonic head (args.map Arg.caseless) m).outcome = (ofMnemonic head args m).outcome := by
  by_cases hmem : ∃ v e, .memAbs v e ∈ args
  · obtain ⟨v, e, hmem⟩ := hmem
    by_cases hm : m = .ld ∨ m = .input ∨ m = .output
    · rcases hm with rfl | rfl | rfl
      · exact outcome_ld args
      · exact outcome_input args
      · exact outcome_output args
    · rw [outcome_eq_none fun code hcode => hm (mem_of_memAbs hmem code hcode),
        outcome_eq_none fun code hcode => hm (mem_of_memAbs (Arg.mem_map_caseless hmem) code hcode)]
  · rw [Arg.map_caseless_of_not_mem fun v e h => hmem ⟨v, e, h⟩]

end Selection

/-! ## Operands -/

/-- No register is also the name of a constant. -/
def Resolver.SparesRegisters (r : Resolver) : Prop :=
  ∀ w, isRegisterName w = true → r.value? w = none

namespace Arg

variable {r : Resolver} {head : String}

/-- What an operand is read as, in its caseless form. -/
def outcome (x : Except EncodeError Arg) : Option Arg := x.toOption.map caseless

section

variable {s : String} (hs : isRegisterName s = false)

include hs

theorem indexReg_eq_none_of_name : IndexReg.ofName? (Text.lower s) = none := by
  cases hx : IndexReg.ofName? (Text.lower s) with
  | none => rfl
  | some x =>
    have hfound := List.find?_some hx
    have hmem : x.text ∈ registerNames := by cases x <;> decide
    exact absurd (beq_iff_eq.mp hfound).symm (lower_ne_of_isRegisterName hs hmem)

theorem pair_eq_none_of_name : Pair.ofName? (Text.lower s) = none := by
  cases hp : Pair.ofName? (Text.lower s) with
  | none => rfl
  | some p =>
    have hfound := List.find?_some hp
    have hmem : p.text ∈ registerNames := by cases p <;> decide
    exact absurd (beq_iff_eq.mp hfound).symm (lower_ne_of_isRegisterName hs hmem)

/-- A word that is no register is read as an address where it stands in
    parentheses. -/
theorem ofPlace_name : ofPlace r head (.name s) = ofAddress r head (.name s) := by
  simp only [ofPlace]
  split
  case h_6 => rw [indexReg_eq_none_of_name hs]
  all_goals
    rename_i heq
    exact absurd heq (lower_ne_of_isRegisterName hs (by decide))

theorem ofOffset_name (op : BinaryOp) (off : Expr) :
    ofOffset r head op s off = ofAddress r head (.binary op (.name s) off) := by
  simp only [ofOffset, indexReg_eq_none_of_name hs, pair_eq_none_of_name hs]

end

theorem evalSymbolic_name {s : String} (h : r.value? s = none) :
    (Expr.name s).evalSymbolic r = .ok { symbol := s } := by
  simp [Expr.evalSymbolic, Expr.eval, h]

/-- A sum or difference of a name that waits is taken part by part. -/
theorem evalSymbolic_binary {s : String} (h : r.value? s = none) (op : BinaryOp) (off : Expr) :
    ((Expr.binary op (.name s) off).evalSymbolic r).toOption =
      (off.evalSymbolic r).toOption.bind fun w => Value.combine? op { symbol := s } w := by
  rw [Expr.evalSymbolic]
  simp only [Expr.eval, h, evalSymbolic_name h]
  cases off.evalSymbolic r with
  | error e => rfl
  | ok w =>
    cases hsum : Value.combine? op { symbol := s } w with
    | some u => simp [hsum, Except.toOption]
    | none => simp [hsum, Except.toOption]

theorem outcome_ofAddress (e : Expr) :
    outcome (ofAddress r head e) =
      (e.evalSymbolic r).toOption.map fun v => .memAbs v.caseless .missing := by
  unfold ofAddress
  cases e.evalSymbolic r <;> rfl

theorem outcome_ofAddress_name (hr : r.SparesRegisters) (s : String) :
    outcome (ofAddress r head (.name (addressWord s))) = outcome (ofAddress r head (.name s)) := by
  cases hs : isRegisterName s with
  | false => rw [addressWord_of_false hs]
  | true =>
    have hw : r.value? (addressWord s) = none := hr _ (by simpa using hs)
    rw [outcome_ofAddress, outcome_ofAddress, evalSymbolic_name (hr s hs), evalSymbolic_name hw]
    simp [Except.toOption, Value.caseless]

theorem outcome_ofAddress_binary (hr : r.SparesRegisters) (op : BinaryOp) (s : String)
    (off : Expr) :
    outcome (ofAddress r head (.binary op (.name (addressWord s)) off)) =
      outcome (ofAddress r head (.binary op (.name s) off)) := by
  cases hs : isRegisterName s with
  | false => rw [addressWord_of_false hs]
  | true =>
    have hw : r.value? (addressWord s) = none := hr _ (by simpa using hs)
    rw [outcome_ofAddress, outcome_ofAddress, evalSymbolic_binary (hr s hs),
      evalSymbolic_binary hw]
    cases off.evalSymbolic r with
    | error e => simp only [Except.toOption, Option.bind_none]
    | ok w =>
      have hcase : ({ symbol := addressWord s } : Value) = Value.caseless { symbol := s } := rfl
      have hconst : Value.isConst { symbol := s } = false := by
        have hne : s ≠ "" := by
          rintro rfl
          revert hs
          decide
        simpa [Value.isConst] using hne
      simp only [Except.toOption, Option.bind_some]
      rw [hcase, Value.combine?_caseless, hconst]
      cases Value.combine? op { symbol := s } w with
      | none => rfl
      | some u => simp [Value.caseless]

theorem outcome_ofOffset (hr : r.SparesRegisters) (op : BinaryOp) (s : String) (off : Expr) :
    outcome (ofOffset r head op (addressWord s) off) = outcome (ofOffset r head op s off) := by
  unfold ofOffset
  rw [lower_addressWord]
  split
  · rfl
  · split
    · rfl
    · exact outcome_ofAddress_binary hr op s off

/-- A place reads the same in any spelling. -/
theorem outcome_ofPlace (hr : r.SparesRegisters) (p : Place) :
    outcome (ofPlace r head p.caseless) = outcome (ofPlace r head p) := by
  cases p with
  | name s =>
    simp only [Place.caseless, ofPlace, lower_addressWord]
    split
    · rfl
    · rfl
    · rfl
    · rfl
    · rfl
    · split
      · rfl
      · exact outcome_ofAddress_name hr s
  | add b off =>
    cases b with
    | name s =>
      simp only [Place.caseless, ofPlace]
      exact outcome_ofOffset hr .add s off
    | _ => rfl
  | sub b off =>
    cases b with
    | name s =>
      simp only [Place.caseless, ofPlace]
      exact outcome_ofOffset hr .sub s off
    | _ => rfl
  | _ => rfl

theorem outcome_ofOperand (hr : r.SparesRegisters) (o : Operand) :
    outcome (ofOperand r head o.caseless) = outcome (ofOperand r head o) := by
  cases o with
  | reg name span => simp only [Operand.caseless, ofOperand, Text.lower_asciiLower]
  | mem p span => exact outcome_ofPlace hr p
  | _ => rfl

/-- Several operands read the same in any spelling. -/
theorem outcome_ofOperands (hr : r.SparesRegisters) (os : List Operand) :
    (ofOperands r head (os.map (·.caseless))).toOption.map (List.map caseless) =
      (ofOperands r head os).toOption.map (List.map caseless) := by
  -- Both lists of parts are put together from the parts of their operands.
  have hcons : ∀ o os, (ofOperands r head (o :: os)).toOption.map (List.map caseless) =
      (outcome (ofOperand r head o)).bind fun a =>
        ((ofOperands r head os).toOption.map (List.map caseless)).map (a :: ·) := by
    intro o os
    rw [ofOperands]
    cases ofOperand r head o with
    | error e => rfl
    | ok a => cases ofOperands r head os <;> rfl
  induction os with
  | nil => rfl
  | cons o os ih => rw [List.map_cons, hcons, hcons, ih, outcome_ofOperand hr]

end Arg

/-! ## Instructions -/

/-- The machine code of an instruction, in its caseless form. -/
def Instruction.outcome (r : Resolver) (i : Instruction) : Option MachineInstr :=
  (assemble r i).toOption.map MachineInstr.caseless

theorem Instruction.outcome_eq (r : Resolver) (i : Instruction) :
    i.outcome r = (Mnemonic.ofName? (Text.lower i.head)).bind fun m =>
      ((Arg.ofOperands r (Text.lower i.head) i.operands).toOption.map (List.map Arg.caseless)).bind
        fun args => (Selection.ofMnemonic (Text.lower i.head) args m).outcome := by
  simp only [outcome, assemble]
  cases Mnemonic.ofName? (Text.lower i.head) with
  | none => rfl
  | some m =>
    dsimp only
    cases Arg.ofOperands r (Text.lower i.head) i.operands with
    | error e => rfl
    | ok args =>
      simp only [Option.bind_some]
      refine Eq.trans ?_ (Selection.outcome_ofMnemonic args m).symm
      cases Selection.ofMnemonic (Text.lower i.head) args m with
      | error e => rfl
      | ok sel =>
        cases sel with
        | some code => rfl
        | none =>
          dsimp only
          split <;> rfl

/-- An instruction and its caseless form have the same machine code, up to the
    spelling of registers in address slots. -/
theorem assemble_caseless {r : Resolver} (hr : r.SparesRegisters) (i : Instruction) :
    i.caseless.outcome r = i.outcome r := by
  rw [Instruction.outcome_eq, Instruction.outcome_eq]
  simp only [Instruction.caseless, Text.lower_asciiLower, Arg.outcome_ofOperands hr]

end Z80Backend
