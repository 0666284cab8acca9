import Z80Backend.Register
import Z80Backend.Syntax.Module

/-! # Spellings

    Mnemonics, registers and conditions may be written in letters of either
    case.  The caseless form of a module has all of them in lower case, so two
    modules are spellings of one another when their caseless forms are the
    same.

    In an address a word is the name of a register or of storage, and only the
    case of the former is free.  `addressWord` is the spelling of a word there:
    lower case for the name of a register, and the word itself otherwise. -/

namespace Z80Backend

/-! ## Words -/

namespace Text

/-- A word with its ASCII letters in lower case. -/
def asciiLower (s : String) : String := String.ofList (s.toList.map Char.toLower)

/-- A letter in lower case stays in ASCII, and is in lower case. -/
theorem toLower_of_lt {c : Char} (h : c.toNat < 128) :
    c.toLower.toNat < 128 ∧ c.toLower.toLower = c.toLower := by
  have hall : ∀ n < 128, (Char.ofNat n).toLower.toNat < 128 ∧
      (Char.ofNat n).toLower.toLower = (Char.ofNat n).toLower := by decide +kernel
  have hc := hall c.toNat h
  rwa [Char.ofNat_toNat] at hc

/-- Only the letters of ASCII are put in lower case. -/
theorem toLower_of_ge {c : Char} (h : ¬ c.toNat < 128) : c.toLower = c := by
  unfold Char.toLower
  split
  · rename_i hc
    have hle : c.toNat ≤ 90 := hc.2
    omega
  · rfl

theorem toLower_toLower (c : Char) : c.toLower.toLower = c.toLower := by
  by_cases h : c.toNat < 128
  · exact (toLower_of_lt h).2
  · rw [toLower_of_ge h, toLower_of_ge h]

theorem lowerChar_toLower (c : Char) : lowerChar c.toLower = lowerChar c := by
  by_cases h : c.toNat < 128
  · have hc := toLower_of_lt h
    rw [lowerChar, if_pos hc.1, hc.2, lowerChar, if_pos h]
  · rw [toLower_of_ge h]

theorem foldChar_toLower (c : Char) : foldChar c.toLower = foldChar c := by
  by_cases h : c.toNat < 128
  · have hc := toLower_of_lt h
    unfold foldChar
    rw [if_neg (by omega), if_neg (by omega), hc.2, if_neg (by omega), if_neg (by omega)]
  · rw [toLower_of_ge h]

@[simp] theorem lower_asciiLower (s : String) : lower (asciiLower s) = lower s := by
  simp [lower, asciiLower, Function.comp_def, lowerChar_toLower]

@[simp] theorem matchesWord_asciiLower (s word : String) :
    matchesWord (asciiLower s) word = matchesWord s word := by
  simp [matchesWord, asciiLower, Function.comp_def, foldChar_toLower]

end Text

/-- The names of the registers, in lower case. -/
def registerNames : List String :=
  ["a", "b", "c", "d", "e", "h", "l", "i", "r", "af", "af'", "bc", "de", "hl", "sp", "ix", "iy",
   "ixh", "ixl", "iyh", "iyl"]

/-- Is the word the name of a register, in any case? -/
def isRegisterName (s : String) : Bool := registerNames.contains (Text.lower s)

/-- The names of registers are short. -/
theorem isRegisterName_of_length {s : String} (h : 3 < s.toList.length) :
    isRegisterName s = false := by
  have hshort : ∀ w ∈ registerNames, w.toList.length ≤ 3 := by decide
  rw [isRegisterName, List.contains_eq_mem, decide_eq_false_iff_not]
  intro hmem
  have hle := hshort _ hmem
  simp only [Text.lower, String.toList_ofList, List.length_map] at hle
  omega

/-- The names that are read as registers are names of registers. -/
theorem lower_ne_of_isRegisterName {s : String} (hs : isRegisterName s = false) {x : String}
    (hx : x ∈ registerNames) : Text.lower s ≠ x := by
  rintro rfl
  rw [isRegisterName, List.contains_iff_mem.mpr hx] at hs
  cases hs

/-- The spelling of a word in an address. -/
def addressWord (s : String) : String := if isRegisterName s then Text.asciiLower s else s

theorem addressWord_of_true {s : String} (h : isRegisterName s = true) :
    addressWord s = Text.asciiLower s := if_pos h

theorem addressWord_of_false {s : String} (h : isRegisterName s = false) : addressWord s = s :=
  if_neg (Bool.eq_false_iff.mp h)

@[simp] theorem lower_addressWord (s : String) : Text.lower (addressWord s) = Text.lower s := by
  unfold addressWord
  split
  · exact Text.lower_asciiLower s
  · rfl

@[simp] theorem isRegisterName_addressWord (s : String) :
    isRegisterName (addressWord s) = isRegisterName s := by
  simp [isRegisterName]

/-! ## Operands -/

/-- The subscript with its register in lower case. -/
def Subscript.caseless : Subscript → Subscript
  | reg8 r => reg8 (Text.asciiLower r)
  | reg16 r => reg16 (Text.asciiLower r)
  | memIndexed r d => memIndexed (Text.asciiLower r) d
  | i => i

/-- The place with the registers in it in lower case. -/
def Place.caseless : Place → Place
  | name s => name (addressWord s)
  | literal e => literal e
  | field b f => field b.caseless f
  | elem b i => elem b.caseless i.caseless
  | elemAt b p => elemAt b.caseless p.caseless
  | add b off => add b.caseless off
  | sub b off => sub b.caseless off
  | missing => missing

/-- The operand with the registers in it in lower case. -/
def Operand.caseless : Operand → Operand
  | reg name span => reg (Text.asciiLower name) span
  | mem p span => mem p.caseless span
  | place p span => place p.caseless span
  | o => o

/-- The instruction with its mnemonic and registers in lower case. -/
def Instruction.caseless (i : Instruction) : Instruction :=
  { i with head := Text.asciiLower i.head, operands := i.operands.map (·.caseless) }

/-! ## Declarations -/

/-- The statement with mnemonics, registers and conditions in lower case. -/
def Stmt.caseless : Stmt → Stmt
  | instr i => instr i.caseless
  | ifOpen cond malformed span => ifOpen (Text.asciiLower cond) malformed span
  | whileOpen cond malformed span => whileOpen (Text.asciiLower cond) malformed span
  | untilClose cond span => untilClose (Text.asciiLower cond) span
  | selectOpen selector malformed span => selectOpen selector.caseless malformed span
  | call callee args span => call callee (args.map (·.caseless)) span
  | st => st

/-- The overload with its body in lower case. -/
def OpDecl.caseless (d : OpDecl) : OpDecl := { d with body := d.body.map (·.caseless) }

/-- The function with its return registers and its body in lower case. -/
def FuncDecl.caseless (d : FuncDecl) : FuncDecl :=
  { d with returns := d.returns.map Text.asciiLower, body := d.body.map (·.caseless) }

/-- The item with mnemonics, registers and conditions in lower case. -/
def Item.caseless : Item → Item
  | func d => func d.caseless
  | op d => op d.caseless
  | x => x

/-- The module with mnemonics, registers and conditions in lower case. -/
def Module.caseless (m : Module) : Module := { m with items := m.items.map (·.caseless) }

end Z80Backend
