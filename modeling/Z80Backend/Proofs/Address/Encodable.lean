import Z80Backend.Proofs.Address.Places
import Z80Backend.Proofs.Assembly.Loads
import Z80Backend.Proofs.Spelling.Assembly

/-! # Address code that can be encoded

    An address is computed by instructions that are written down only to be
    encoded.  An operand that the encoder refuses would surface there, as a
    complaint about an instruction that nobody wrote, so whatever is out of
    range should be found while the address is built.

    Symbols that are read as symbols, and constants that fit in a word, always
    have code.  The displacement of a base slot is looked at on the way.  That
    of an index is not: a byte in a slot and a byte behind `ix` or `iy` are not
    checked at all, and of a word in a slot only the upper byte is.

    * `Step.HasCode` and its cases: what the encoder asks of a step.
    * `Address.build_hasCode`: what is built can be encoded exactly if the index
      is within reach. -/

namespace Z80Backend

/-! ## Steps -/

/-- Does a constant fit in a word, read with a sign or without? -/
def fitsWord (n : Int64) : Bool := -32768 ≤ n && n ≤ 65535

/-- The name is neither that of a register nor that of a constant. -/
def Resolver.IsAddressName (r : Resolver) (s : String) : Prop :=
  isRegisterName s = false ∧ r.value? s = none

instance (r : Resolver) (s : String) : Decidable (r.IsAddressName s) :=
  inferInstanceAs (Decidable (_ ∧ _))

/-- A word that waits for a symbol fits, and so does a constant in range. -/
theorem exists_withWord_symbol {head s : String} {off : Int64} {f : Word → MachineInstr} :
    (∃ code, Selection.withWord head { symbol := s, addend := off } f = .ok (some code)) ↔
      (s = "" → fitsWord off = true) := by
  rw [Selection.exists_withWord_iff]
  simp only [Value.isConst, beq_iff_eq, fitsWord, Bool.and_eq_true, decide_eq_true_eq]

namespace Arg

variable {r : Resolver} {s : String}

/-- Memory at a symbol plus an offset is read as such. -/
theorem ofOperand_absolute_of_name (head : String) (hs : r.IsAddressName s) (off : Int64) :
    ∃ e, ofOperand r head (.absolute s off) = .ok (.memAbs { symbol := s, addend := off } e) := by
  obtain ⟨hname, hvalue⟩ := hs
  have haddr : ofAddress r head (.offset s off) =
      .ok (.memAbs { symbol := s, addend := off } (.offset s off)) := by
    rw [ofAddress, evalSymbolic_offset hvalue]
  refine ⟨.offset s off, ?_⟩
  rw [← haddr]
  unfold Operand.absolute Expr.offset
  by_cases hzero : off = 0
  · rw [if_pos hzero, if_pos hzero]
    exact ofPlace_name hname
  · rw [if_neg hzero, if_neg hzero]
    by_cases hneg : off < 0
    · rw [if_pos hneg, if_pos hneg]
      exact ofOffset_name hname .sub (.number (-off))
    · rw [if_neg hneg, if_neg hneg]
      exact ofOffset_name hname .add (.number off)

end Arg

namespace Step

variable {r : Resolver}

/-- The encoder takes the step. -/
def HasCode (r : Resolver) (t : Step) : Prop := t.instruction.HasCode r

/-- The encoder takes each step. -/
def AllHaveCode (r : Resolver) (steps : List Step) : Prop := ∀ t ∈ steps, t.HasCode r

@[simp] theorem allHaveCode_nil : AllHaveCode r [] := by simp [AllHaveCode]

@[simp] theorem allHaveCode_cons {t : Step} {ts : List Step} :
    AllHaveCode r (t :: ts) ↔ t.HasCode r ∧ AllHaveCode r ts := by
  simp [AllHaveCode]

@[simp] theorem allHaveCode_append {ts us : List Step} :
    AllHaveCode r (ts ++ us) ↔ AllHaveCode r ts ∧ AllHaveCode r us := by
  simp [AllHaveCode, or_imp, forall_and]

@[simp] theorem hasCode_push (x : StackReg) : (push x).HasCode r := Z80Backend.hasCode_push x

@[simp] theorem hasCode_pop (x : StackReg) : (pop x).HasCode r := Z80Backend.hasCode_pop x

@[simp] theorem hasCode_exDEHL : exDEHL.HasCode r := ⟨.exDE, rfl⟩

@[simp] theorem hasCode_addHL (src : WordReg) : (addHL src).HasCode r :=
  ⟨.addHL src.pair, by cases src <;> rfl⟩

@[simp] theorem hasCode_inc (x : WordReg) : (inc x).HasCode r :=
  ⟨.inc16 x.pair, by cases x <;> rfl⟩

@[simp] theorem hasCode_ldReg (dst src : Reg8) : (ldReg dst src).HasCode r :=
  (hasCode_ld_iff (Arg.ofOperand_reg8 r _ dst) (Arg.ofOperand_reg8 r _ src)).mpr ⟨_, rfl⟩

@[simp] theorem hasCode_ldByte_zero (dst : Reg8) : (ldByte dst 0).HasCode r :=
  (hasCode_ld_iff (Arg.ofOperand_reg8 r _ dst) rfl).mpr ⟨_, rfl⟩

@[simp] theorem hasCode_loadByte_hl (dst : Reg8) : (loadByte dst .hl).HasCode r :=
  (hasCode_ld_iff (Arg.ofOperand_reg8 r _ dst) rfl).mpr ⟨_, rfl⟩

@[simp] theorem hasCode_ldWord (dst : WordReg) (n : Int64) :
    (ldWord dst n).HasCode r ↔ fitsWord n = true := by
  have himm : Arg.ofOperand r "ld" (.ofNum n) = .ok (.imm { addend := n } (.number n)) := rfl
  refine (hasCode_ld_iff (Arg.ofOperand_wordReg r _ dst) himm).trans ?_
  exact exists_withWord_symbol.trans ⟨fun h => h rfl, fun h _ => h⟩

theorem hasCode_ldSym {s : String} (hs : r.value? s = none) (dst : WordReg) (off : Int64) :
    (ldSym dst s off).HasCode r ↔ (s = "" → fitsWord off = true) := by
  have himm : Arg.ofOperand r "ld" (.ofSymbol s off) =
      .ok (.imm { symbol := s, addend := off } (.offset s off)) := by
    simp only [Operand.ofSymbol, Arg.ofOperand, Arg.evalSymbolic_offset hs]
  exact (hasCode_ld_iff (Arg.ofOperand_wordReg r _ dst) himm).trans exists_withWord_symbol

theorem hasCode_loadWord {s : String} (hs : r.IsAddressName s) (dst : WordReg) (off : Int64) :
    (loadWord dst (.symbol s off)).HasCode r ↔ (s = "" → fitsWord off = true) := by
  obtain ⟨e, he⟩ := Arg.ofOperand_absolute_of_name "ld" hs off
  exact (hasCode_ld_iff (Arg.ofOperand_wordReg r _ dst) he).trans exists_withWord_symbol

/-- The byte at a displacement from an index register. -/
theorem hasCode_loadByte {reg : String} {x : IndexReg}
    (hx : IndexReg.ofName? (Text.lower reg) = some x) (dst : Reg8) (d : Int64) :
    (loadByte dst (.indexed reg d)).HasCode r ↔ fitsDisp d = true := by
  have hread : Arg.ofOperand r "ld" (.indexed reg d) = Arg.ofDisplacement "ld" x d := by
    simp only [Operand.indexed, Arg.ofOperand, Arg.ofPlace, Arg.ofOffset, hx, Expr.eval]
    rfl
  have hrange : fitsDisp d = true ↔ ¬ (d < -128 ∨ 127 < d) := by
    rw [not_or, Int64.not_lt, Int64.not_lt]
    simp only [fitsDisp, Bool.and_eq_true, decide_eq_true_eq]
  rw [hrange]
  by_cases hout : d < -128 ∨ 127 < d
  · refine ⟨fun h => ?_, fun h => absurd hout h⟩
    obtain ⟨code, hcode⟩ := h
    obtain ⟨_, _, _, ha, _⟩ := assemble_ld hcode
    rw [MemRef.operand, hread, Arg.ofDisplacement, if_pos hout] at ha
    cases ha
  · refine ⟨fun _ => hout, fun _ => ?_⟩
    rw [Arg.ofDisplacement, if_neg hout] at hread
    exact (hasCode_ld_iff (Arg.ofOperand_reg8 r _ dst) hread).mpr ⟨_, rfl⟩

@[simp] theorem hasCode_slot (dst : Reg8) (d : Int64) :
    (loadByte dst (.slot d)).HasCode r ↔ fitsDisp d = true :=
  hasCode_loadByte (x := .ix) (by decide) dst d

end Step

/-! ## Pieces of code -/

/-- The symbol of a base is read as one, and its constants fit in a word. -/
def Base.IsLegal (r : Resolver) (b : Base) : Prop :=
  match b.origin with
  | .global s => r.IsAddressName s ∧ fitsWord b.offset
  | .frame d => fitsWord (d + b.offset)
  | .pointer _ | .reg _ | .unknown _ => fitsWord b.offset

instance (r : Resolver) (b : Base) : Decidable (b.IsLegal r) := by
  unfold Base.IsLegal
  split <;> infer_instance

/-- The symbol and the register of an index are read as such, its constant fits
    in a word, and the address that it is stored at can be computed. -/
def Index.IsLegal (r : Resolver) (scale : Int64) : Index → Prop
  | const n => fitsWord (n * scale)
  | global s _ _ => r.IsAddressName s
  | memIndexed reg _ => reg = "" ∨ (IndexReg.ofName? (Text.lower reg)).isSome
  | stored a _ => Step.AllHaveCode r a.toHL
  | none | reg8 _ | reg16 _ | slot .. | memHL | unknown _ => True

/-- What is read for the index is where an operand can name it. -/
def Index.InReach : Index → Prop
  | slot d _ | memIndexed _ d => fitsDisp d
  | global s off _ => s = "" → fitsWord off
  | _ => True

instance (i : Index) : Decidable i.InReach := by
  unfold Index.InReach
  split <;> infer_instance

namespace Address

variable {r : Resolver}

/-- The encoder takes each step of an address that is computed. -/
def HasCode (r : Resolver) : Address → Prop
  | computed steps => Step.AllHaveCode r steps
  | absolute .. | frame _ => True

@[simp] theorem allHaveCode_framePointer (d : Int64) :
    Step.AllHaveCode r (framePointer d) ↔ fitsWord d = true := by
  simp [framePointer]

theorem allHaveCode_addOffset {off : Int64} (h : fitsWord off = true) :
    Step.AllHaveCode r (addOffset off) := by
  unfold addOffset
  split <;> simp [h]

@[simp] theorem allHaveCode_scaleHL (scale : Int64) (keepDE : Bool) :
    Step.AllHaveCode r (scaleHL scale keepDE) :=
  forall_mem_scaleHL Step.hasCode_addHL Step.hasCode_ldReg (Step.hasCode_push _)
    (Step.hasCode_pop _) scale keepDE

theorem fitsDisp_of_slotFits {d : Int64} (h : ¬ (!slotFits d) = true) :
    fitsDisp d = true ∧ fitsDisp (d + 1) = true := by
  simpa [slotFits] using h

/-- The displacement of a base is checked before it is used. -/
theorem allHaveCode_baseCode {b : Base} {c : BaseCode} (hb : b.IsLegal r)
    (h : baseCode b = .ok c) : Step.AllHaveCode r c.steps := by
  unfold baseCode at h
  unfold Base.IsLegal at hb
  split at h
  · rename_i s horigin
    rw [horigin] at hb
    cases h
    simp only [Step.allHaveCode_cons, Step.allHaveCode_nil, and_true]
    exact (Step.hasCode_ldSym hb.1.2 _ _).mpr fun _ => hb.2
  · rename_i d horigin
    rw [horigin] at hb
    split at h
    · cases h
    rename_i hfits
    have hslot := fitsDisp_of_slotFits hfits
    dsimp only at h
    split at h <;> cases h
    · simp [hslot]
    · simp [hslot, hb]
  · rename_i d horigin
    rw [horigin] at hb
    cases h
    simpa using hb
  · cases h
  · cases h

/-- The displacement of an index is not. -/
theorem allHaveCode_indexCode {i : Index} {c : IndexCode} (hi : i.IsLegal r 1)
    (h : indexCode i = .ok c) : Step.AllHaveCode r c.steps ↔ i.InReach := by
  have hreg : ∀ x, Step.AllHaveCode r (regCode x).steps := by
    intro x
    cases x <;> simp [regCode]
  unfold indexCode at h
  split at h
  case h_1 n =>
    cases h
    have hn : fitsWord (n * 1) = true := hi
    rw [Int64.mul_one] at hn
    simp [Index.InReach, hn]
  case h_2 =>
    split at h <;> cases h
    simp [Index.InReach, hreg]
  case h_9 s off isByte =>
    have hload := Step.hasCode_loadWord hi .hl off
    cases h
    cases isByte <;> simp [Index.InReach, hload]
  case h_10 =>
    cases h
    simp [Index.InReach]
  case h_11 =>
    -- the upper byte was looked at, so the lower one decides
    split at h <;> cases h
    rename_i hfits
    rw [Bool.not_eq_true, Bool.not_eq_eq_eq_not, Bool.not_false] at hfits
    simp [Index.InReach, hfits]
  case h_13 reg d =>
    cases h
    have hx : ∃ x, IndexReg.ofName? (Text.lower (if reg = "" then "ix" else reg)) = some x := by
      split
      · exact ⟨.ix, by decide⟩
      · rename_i hne
        exact Option.isSome_iff_exists.mp (hi.resolve_left hne)
    obtain ⟨x, hx⟩ := hx
    simp [Index.InReach, Step.hasCode_loadByte hx]
  case h_14 a isByte =>
    cases h
    have ha : Step.AllHaveCode r a.toHL := hi
    cases isByte <;> simp [Index.InReach, ha]
  all_goals
    cases h <;> simp [Index.InReach]

/-! ## Addresses -/

theorem hasCode_ofBase {b : Base} {a : Address} (hb : b.IsLegal r) (h : ofBase b = .ok a) :
    a.HasCode r := by
  unfold ofBase at h
  unfold Base.IsLegal at hb
  split at h
  · cases h
    trivial
  · rename_i d horigin
    rw [horigin] at hb
    split at h <;> cases h
    · trivial
    · exact (allHaveCode_framePointer _).mpr hb
  · rename_i d horigin
    rw [horigin] at hb
    split at h <;> cases h
    rename_i hfits
    have hslot := fitsDisp_of_slotFits hfits
    simp [HasCode, hslot, allHaveCode_addOffset hb]
  · rename_i name horigin
    rw [horigin] at hb
    split at h <;> cases h <;> simp [HasCode, allHaveCode_addOffset hb]
  · cases h

theorem hasCode_join {c : IndexCode} {d : BaseCode} {scale : Int64}
    (hd : Step.AllHaveCode r d.steps) :
    Step.AllHaveCode r (join c d scale) ↔ Step.AllHaveCode r c.steps := by
  unfold join
  split <;> simp [hd]

theorem hasCode_indexedBy {b : Base} {i : Index} {scale : Int64} {a : Address}
    (hb : b.IsLegal r) (hi : i.IsLegal r 1) (h : indexedBy b i scale = .ok a) :
    a.HasCode r ↔ i.InReach := by
  obtain ⟨c, hc, ⟨name, x, horigin, -, rfl⟩ | ⟨d, hd, rfl⟩⟩ := indexedBy_eq_ok h
  · have hoffset : fitsWord b.offset = true := by
      rw [Base.IsLegal, horigin] at hb
      exact hb
    rw [← allHaveCode_indexCode hi hc]
    simp [HasCode, allHaveCode_addOffset hoffset]
  · rw [← allHaveCode_indexCode hi hc]
    exact hasCode_join (allHaveCode_baseCode hb hd)

theorem hasCode_atConst {b : Base} {off : Int64} {a : Address} (hb : b.IsLegal r)
    (hoff : fitsWord off = true) (h : atConst b off = .ok a) : a.HasCode r := by
  have hi : (Index.const off).IsLegal r 1 := by
    show fitsWord (off * 1) = true
    rw [Int64.mul_one]
    exact hoff
  rcases atConst_eq_ok h with ⟨d, rfl⟩ | h
  · trivial
  · exact (hasCode_indexedBy hb hi h).mpr trivial

/-- What is built can be encoded exactly if the index is within reach. -/
theorem build_hasCode {b : Base} {i : Index} {scale : Int64} {a : Address} (hb : b.IsLegal r)
    (hi : i.IsLegal r scale) (h : build b i scale = .ok a) : a.HasCode r ↔ i.InReach := by
  unfold build at h
  split at h
  · cases h
  split at h
  · exact iff_of_true (hasCode_ofBase hb h) trivial
  · exact iff_of_true (hasCode_atConst hb hi h) trivial
  · rename_i hconst
    have hunscaled : i.IsLegal r 1 := by
      cases i with
      | const n => exact absurd rfl (hconst n)
      | _ => exact hi
    exact hasCode_indexedBy hb hunscaled h

/-- A table behind a symbol. -/
def table : Base := { origin := .global "table", offset := 6 }

/-- The table indexed by a byte in the frame, three bytes an element. -/
theorem table_hasCode : ∃ a, build table (.slot (-4) true) 3 = .ok a ∧ a.HasCode .empty := by
  have hbuild : ∃ a, build table (.slot (-4) true) 3 = .ok a := ⟨_, rfl⟩
  obtain ⟨a, ha⟩ := hbuild
  have hlegal : (Index.slot (-4) true).IsLegal .empty 3 := trivial
  exact ⟨a, ha, (build_hasCode (by decide) hlegal ha).mpr (by decide)⟩

/-- A legal index whose address is built, with a step that has no code. -/
def Escapes (i : Index) : Prop :=
  i.IsLegal .empty 1 ∧ ∃ a, build table i 1 = .ok a ∧ ¬ a.HasCode .empty

/-- The displacements that nothing looks at: a byte in a slot or behind an index
    register, and the lower byte of a word. -/
theorem escapes_unchecked : Escapes (.slot 200 true) ∧ Escapes (.slot (-129) false) ∧
    Escapes (.memIndexed "iy" 128) ∧ Escapes (.global "" 70000 false) := by
  have hrefused : ∀ i : Index, i.IsLegal .empty 1 → ¬ i.InReach →
      ∀ {a}, indexedBy table i 1 = .ok a → ¬ a.HasCode .empty := by
    intro i hi hreach a ha hcode
    exact hreach ((hasCode_indexedBy (b := table) (by decide) hi ha).mp hcode)
  refine ⟨⟨trivial, _, rfl, ?_⟩, ⟨trivial, _, rfl, ?_⟩, ⟨.inr (by decide), _, rfl, ?_⟩,
    ⟨⟨by decide, rfl⟩, _, rfl, ?_⟩⟩
  · exact hrefused (.slot 200 true) trivial (by decide) rfl
  · exact hrefused (.slot (-129) false) trivial (by decide) rfl
  · exact hrefused (.memIndexed "iy" 128) (.inr (by decide)) (by decide) rfl
  · exact hrefused (.global "" 70000 false) ⟨by decide, rfl⟩ (by decide) rfl

end Address

end Z80Backend
