import Z80Backend.Proofs.Assembly.Generated

/-! # Effects on the stack

    The tracker reads the effect of an instruction off its words; the machine
    instruction that is assembled from them has an effect of its own.  The two
    agree (`StackEffect.of_assemble`), since both are told by the mnemonic and
    by which of the operands are `sp`.  The words are compared in two ways that
    differ on the long s, which no instruction accepts in a register name. -/

namespace Z80Backend

/-! ## The word `sp` -/

namespace Text

/-- No character beyond ASCII has a partner in ASCII, but for those of `i` and
    `k`. -/
theorem shift_of_mem_caseRuns : ∀ r ∈ caseRuns, 128 ≤ r.first + r.shift ∨
    r.first = r.last ∧ (r.first + r.shift = 105 ∨ r.first + r.shift = 107) := by
  decide +kernel

theorem eq_toNat_of_ofNat {n : Nat} {w : Char} (h : Char.ofNat n = w) (hw : w.toNat ≠ 0) :
    n = w.toNat := by
  subst h
  by_cases hn : n.isValidChar
  · rw [Char.ofNat, dif_pos hn]
    rfl
  · rw [Char.ofNat, dif_neg hn] at hw
    exact absurd rfl hw

theorem lt_of_lowerChar {c w : Char} (h : lowerChar c = w) (hw : w.toNat < 128)
    (hzero : w.toNat ≠ 0) (hi : w.toNat ≠ 105) (hk : w.toNat ≠ 107) : c.toNat < 128 := by
  by_cases hc : c.toNat < 128
  · exact hc
  · rw [lowerChar, if_neg hc] at h
    split at h
    · rename_i run hrun
      have hcontains := List.find?_some hrun
      simp only [CaseRun.contains, Bool.and_eq_true, decide_eq_true_eq] at hcontains
      have hshift := shift_of_mem_caseRuns run (List.mem_of_find?_eq_some hrun)
      have hto := eq_toNat_of_ofNat h hzero
      omega
    · subst h
      exact hw

theorem lt_of_toLower {c w : Char} (h : c.toLower = w) (hw : w.toNat < 128) : c.toNat < 128 := by
  unfold Char.toLower at h
  split at h
  · rename_i hc
    have hle : c.toNat ≤ 90 := hc.2
    omega
  · subst h
    exact hw

/-- Lower case is lower case in both comparisons, `i` and `k` apart. -/
theorem foldChar_of_lowerChar {c w : Char} (h : lowerChar c = w) (hw : w.toNat < 128)
    (hzero : w.toNat ≠ 0) (hi : w.toNat ≠ 105) (hk : w.toNat ≠ 107) : foldChar c = w := by
  have hc := lt_of_lowerChar h hw hzero hi hk
  rw [lowerChar, if_pos hc] at h
  rw [foldChar, if_neg (by omega), if_neg (by omega), h]

theorem lowerChar_of_foldChar {c w : Char} (h : foldChar c = w) (hw : w.toNat < 128)
    (hk : w ≠ 'k') : lowerChar c = w ∨ w = 's' ∧ lowerChar c = 'ſ' := by
  unfold foldChar at h
  split at h
  · rename_i hc
    have hlong : c = 'ſ' := by rw [← Char.ofNat_toNat c, hc]
    subst hlong
    exact .inr ⟨h.symm, by decide +kernel⟩
  · split at h
    · exact absurd h.symm hk
    · left
      rw [lowerChar, if_pos (lt_of_toLower h hw), h]

/-- A word of two characters. -/
theorem eq_pair_of_map {f : Char → Char} {s : String} {a b : Char}
    (h : s.toList.map f = [a, b]) : ∃ c d, s.toList = [c, d] ∧ f c = a ∧ f d = b := by
  match hs : s.toList, h with
  | [c, d], h =>
    simp only [List.map_cons, List.map_nil, List.cons.injEq, and_true] at h
    exact ⟨c, d, rfl, h⟩

theorem matchesWord_sp_of_lower {s : String} (h : lower s = "sp") :
    matchesWord s "sp" = true := by
  have hmap : s.toList.map lowerChar = ['s', 'p'] := by
    have hl := congrArg String.toList h
    simpa [lower] using hl
  obtain ⟨c, d, hs, hc, hd⟩ := eq_pair_of_map hmap
  have hc' := foldChar_of_lowerChar hc (by decide) (by decide) (by decide) (by decide)
  have hd' := foldChar_of_lowerChar hd (by decide) (by decide) (by decide) (by decide)
  simp [matchesWord, hs, hc', hd']

theorem lower_of_matchesWord_sp {s : String} (h : matchesWord s "sp" = true) :
    lower s = "sp" ∨ lower s = "ſp" := by
  have hmap : s.toList.map foldChar = ['s', 'p'] := by simpa [matchesWord] using h
  obtain ⟨c, d, hs, hc, hd⟩ := eq_pair_of_map hmap
  have hd' : lowerChar d = 'p' := by
    rcases lowerChar_of_foldChar hd (by decide) (by decide) with hd' | ⟨hne, _⟩
    · exact hd'
    · exact absurd hne (by decide)
  rcases lowerChar_of_foldChar hc (by decide) (by decide) with hc' | ⟨_, hc'⟩
  · left
    simp [lower, hs, hc', hd']
  · right
    simp [lower, hs, hc', hd']

end Text

/-! ## Effects by shape -/

namespace StackEffect

/-- The effect, by the mnemonic and by which of the operands are `sp`. -/
def ofShape (head : String) (isSP : List Bool) : StackEffect :=
  match head, isSP with
  | "push", _ => { delta := -2 }
  | "pop", _ => { delta := 2 }
  | "inc", [sp] => if sp then { delta := 1 } else {}
  | "dec", [sp] => if sp then { delta := -1 } else {}
  | "ld", [sp, _] => if sp then { untracked := true } else {}
  | "ret", os => { returns := true, terminates := os.isEmpty }
  | "reti", _ | "retn", _ => { returns := true, terminates := true }
  | "jp", os | "jr", os => { terminates := os.length == 1 }
  | _, _ => {}

/-- The mnemonics that leave the stack alone. -/
theorem ofShape_neutral {head : String} (h : head ∉
      ["push", "pop", "inc", "dec", "ld", "ret", "reti", "retn", "jp", "jr"]) (isSP : List Bool) :
    ofShape head isSP = {} := by
  unfold ofShape
  split <;> simp_all

theorem of_eq_ofShape (i : Instruction) :
    of i = ofShape (Text.lower i.head) (i.operands.map (·.isReg "sp")) := by
  unfold of
  generalize Text.lower i.head = head
  rcases i.operands with _ | ⟨o, _ | ⟨o', _ | ⟨o'', os⟩⟩⟩
  all_goals split <;> simp_all [ofShape]

theorem of_neutral {i : Instruction}
    (h : Text.lower i.head ∉
      ["push", "pop", "inc", "dec", "ld", "ret", "reti", "retn", "jp", "jr"]) : of i = {} := by
  rw [of_eq_ofShape, ofShape_neutral h]

/-- Of the operands, only those that are `sp` matter, and how many there are. -/
theorem of_map {i i' : Instruction} {f : Operand → Operand}
    (hhead : Text.lower i'.head = Text.lower i.head) (hoperands : i'.operands = i.operands.map f)
    (hf : ∀ o, (f o).isReg "sp" = o.isReg "sp") : of i' = of i := by
  simp only [of_eq_ofShape, hhead, hoperands, List.map_map, Function.comp_def, hf]

end StackEffect

/-! ## Machine instructions -/

namespace MachineInstr

/-- The change of `sp` in bytes, unless it is loaded.  What a called function
    does to the stack is taken to be undone when it returns. -/
def spDelta : MachineInstr → Option Int
  | .push _ => some (-2)
  | .pop _ => some 2
  | .inc16 .sp => some 1
  | .dec16 .sp => some (-1)
  | .ldSPHL | .ldSPIndex _ | .ldPairImm .sp _ | .ldPairAbs .sp _ => none
  | _ => some 0

/-- The effect of a machine instruction. -/
def effect : MachineInstr → StackEffect
  | .push _ => { delta := -2 }
  | .pop _ => { delta := 2 }
  | .inc16 .sp => { delta := 1 }
  | .dec16 .sp => { delta := -1 }
  | .ldSPHL | .ldSPIndex _ | .ldPairImm .sp _ | .ldPairAbs .sp _ => { untracked := true }
  | .ret | .plain .reti | .plain .retn => { terminates := true, returns := true }
  | .retIf _ => { returns := true }
  | .jp _ | .jr _ | .jpHL | .jpIndex _ => { terminates := true }
  | _ => {}

/-- Control goes on from the instructions that do not end it. -/
theorem goesOn_flow (code : MachineInstr) : code.flow.goesOn = !code.effect.terminates := by
  cases code with
  | plain p => cases p <;> rfl
  | inc16 p | dec16 p | ldPairImm p | ldPairAbs p => cases p <;> rfl
  | _ => rfl

theorem effect_eq_ofShape (code : MachineInstr) :
    code.effect = .ofShape code.form.head (code.form.operands.map (· == .reg "sp")) := by
  cases code with
  | plain p => cases p <;> rfl
  | alu op | rotate op | bit op | aluImm op => cases op <;> rfl
  | inc16 p | dec16 p | ldPairImm p | ldPairAbs p => cases p <;> rfl
  | inc8 loc | dec8 loc =>
    rcases loc with r | ⟨x, h⟩ | (_ | ⟨x, d⟩)
    · cases r <;> rfl
    · cases x <;> cases h <;> rfl
    · rfl
    · rfl
  | ld dst | ldImm dst | load dst => cases dst <;> rfl
  | ldHalves x dst => cases x <;> cases dst <;> rfl
  | ldHalfImm x h => cases x <;> cases h <;> rfl
  | store dst | storeImm dst => cases dst <;> rfl
  | incIndex x | decIndex x | ldIndexImm x | ldIndexAbs x | ldControlA x => cases x <;> rfl
  | _ => rfl

/-- The long s is in no name of a register or condition. -/
theorem long_not_mem_form (code : MachineInstr) : .reg "ſp" ∉ code.form.operands := by
  have hreg (r : Reg8) : "ſp" ≠ r.text := by cases r <;> decide
  have hpair (p : Pair) : "ſp" ≠ p.text := by cases p <;> decide
  have hindex (x : IndexReg) : "ſp" ≠ x.text := by cases x <;> decide
  have hhalf (x : IndexReg) (h : Half) : "ſp" ≠ h.text x := by cases x <;> cases h <;> decide
  have hcond (cc : Condition) : "ſp" ≠ cc.text := by cases cc <;> decide
  have hcontrol (s : ControlReg) : "ſp" ≠ s.text := by cases s <;> decide
  have hstack (q : StackReg) : "ſp" ≠ q.text := by
    rcases q with _ | _ | _ | _ | x
    · decide
    · decide
    · decide
    · decide
    · exact hindex x
  have hregIn (x : IndexReg) (r : Reg8) : "ſp" ≠ r.textIn x := by cases x <;> cases r <;> decide
  have hpairIn (x : IndexReg) (p : Pair) : "ſp" ≠ p.textIn x := by cases x <;> cases p <;> decide
  have hcell (m : Cell) : .reg "ſp" ≠ m.form := by cases m <;> exact nofun
  have hloc (loc : Loc8) : .reg "ſp" ≠ loc.form := by cases loc <;> simp [Loc8.form, *]
  have hbit (t : BitLoc) : .reg "ſp" ≠ t.form := by cases t <;> simp [BitLoc.form, *]
  cases code <;> simp [form, *]

end MachineInstr

namespace StackEffect

/-- The effect that is read off the words is that of the machine instruction. -/
theorem of_assemble {r : Resolver} {i : Instruction} {code : MachineInstr}
    (h : assemble r i = .ok code) : of i = code.effect := by
  obtain ⟨_, hform⟩ := form_of_assemble h
  rw [of_eq_ofShape, code.effect_eq_ofShape, MachineInstr.head_of_assemble h]
  by_cases hacc : Text.lower i.head ∈ Form.accumulatorHeads
  · have hneutral : ∀ head ∈ Form.accumulatorHeads, head ∉
        ["push", "pop", "inc", "dec", "ld", "ret", "reti", "retn", "jp", "jr"] := by decide
    rw [ofShape_neutral (hneutral _ hacc), ofShape_neutral (hneutral _ hacc)]
  · have hoperands : code.form.operands =
        i.operands.map fun o => (i.form r).reduceOperand (o.form r) := by
      rw [hform, Instruction.normal, Form.normal, Form.withoutAccumulator,
        if_neg fun hc => hacc hc.2.1, Instruction.form, List.map_map]
      rfl
    rw [hoperands, List.map_map]
    congr 1
    refine List.map_congr_left fun o ho => ?_
    rw [Function.comp_apply, Bool.eq_iff_iff, beq_iff_eq]
    constructor
    · intro hsp
      cases o with
      | reg name span =>
        rcases Text.lower_of_matchesWord_sp hsp with hlow | hlow
        · exact congrArg _ hlow
        · refine absurd ?_ code.long_not_mem_form
          rw [hoperands, ← hlow]
          exact List.mem_map.mpr ⟨_, ho, rfl⟩
      | _ => cases hsp
    · intro hreg
      obtain ⟨name, span, rfl, hname⟩ := Operand.form_eq_reg (Form.reduceOperand_eq_reg hreg)
      exact Text.matchesWord_sp_of_lower hname

/-- The effect of an instruction that passes control on. -/
def ofChange : Option Int → StackEffect
  | none => { untracked := true }
  | some n => { delta := Int64.ofInt n }

/-- An instruction that passes control on does nothing but change `sp`. -/
theorem ofChange_spDelta {code : MachineInstr} (h : code.flow = .step code) :
    code.effect = ofChange code.spDelta := by
  cases code with
  | plain p => cases p <;> first | rfl | cases h
  | ret | retIf | jp | jpIf | jpHL | jpIndex | jr | jrIf | djnz => cases h
  | inc16 p | dec16 p | ldPairImm p | ldPairAbs p => cases p <;> rfl
  | _ => rfl

end StackEffect

/-! ## The tracker -/

/-- The depth after `sp` changed by a number of bytes, or was loaded. -/
def Depth.move (d : Depth) : Option Int → Depth
  | none => .untracked
  | some n => d.add (Int64.ofInt n)

/-- The tracker follows the machine over instructions that pass control on. -/
theorem Tracker.apply_of_assemble {r : Resolver} {i : Instruction} {code : MachineInstr}
    (t : Tracker) (h : assemble r i = .ok code)
    (hhead : Text.lower i.head ∉ ["jp", "jr", "djnz", "ret", "reti", "retn"]) :
    t.apply i = { depth := t.depth.move code.spDelta, live := t.live } := by
  rw [apply, StackEffect.of_assemble h,
    StackEffect.ofChange_spDelta (MachineInstr.flow_of_assemble h hhead)]
  cases code.spDelta <;> simp [StackEffect.ofChange, Depth.move]

end Z80Backend
