import Z80Backend.Proofs.Assembly.Decoding
import Z80Backend.Proofs.Assembly.Flow
import Z80Backend.Proofs.Assembly.Form

/-! # Instructions read as they were written

    Each group of mnemonics selects an instruction whose form is the normal
    form of what was written.  One lemma for each group says so, in the shape
    `Yields (Reads m args)`, and `form_of_assemble` puts them together.  What a
    machine instruction does is then seen from the words it was written with:
    only the mnemonics of jumps and returns do not pass control on
    (`MachineInstr.flow_of_assemble`). -/

namespace Z80Backend

/-! ## Selections read as written -/

theorem Value.toWord_isNamed (v : Value) : v.toWord.IsNamed := by
  unfold Value.toWord
  split
  · trivial
  · rename_i hc
    intro hempty
    exact hc (beq_iff_eq.2 hempty)

/-- The instruction reads as its operands were written. -/
structure Reads (m : Mnemonic) (args : List Arg) (code : MachineInstr) : Prop where
  known : .other ∉ args
  proper : code.IsProper
  form : code.form = Form.normal ⟨m.text, args.map Arg.form⟩

namespace Selection

variable {head : String} {P : MachineInstr → Prop}

theorem yields_withImm8_of {v : Value} {e : Expr} {f : UInt8 → MachineInstr}
    (h : v.isConst = true → P (f (UInt8.ofInt v.addend.toInt))) :
    Yields P (withImm8 head v e f) := by
  unfold withImm8
  by_cases hc : v.isConst = true
  · rw [if_neg (by simp [hc])]
    exact yields_ite yields_error (yields_found (h hc))
  · rw [if_pos (by simp [hc])]
    exact yields_error

theorem yields_withWord_of {v : Value} {f : Word → MachineInstr}
    (h : ∀ w : Word, w.IsNamed → .ofWord w = v.modulo 65536 → P (f w)) :
    Yields P (withWord head v f) := by
  replace h := h _ v.toWord_isNamed v.ofWord_toWord
  unfold withWord
  unfold Value.toWord at h
  by_cases hc : v.isConst = true
  · rw [if_pos hc] at h
    rw [if_neg (by simp [hc])]
    exact yields_ite yields_error (yields_found h)
  · rw [if_neg hc] at h
    rw [if_pos (by simp [hc])]
    exact yields_found h

theorem yields_if {c : Prop} [Decidable c] {sel : Selection} (h : c → Yields P sel) :
    Yields P (if c then sel else declined) := by
  split
  · exact h ‹c›
  · exact yields_declined

variable {m : Mnemonic} {args : List Arg}

/-- One operand, which names what the instruction has. -/
theorem reads_map {α : Type} {a : Arg} {x : Option α} {f : α → MachineInstr} {text : α → String}
    (h : ∀ {y}, x = some y → a ≠ .other ∧ a.form = .reg (text y)) (hproper : ∀ y, (f y).IsProper)
    (hform : ∀ y, (f y).form = Form.normal ⟨m.text, [.reg (text y)]⟩) :
    Yields (Reads m [a]) (.ok (x.map f)) := by
  intro code hcode
  obtain ⟨y, hy, rfl⟩ := Option.map_eq_some_iff.1 (Except.ok.inj hcode)
  obtain ⟨hknown, ha⟩ := h hy
  exact ⟨by simpa using hknown.symm, hproper y, by rw [hform, List.map_singleton, ha]⟩

/-- An operation of the accumulator, written without it. -/
theorem reads_alu8 {op : AluOp} {a : Arg} : Yields (Reads (.alu op) [a]) (alu8 head op a) := by
  unfold alu8
  split
  · exact yields_found ⟨by simp, trivial, by cases op <;> rfl⟩
  · exact yields_found ⟨by simp, trivial, by cases op <;> rfl⟩
  · rename_i m
    exact yields_found ⟨by simp, trivial, by cases op <;> cases m <;> rfl⟩
  · refine yields_withImm8_of fun hc => ⟨by simp, trivial, ?_⟩
    rw [MachineInstr.form, Value.ofByte_ofInt hc]
    cases op <;> rfl
  · exact yields_declined

/-- Written with the accumulator, an operation has the same normal form. -/
theorem reads_withAccumulator {op : AluOp} {a : Arg} {code : MachineInstr}
    (h : Reads (.alu op) [a] code) : Reads (.alu op) [.reg8 .a, a] code := by
  obtain ⟨hknown, hproper, hform⟩ := h
  have hmem : (Mnemonic.alu op).text ∈ Form.accumulatorHeads := by cases op <;> decide
  exact ⟨by simpa using hknown, hproper, hform.trans (Form.normal_accumulator hmem a.form).symm⟩

theorem reads_alu {op : AluOp} :
    Yields (Reads (.alu op) args) (alu head op args) := by
  unfold alu
  split
  · exact reads_alu8
  · exact fun code hcode => reads_withAccumulator (reads_alu8 code hcode)
  · unfold aluHL
    split
    · split
      · exact yields_found ⟨by simp, trivial, rfl⟩
      · exact yields_found ⟨by simp, trivial, rfl⟩
      · exact yields_found ⟨by simp, trivial, rfl⟩
      · exact yields_declined
    · exact yields_declined
  · unfold aluIndex
    split
    · rename_i x _ p
      split
      · rename_i hp
        obtain ⟨rfl, hp⟩ := hp
        refine yields_found ⟨by simp, trivial, ?_⟩
        cases x <;> cases p <;> first | rfl | exact absurd rfl hp
      · exact yields_declined
    · rename_i x _ y
      split
      · rename_i hy
        obtain ⟨rfl, rfl⟩ := hy
        exact yields_found ⟨by simp, trivial, by cases y <;> rfl⟩
      · exact yields_declined
    · exact yields_declined
  · exact yields_declined

theorem reads_inc : Yields (Reads .inc args) (inc args) := by
  unfold inc
  split
  · exact yields_found ⟨by simp, trivial, rfl⟩
  · exact yields_found ⟨by simp, trivial, rfl⟩
  · rename_i m
    exact yields_found ⟨by simp, trivial, by cases m <;> rfl⟩
  · exact yields_found ⟨by simp, trivial, rfl⟩
  · exact yields_found ⟨by simp, trivial, rfl⟩
  · exact yields_declined

theorem reads_dec : Yields (Reads .dec args) (dec args) := by
  unfold dec
  split
  · exact yields_found ⟨by simp, trivial, rfl⟩
  · exact yields_found ⟨by simp, trivial, rfl⟩
  · rename_i m
    exact yields_found ⟨by simp, trivial, by cases m <;> rfl⟩
  · exact yields_found ⟨by simp, trivial, rfl⟩
  · exact yields_found ⟨by simp, trivial, rfl⟩
  · exact yields_declined

/-- The target of a bit operation, as it was written. -/
theorem form_of_bitLoc {a : Arg} {t : BitLoc} (h : bitLoc? a = some t) :
    (∃ r, a = .reg8 r ∧ t = .reg r) ∨ ∃ m, a = .cell m ∧ t = .cell m := by
  cases a <;> simp [bitLoc?] at h <;> simp [h]

theorem reads_rotate {op : RotateOp} :
    Yields (Reads (.rotate op) args) (rotate op args) := by
  unfold rotate
  split
  · intro code hcode
    obtain ⟨t, ht, rfl⟩ := Option.map_eq_some_iff.1 (Except.ok.inj hcode)
    rcases form_of_bitLoc ht with ⟨r, rfl, rfl⟩ | ⟨m, rfl, rfl⟩
    · exact ⟨by simp, trivial, by cases op <;> rfl⟩
    · exact ⟨by simp, trivial, by cases op <;> cases m <;> rfl⟩
  · exact yields_declined

theorem reads_bit {op : BitOp} :
    Yields (Reads (.bit op) args) (bit head op args) := by
  unfold bit
  split
  · rename_i v e a
    by_cases hc : v.isConst = true
    · rw [if_neg (by simp [hc])]
      split
      · exact yields_error
      rename_i hrange
      obtain ⟨n, hn, hv⟩ : ∃ n : Nat, n < 8 ∧ v.addend.toInt = n := by
        simp only [not_or, Int64.not_lt, Int64.le_iff_toInt_le] at hrange
        obtain ⟨hlow, hhigh⟩ := hrange
        simp at hlow hhigh
        exact ⟨v.addend.toInt.toNat, by omega, by omega⟩
      have hvalue : v.modulo 256 =
          { addend := Int64.ofNat (Fin.ofNat 8 v.addend.toInt.toNat).val } := by
        rw [Value.modulo_of_range hc (by omega) hv, hv, Int.toNat_natCast, Fin.val_ofNat,
          Nat.mod_eq_of_lt hn]
      intro code hcode
      obtain ⟨t, ht, rfl⟩ := Option.map_eq_some_iff.1 (Except.ok.inj hcode)
      rcases form_of_bitLoc ht with ⟨r, rfl, rfl⟩ | ⟨m, rfl, rfl⟩
      · refine ⟨by simp, trivial, ?_⟩
        rw [MachineInstr.form, ← hvalue]
        cases op <;> rfl
      · refine ⟨by simp, trivial, ?_⟩
        rw [MachineInstr.form, ← hvalue]
        cases op <;> cases m <;> rfl
    · rw [if_pos (by simp [hc])]
      exact yields_error
  · exact yields_declined

/-- The condition that an operand names, as it was written. -/
theorem form_of_condition {a : Arg} {cc : Condition} (h : a.condition? = some cc) :
    a ≠ .other ∧ a.form = .reg cc.text := by
  unfold Arg.condition? at h
  split at h
  · cases h
    exact ⟨nofun, rfl⟩
  · cases h
    exact ⟨nofun, rfl⟩
  · cases h

theorem reads_ret : Yields (Reads .ret args) (ret args) := by
  unfold ret
  split
  · exact yields_found ⟨by simp, trivial, rfl⟩
  · exact reads_map form_of_condition (fun _ => trivial) fun _ => rfl
  · exact yields_declined

theorem reads_jp : Yields (Reads .jp args) (jp head args) := by
  unfold jp
  split
  · refine yields_withWord_of fun w hw hv => ⟨by simp, hw, ?_⟩
    rw [MachineInstr.form, hv]
    rfl
  · exact yields_found ⟨by simp, trivial, rfl⟩
  · refine yields_if fun hd => ?_
    subst hd
    exact yields_found ⟨by simp, trivial, rfl⟩
  · rename_i a v e
    split
    · rename_i cc hcc
      obtain ⟨hknown, hform⟩ := form_of_condition hcc
      refine yields_withWord_of fun w hw hv => ⟨by simpa using hknown.symm, hw, ?_⟩
      rw [MachineInstr.form, hv, List.map_cons, hform]
      rfl
    · exact yields_declined
  · exact yields_declined

theorem reads_call : Yields (Reads .call args) (call head args) := by
  unfold call
  split
  · refine yields_withWord_of fun w hw hv => ⟨by simp, hw, ?_⟩
    rw [MachineInstr.form, hv]
    rfl
  · rename_i a v e
    split
    · rename_i cc hcc
      obtain ⟨hknown, hform⟩ := form_of_condition hcc
      refine yields_withWord_of fun w hw hv => ⟨by simpa using hknown.symm, hw, ?_⟩
      rw [MachineInstr.form, hv, List.map_cons, hform]
      rfl
    · exact yields_declined
  · exact yields_declined

theorem reads_jr : Yields (Reads .jr args) (jr args) := by
  unfold jr
  split
  · exact yields_found ⟨by simp, trivial, rfl⟩
  · rename_i a v e
    split
    · rename_i cc hcc
      obtain ⟨hknown, hform⟩ := form_of_condition hcc
      split
      · rename_i hshort
        refine yields_found ⟨by simpa using hknown.symm, hshort, ?_⟩
        rw [List.map_cons, hform]
        rfl
      · exact yields_error
    · exact yields_declined
  · exact yields_declined

theorem reads_djnz : Yields (Reads .djnz args) (djnz args) := by
  unfold djnz
  split
  · exact yields_found ⟨by simp, trivial, rfl⟩
  · exact yields_declined

theorem reads_rst : Yields (Reads .rst args) (rst args) := by
  unfold rst
  split
  · rename_i v e
    by_cases hc : v.isConst = true
    · rw [if_neg (by simp [hc])]
      split
      · exact yields_error
      rename_i hrange
      obtain ⟨n, hn, hdvd, hv⟩ : ∃ n : Nat, n ≤ 0x38 ∧ n % 8 = 0 ∧ v.addend.toInt = n := by
        simp only [not_or, Int64.not_lt, Int64.le_iff_toInt_le, ne_eq, Classical.not_not] at hrange
        obtain ⟨hlow, hhigh, hmod⟩ := hrange
        have hmod' := congrArg Int64.toInt hmod
        rw [Int64.toInt_mod, Int.tmod_eq_emod_of_nonneg hlow] at hmod'
        simp at hlow hhigh hmod'
        exact ⟨v.addend.toInt.toNat, by omega, by omega, by omega⟩
      have hvalue : v.modulo 256 =
          { addend := Int64.ofNat (8 * (Fin.ofNat 8 (v.addend.toInt.toNat / 8)).val) } := by
        have heq : 8 * (n / 8 % 8) = n := by omega
        rw [Value.modulo_of_range hc (by omega) hv, hv, Int.toNat_natCast, Fin.val_ofNat, heq]
      refine yields_found ⟨by simp, trivial, ?_⟩
      rw [MachineInstr.form, ← hvalue]
      rfl
    · rw [if_pos (by simp [hc])]
      exact yields_error
  · exact yields_declined

theorem reads_im : Yields (Reads .im args) (im args) := by
  unfold im
  split
  · rename_i v e
    by_cases hc : v.isConst = true
    · rw [if_neg (by simp [hc])]
      have himm : ∀ n : Fin 3, v.addend = Int64.ofNat n.val → Reads .im [.imm v e] (.im n) := by
        intro n hn
        refine ⟨by simp, trivial, ?_⟩
        have hv : v.addend.toInt = n.val := by
          have htoInt : ∀ n : Fin 3, (Int64.ofNat n.val).toInt = n.val := by decide
          rw [hn, htoInt]
        have hlt : n.val < 256 := by omega
        rw [MachineInstr.form, ← Value.modulo_of_range hc hlt hv]
        rfl
      split
      · rename_i h0
        exact yields_found (himm 0 h0)
      split
      · rename_i h1
        exact yields_found (himm 1 h1)
      split
      · rename_i h2
        exact yields_found (himm 2 h2)
      · exact yields_error
    · rw [if_pos (by simp [hc])]
      exact yields_error
  · exact yields_declined

/-- The register that is pushed or popped, as it was written. -/
theorem form_of_stackReg {a : Arg} {x : StackReg} (h : stackReg? a = some x) :
    a ≠ .other ∧ a.form = .reg x.text := by
  unfold stackReg? at h
  split at h <;> cases h <;> exact ⟨nofun, rfl⟩

theorem reads_push : Yields (Reads .push args) (push args) := by
  unfold push
  split
  · exact reads_map form_of_stackReg (fun _ => trivial) fun _ => rfl
  · exact yields_declined

theorem reads_pop : Yields (Reads .pop args) (pop args) := by
  unfold pop
  split
  · exact reads_map form_of_stackReg (fun _ => trivial) fun _ => rfl
  · exact yields_declined

theorem reads_ex : Yields (Reads .ex args) (ex args) := by
  unfold ex
  split
  · exact yields_found ⟨by simp, trivial, rfl⟩
  · exact yields_found ⟨by simp, trivial, rfl⟩
  · exact yields_found ⟨by simp, trivial, rfl⟩
  · rename_i x
    exact yields_found ⟨by simp, trivial, rfl⟩
  · exact yields_declined

theorem form_of_portValue {a : Arg} {v : Value} {e : Expr} (h : portValue? a = some (v, e)) :
    a ≠ .other ∧ (a.form = .port v ∨ a.form = .abs v) := by
  unfold portValue? at h
  split at h
  · cases h
    exact ⟨nofun, .inl rfl⟩
  · split at h
    · cases h
      exact ⟨nofun, .inr rfl⟩
    · cases h
  · cases h

theorem reads_input : Yields (Reads .input args) (input head args) := by
  unfold input
  split
  · rename_i r
    exact yields_found ⟨by simp, trivial, rfl⟩
  · rename_i p _
    split
    · rename_i v e hp
      obtain ⟨hknown, hform⟩ := form_of_portValue hp
      refine yields_withImm8_of fun hc => ⟨by simpa using hknown.symm, trivial, ?_⟩
      rw [MachineInstr.form, Value.ofByte_ofInt hc, List.map_cons, List.map_singleton]
      rcases hform with hform | hform <;> rw [hform] <;> rfl
    · exact yields_declined
  · exact yields_declined

theorem reads_output : Yields (Reads .output args) (output head args) := by
  unfold output
  split
  · rename_i r
    exact yields_found ⟨by simp, trivial, rfl⟩
  · rename_i p _
    split
    · rename_i v e hp
      obtain ⟨hknown, hform⟩ := form_of_portValue hp
      refine yields_withImm8_of fun hc => ⟨by simpa using hknown.symm, trivial, ?_⟩
      rw [MachineInstr.form, Value.ofByte_ofInt hc, List.map_cons, List.map_singleton]
      rcases hform with hform | hform <;> rw [hform] <;> rfl
    · exact yields_declined
  · exact yields_declined

/-! ### Loads -/

theorem reads_ldReg {dst : Reg8} {src : Arg} :
    Yields (Reads .ld [.reg8 dst, src]) (ldReg head dst src) := by
  unfold ldReg
  split
  · exact yields_found ⟨by simp, trivial, by cases dst <;> rfl⟩
  · rename_i x h
    split
    · exact yields_declined
    · rename_i hdst
      refine yields_found ⟨by simp, trivial, ?_⟩
      cases h <;> cases dst <;> first | rfl | simp at hdst
  · refine yields_withImm8_of fun hc => ⟨by simp, trivial, ?_⟩
    rw [MachineInstr.form, Value.ofByte_ofInt hc]
    cases dst <;> rfl
  · rename_i m
    exact yields_found ⟨by simp, trivial, by cases m <;> cases dst <;> rfl⟩
  · refine yields_if fun hdst => ?_
    subst hdst
    exact yields_found ⟨by simp, trivial, rfl⟩
  · refine yields_if fun hdst => ?_
    subst hdst
    exact yields_found ⟨by simp, trivial, rfl⟩
  · rename_i v e
    split
    · rename_i hdst
      subst hdst
      refine yields_withWord_of fun w hw hv => ⟨by simp, hw, ?_⟩
      rw [MachineInstr.form, hv]
      rfl
    · exact yields_declined
  · refine yields_if fun hdst => ?_
    subst hdst
    exact yields_found ⟨by simp, trivial, rfl⟩
  · exact yields_declined

theorem reads_ldHalf {x : IndexReg} {dst : Half} {src : Arg} :
    Yields (Reads .ld [.half x dst, src]) (ldHalf head x dst src) := by
  unfold ldHalf
  split
  · rename_i src
    split
    · exact yields_declined
    · rename_i hsrc
      refine yields_found ⟨by simp, trivial, ?_⟩
      cases dst <;> cases src <;> first | rfl | simp at hsrc
  · rename_i y h
    refine yields_if fun hy => ?_
    subst hy
    exact yields_found ⟨by simp, trivial, by cases dst <;> cases h <;> rfl⟩
  · refine yields_withImm8_of fun hc => ⟨by simp, trivial, ?_⟩
    rw [MachineInstr.form, Value.ofByte_ofInt hc]
    cases x <;> cases dst <;> rfl
  · exact yields_declined

theorem reads_ldCell {dst : Cell} {src : Arg} :
    Yields (Reads .ld [.cell dst, src]) (ldCell head dst src) := by
  unfold ldCell
  split
  · exact yields_found ⟨by simp, trivial, by cases dst <;> rfl⟩
  · refine yields_withImm8_of fun hc => ⟨by simp, trivial, ?_⟩
    rw [MachineInstr.form, Value.ofByte_ofInt hc]
    cases dst <;> rfl
  · exact yields_declined

theorem reads_ldAbs {v : Value} {e : Expr} {src : Arg} :
    Yields (Reads .ld [.memAbs v e, src]) (ldAbs head v src) := by
  unfold ldAbs
  split
  · refine yields_withWord_of fun w hw hv => ⟨by simp, hw, ?_⟩
    rw [MachineInstr.form, hv]
    rfl
  · refine yields_withWord_of fun w hw hv => ⟨by simp, hw, ?_⟩
    rw [MachineInstr.form, hv]
    rfl
  · refine yields_withWord_of fun w hw hv => ⟨by simp, hw, ?_⟩
    rw [MachineInstr.form, hv]
    rfl
  · exact yields_declined

theorem reads_ldPair {dst : Pair} {src : Arg} :
    Yields (Reads .ld [.pair dst, src]) (ldPair head dst src) := by
  unfold ldPair
  split
  · refine yields_withWord_of fun w hw hv => ⟨by simp, hw, ?_⟩
    rw [MachineInstr.form, hv]
    cases dst <;> rfl
  · refine yields_withWord_of fun w hw hv => ⟨by simp, hw, ?_⟩
    rw [MachineInstr.form, hv]
    cases dst <;> rfl
  · refine yields_if fun hdst => ?_
    subst hdst
    exact yields_found ⟨by simp, trivial, rfl⟩
  · refine yields_if fun hdst => ?_
    subst hdst
    exact yields_found ⟨by simp, trivial, rfl⟩
  · exact yields_declined

theorem reads_ldIndex {dst : IndexReg} {src : Arg} :
    Yields (Reads .ld [.index dst, src]) (ldIndex head dst src) := by
  unfold ldIndex
  split
  · refine yields_withWord_of fun w hw hv => ⟨by simp, hw, ?_⟩
    rw [MachineInstr.form, hv]
    cases dst <;> rfl
  · refine yields_withWord_of fun w hw hv => ⟨by simp, hw, ?_⟩
    rw [MachineInstr.form, hv]
    cases dst <;> rfl
  · exact yields_declined

theorem reads_ld : Yields (Reads .ld args) (ld head args) := by
  unfold ld
  split
  · exact reads_ldReg
  · exact reads_ldHalf
  · exact reads_ldCell
  · exact yields_found ⟨by simp, trivial, rfl⟩
  · exact yields_found ⟨by simp, trivial, rfl⟩
  · exact reads_ldAbs
  · rename_i c
    exact yields_found ⟨by simp, trivial, by cases c <;> rfl⟩
  · exact reads_ldPair
  · exact reads_ldIndex
  · exact yields_declined

/-- Whatever a mnemonic selects reads as it was written. -/
theorem reads_ofMnemonic : Yields (Reads m args) (ofMnemonic head args m) := by
  cases m with
  | alu op => exact reads_alu
  | rotate op => exact reads_rotate
  | bit op => exact reads_bit
  | ret => exact reads_ret
  | jp => exact reads_jp
  | call => exact reads_call
  | jr => exact reads_jr
  | djnz => exact reads_djnz
  | inc => exact reads_inc
  | dec => exact reads_dec
  | push => exact reads_push
  | pop => exact reads_pop
  | ex => exact reads_ex
  | ld => exact reads_ld
  | input => exact reads_input
  | output => exact reads_output
  | rst => exact reads_rst
  | im => exact reads_im
  | plain p =>
    cases args with
    | nil => exact yields_found ⟨by simp, trivial, rfl⟩
    | cons a as => exact yields_declined

end Selection

/-- An assembled instruction has the normal form of what was written. -/
theorem form_of_assemble {r : Resolver} {i : Instruction} {code : MachineInstr}
    (h : assemble r i = .ok code) : code.IsProper ∧ code.form = i.normal r := by
  obtain ⟨m, args, hm, hargs, hsel⟩ := assemble_eq_ok h
  obtain ⟨hknown, hproper, hform⟩ := Selection.reads_ofMnemonic code hsel
  refine ⟨hproper, ?_⟩
  rw [hform, Mnemonic.text_of_ofName? hm, Arg.form_ofOperands hargs hknown]
  rfl

namespace MachineInstr

theorem head_of_assemble {r : Resolver} {i : Instruction} {code : MachineInstr}
    (h : assemble r i = .ok code) : code.form.head = Text.lower i.head := by
  rw [(form_of_assemble h).2]
  rfl

/-- Only jumps and returns do not pass control on. -/
theorem flow_of_assemble {r : Resolver} {i : Instruction} {code : MachineInstr}
    (h : assemble r i = .ok code)
    (hhead : Text.lower i.head ∉ ["jp", "jr", "djnz", "ret", "reti", "retn"]) :
    code.flow = .step code := by
  rw [← head_of_assemble h] at hhead
  cases code with
  | ret | retIf | jp | jpIf | jpHL | jpIndex | jr | jrIf | djnz =>
    exact absurd (by simp [form]) hhead
  | plain p => cases p <;> first | rfl | exact absurd (by decide) hhead
  | _ => rfl

/-- The codes of returns from interrupts. -/
theorem interruptReturn_of_assemble {r : Resolver} {i : Instruction} {code : MachineInstr}
    (h : assemble r i = .ok code)
    (hhead : Text.lower i.head = "reti" ∨ Text.lower i.head = "retn") :
    code = .plain .reti ∨ code = .plain .retn := by
  rw [← head_of_assemble h] at hhead
  cases code with
  | plain p => cases p <;> first | exact .inl rfl | exact .inr rfl | exact absurd hhead (by decide)
  | alu op | rotate op | bit op | aluImm op =>
    cases op <;> simp [form, Mnemonic.text] at hhead
  | _ => simp [form] at hhead

end MachineInstr

end Z80Backend
