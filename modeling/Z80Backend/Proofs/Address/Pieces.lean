import Z80Backend.Proofs.Address.Meaning
import Z80Backend.Proofs.Address.Scaling

/-! # The pieces of address code

    Besides scaling, address code is put together from a few pieces: `hl` plus
    a constant, a frame location in `hl`, a base in `de`, an index in `hl`.
    Each piece is tidy and leaves what it is named for; this file says so once
    for each of them.

    * `supplies_of_baseCode`: a base arrives in `de`.
    * `fetches_reg8` to `fetches_memIndexed`: an index without inner addresses
      arrives in `hl`. -/

namespace Z80Backend

namespace Address

variable {σ : String → UInt16}

/-! ## Constants and frame locations -/

theorem tidy_addOffset (off : Int64) : Tidy (addOffset off) 0 := by
  apply Tidy.quiet
  unfold addOffset
  split <;> simp [Step.isQuiet]

theorem hl_addOffset (off : Int64) (s : Cpu) :
    (Step.run σ (addOffset off) s).hl = s.hl + imm off := by
  unfold addOffset
  split
  case isTrue h => simp [h]
  case isFalse h => rfl

theorem tidy_framePointer (d : Int64) : Tidy (framePointer d) 2 :=
  (Tidy.nil.saved (.index .ix) (.inl rfl)).append
    (.quiet (p := [.ldWord .de d, .addHL .de]) (by simp [Step.isQuiet]))

theorem hl_framePointer (d : Int64) (s : Cpu) :
    (Step.run σ (framePointer d) s).hl = s.ix + imm d := by
  show (s.push s.ix).wordAt (s.sp - 2) + imm d = s.ix + imm d
  rw [s.wordAt_push]

/-- The word in a slot, brought to a pair byte by byte. -/
theorem run_fetchSlot (r : WordReg) (d : Int64) (s : Cpu) :
    Step.run σ [.loadByte r.low (.slot d), .loadByte r.high (.slot (d + 1))] s =
      s.setWord r (s.wordAt (s.ix + imm d)) := by
  have hnext : s.ix + imm (d + 1) = s.ix + imm d + 1 := by
    rw [imm_add, UInt16.add_assoc]
    rfl
  cases r <;>
    simp [Step.exec, WordReg.low, WordReg.high, MemRef.slot, Cpu.setByte, Cpu.setWord, Cpu.wordAt,
      hnext]

/-! ## Bases -/

/-- Code that brings a base to `de` with at most one word of stack. -/
structure Supplies (σ : String → UInt16) (c : BaseCode) (b : Base) (k : Nat) : Prop where
  le_two : k ≤ 2
  tidy : Tidy c.steps k
  de : ∀ s, (∀ x ∈ b.cells s, ¬ Below s.sp k x) → (Step.run σ c.steps s).de = b.address σ s
  hl : c.clobbersHL = false → ∀ s, (Step.run σ c.steps s).hl = s.hl

theorem supplies_of_baseCode {b : Base} {c : BaseCode} (h : baseCode b = .ok c) :
    (∀ name, b.origin ≠ .reg name) ∧ ∃ k, Supplies σ c b k := by
  obtain ⟨o, off⟩ := b
  unfold baseCode at h
  cases o with
  | unknown k => simp at h
  | reg name => simp at h
  | global sym =>
    cases h
    exact ⟨by simp, 0, by omega, .quiet (by simp [Step.isQuiet]), fun s _ => rfl, fun _ s => rfl⟩
  | frame d =>
    cases h
    refine ⟨by simp, 2, by omega, (tidy_framePointer _).append (.step rfl), fun s _ => ?_, by simp⟩
    rw [Step.run_append]
    show (Step.run σ (framePointer (d + off)) s).hl = _
    rw [hl_framePointer, imm_add]
    simp [Base.address, UInt16.add_assoc]
  | pointer d =>
    refine ⟨by simp, 0, ?_⟩
    simp only at h
    split at h
    · simp at h
    have hfetch : ∀ s : Cpu,
        Step.run σ [.loadByte .e (.slot d), .loadByte .d (.slot (d + 1))] s =
          { s with de := s.wordAt (s.ix + imm d) } := run_fetchSlot .de d
    split at h
    case isTrue h0 =>
      cases h
      refine ⟨by omega, .quiet (by simp [Step.isQuiet]), fun s _ => ?_, fun _ s => ?_⟩
      · simp only [hfetch, Base.address, h0, imm_zero, UInt16.add_zero]
      · simp only [hfetch]
    case isFalse h0 =>
      cases h
      refine ⟨by omega, .quiet (by simp [Step.isQuiet]), fun s _ => ?_, by simp⟩
      rw [Step.run_append, hfetch]
      rfl

/-! ## Indexes -/

/-- Code that brings a value to `hl` as long as its pushes stay clear of the
    cells consulted. -/
structure Brings (σ : String → UInt16) (steps : List Step) (k : Nat) (value : Cpu → UInt16)
    (cells : Cpu → List UInt16) : Prop where
  tidy : Tidy steps k
  hl : ∀ s, (∀ x ∈ cells s, ¬ Below s.sp k x) → (Step.run σ steps s).hl = value s

/-- Code that brings an index to `hl`. -/
structure Fetches (σ : String → UInt16) (c : IndexCode) (e : IndexTree) (k : Nat) : Prop
    extends Brings σ c.steps k (e.value σ) (e.cells σ) where
  de : c.usesDE = false → ∀ s, (Step.run σ c.steps s).de = s.de
  readsHL : e.readsHL = true → (c.usesDE || c.readsHL) = true
  readsDE : e.readsDE = true → (c.usesDE || c.readsDE) = true
  /-- More than one word of stack is used only for cells in memory. -/
  room : k ≤ 2 ∨ ∀ s, e.cells σ s ≠ []

/-- Quiet code that does not touch `de` fetches an index if it leaves it. -/
theorem Fetches.of_quiet {c : IndexCode} {e : IndexTree} (hq : c.steps.all Step.isQuiet = true)
    (hhl : ∀ s, (Step.run σ c.steps s).hl = e.value σ s)
    (hde : ∀ s, (Step.run σ c.steps s).de = s.de)
    (hrhl : e.readsHL = true → (c.usesDE || c.readsHL) = true)
    (hrde : e.readsDE = true → (c.usesDE || c.readsDE) = true) : Fetches σ c e 0 where
  tidy := .quiet (List.all_eq_true.1 hq)
  hl s _ := hhl s
  de _ s := hde s
  readsHL := hrhl
  readsDE := hrde
  room := .inl (by omega)

theorem fetches_const (n : Int64) : Fetches σ { steps := [.ldWord .hl n] } (.const n) 0 :=
  .of_quiet rfl (fun _ => rfl) (fun _ => rfl) nofun nofun

theorem fetches_regCode {name : String} {r : Reg8} (h : Reg8.ofName? name = some r) :
    Fetches σ (regCode r) (.reg8 name) 0 := by
  have hval : ∀ s : Cpu, (IndexTree.reg8 name).value σ s = wordOf 0 (s.byte r) := by
    intro s
    rw [wordOf_zero]
    simp [IndexTree.value, h]
  have hname := Reg8.text_of_ofName? h
  subst hname
  cases r with
  | a | b | c | d | e | h | l =>
    refine .of_quiet rfl (fun s => ?_) (fun s => ?_) (by decide) (by decide)
    · rw [hval]
      simp [regCode, Step.exec, Cpu.setByte, Cpu.byte]
    · simp [regCode, Step.exec, Cpu.setByte]

theorem fetches_reg8 {name : String} {c : IndexCode} (h : indexCode (.reg8 name) = .ok c) :
    Fetches σ c (.reg8 name) 0 := by
  unfold indexCode at h
  cases hr : Reg8.ofName? name with
  | none => simp [hr] at h
  | some r =>
    simp only [hr] at h
    cases h
    exact fetches_regCode hr

/-- An index register goes through the stack. -/
theorem fetches_indexReg (x : IndexReg) :
    Fetches σ { steps := [.push (.index x), .pop .hl] } (.reg16 x.text) 2 where
  tidy := Tidy.nil.saved (.index x) (.inl rfl)
  hl s _ := by
    show (s.push (s.stacked (.index x))).wordAt (s.sp - 2) = s.named x.text
    rw [s.wordAt_push]
    cases x <;> rfl
  de _ s := rfl
  readsHL := by cases x <;> decide
  readsDE := by cases x <;> decide
  room := .inl (by omega)

/-- The 16-bit registers that an index may be in. -/
theorem name_of_reg16 {name : String} {c : IndexCode} (h : indexCode (.reg16 name) = .ok c) :
    name = "hl" ∨ name = "de" ∨ name = "bc" ∨ name = "ix" ∨ name = "iy" := by
  unfold indexCode at h
  split at h <;> simp_all

theorem fetches_reg16 {name : String} {c : IndexCode} (h : indexCode (.reg16 name) = .ok c) :
    ∃ k, Fetches σ c (.reg16 name) k := by
  rcases name_of_reg16 h with rfl | rfl | rfl | rfl | rfl
  · cases h
    exact ⟨0, .of_quiet rfl (fun _ => rfl) (fun _ => rfl) (fun _ => rfl) (by decide)⟩
  · cases h
    refine ⟨0, .of_quiet rfl (fun s => ?_) (fun _ => rfl) (by decide) (fun _ => rfl)⟩
    simp [Step.exec, Cpu.setByte, Cpu.byte, IndexTree.value, Cpu.named]
  · cases h
    refine ⟨0, .of_quiet rfl (fun s => ?_) (fun _ => rfl) (by decide) (by decide)⟩
    simp [Step.exec, Cpu.setByte, Cpu.byte, IndexTree.value, Cpu.named]
  · cases h
    exact ⟨2, fetches_indexReg .ix⟩
  · cases h
    exact ⟨2, fetches_indexReg .iy⟩

theorem read_byte (s : Cpu) (x : UInt16) : s.read true x = wordOf 0 (s.mem x) := by
  rw [wordOf_zero]
  rfl

/-- The word at a symbol; a byte is what is left of it once `h` is cleared. -/
theorem fetches_global {sym : String} {off : Int64} {isByte : Bool} {c : IndexCode}
    (h : indexCode (.global sym off isByte) = .ok c) : Fetches σ c (.global sym off isByte) 0 := by
  cases h
  cases isByte with
  | false => exact .of_quiet rfl (fun _ => rfl) (fun _ => rfl) nofun nofun
  | true =>
    refine .of_quiet rfl (fun s => ?_) (fun s => ?_) nofun nofun
    · simp [Step.exec, Cpu.setByte, Cpu.setWord, Cpu.wordAt, MemRef.addr, IndexTree.value,
        read_byte]
    · simp [Step.exec, Cpu.setByte, Cpu.setWord]

/-- The value in a slot.  A word changes places with `de` while it is
    fetched. -/
theorem fetches_slot {d : Int64} {isByte : Bool} {c : IndexCode}
    (h : indexCode (.slot d isByte) = .ok c) : Fetches σ c (.slot d isByte) 0 := by
  cases isByte with
  | true =>
    cases h
    refine .of_quiet rfl (fun s => ?_) (fun s => ?_) (by simp [IndexTree.readsHL])
      (by simp [IndexTree.readsDE])
    · simp [Step.exec, Cpu.setByte, MemRef.slot, IndexTree.value, read_byte]
    · simp [Step.exec, Cpu.setByte]
  | false =>
    have hfetch : ∀ s : Cpu, Step.run σ
        [.exDEHL, .loadByte .e (.slot d), .loadByte .d (.slot (d + 1)), .exDEHL] s =
          { s with hl := s.wordAt (s.ix + imm d) } := by
      intro s
      exact congrArg (Step.exec σ · .exDEHL) (run_fetchSlot .de d { s with de := s.hl, hl := s.de })
    unfold indexCode at h
    simp only at h
    split at h
    · simp at h
    cases h
    refine .of_quiet rfl (fun s => ?_) (fun s => ?_) (by simp [IndexTree.readsHL])
      (by simp [IndexTree.readsDE])
    · simp only [hfetch]
      rfl
    · simp only [hfetch]

theorem fetches_memHL : Fetches σ
    { steps := [.loadByte .l .hl, .ldByte .h 0], readsHL := true } .memHL 0 := by
  refine .of_quiet rfl (fun s => ?_) (fun s => ?_) (fun _ => rfl) nofun
  · simp [Step.exec, Cpu.setByte, IndexTree.value, read_byte]
  · simp [Step.exec, Cpu.setByte]

theorem fetches_memIndexed (reg : String) (d : Int64) : Fetches σ
    { steps := [.ldByte .h 0, .loadByte .l (.indexed (if reg = "" then "ix" else reg) d)] }
    (.memIndexed reg d) 0 := by
  refine .of_quiet rfl (fun s => ?_) (fun s => ?_) nofun nofun
  · by_cases hempty : reg = ""
    · have hix : s.indexReg "" = s.ix := if_neg (by decide)
      simp [Step.exec, Cpu.setByte, IndexTree.value, read_byte, hempty, hix]
    · simp [Step.exec, Cpu.setByte, Cpu.indexReg, IndexTree.value, read_byte, hempty]
  · simp [Step.exec, Cpu.setByte]

end Address

end Z80Backend
