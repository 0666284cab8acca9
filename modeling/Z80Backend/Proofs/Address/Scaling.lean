import Mathlib.Algebra.Group.Nat.Defs
import Z80Backend.Proofs.Address.Machine

/-! # Multiplying `hl` by a constant

    Scaling takes `hl` to a positive constant times `hl`, modulo `2 ^ 16`.  A
    power of two takes doublings.  Any other constant is gone through from its
    highest bit down, with `de` as a copy of the value: after each bit, `hl` is
    `de` times the bits seen so far, so the loop starts with `hl` as it is and
    one bit below the top.

    * `run_doublings` and `run_doubleAndAdd`: what the two kinds of code do.
    * `and_sub_one_eq_zero_iff`: the test that tells the kinds apart.
    * `run_scaleHL`: the effect on `hl` and `de`, and the stack it takes.
    * `scaleHL_multiplies`: the effect on all registers. -/

namespace Z80Backend

namespace Address

variable {σ : String → UInt16}

/-! ## Doublings and additions -/

/-- Doublings multiply by a power of two. -/
theorem run_doublings (k : Nat) (s : Cpu) :
    Step.run σ (List.replicate k (.addHL .hl)) s =
      { s with hl := s.hl * UInt16.ofNat (2 ^ k) } := by
  induction k generalizing s with
  | zero => simp
  | succ k ih =>
    have hdouble : (s.hl + s.hl) * UInt16.ofNat (2 ^ k) = s.hl * UInt16.ofNat (2 ^ (k + 1)) := by
      rw [Nat.pow_succ, UInt16.ofNat_mul]
      grind
    rw [List.replicate_succ, Step.run_cons, ih]
    simp only [Step.exec, Cpu.word, hdouble]

/-- The bits above `k`, doubled, and bit `k` are the bits from `k` up. -/
theorem div_two_pow_eq (n k : Nat) :
    n / 2 ^ k = 2 * (n / 2 ^ (k + 1)) + (n.testBit k).toNat := by
  rw [Nat.toNat_testBit, Nat.pow_succ, ← Nat.div_div_eq_div_mul]
  omega

/-- With the high bits of `n` times `de` in `hl`, going through the other `k`
    bits leaves all of `n` times `de`. -/
theorem run_doubleAndAdd (n k : Nat) (s : Cpu) (hs : s.hl = s.de * UInt16.ofNat (n / 2 ^ k)) :
    Step.run σ (doubleAndAdd n k) s = { s with hl := s.de * UInt16.ofNat n } := by
  induction k generalizing s with
  | zero =>
    rw [Nat.pow_zero, Nat.div_one] at hs
    rw [← hs]
    rfl
  | succ k ih =>
    have hbits := div_two_pow_eq n k
    unfold doubleAndAdd
    rw [Step.run_cons, Step.run_append]
    cases hb : n.testBit k with
    | true =>
      rw [hb] at hbits
      rw [ih]
      · rfl
      · simp only [if_true, Step.run_cons, Step.run_nil, Step.exec, Cpu.word, hs, hbits,
          UInt16.ofNat_add, UInt16.ofNat_mul]
        simp
        grind
    | false =>
      rw [hb] at hbits
      rw [ih]
      · rfl
      · simp only [Bool.false_eq_true, if_false, Step.run_nil, Step.exec, Cpu.word, hs, hbits,
          UInt16.ofNat_add, UInt16.ofNat_mul]
        simp
        grind

/-! ## Powers of two -/

/-- The bits of a positive number are the number. -/
theorem toNat_toUInt64 {n : Int64} (hn : 0 < n) : n.toUInt64.toNat = n.toInt.toNat :=
  Int64.toNat_toUInt64_of_le (Int64.le_of_lt hn)

/-- A positive immediate as a number. -/
theorem imm_eq_ofNat {n : Int64} (hn : 0 < n) : imm n = UInt16.ofNat n.toInt.toNat := by
  rw [← toNat_toUInt64 hn]
  rfl

/-- A positive number shares no bit with its predecessor just when it is a
    power of two. -/
theorem and_sub_one_eq_zero_iff {n : Int64} (hn : 0 < n) :
    n &&& (n - 1) = 0 ↔ n.toInt.toNat.isPowerOfTwo := by
  have hnat := toNat_toUInt64 hn
  have hpos : 0 < n.toInt := Int64.lt_iff_toInt_lt.1 hn
  have hsub : (n - 1).toUInt64.toNat = n.toInt.toNat - 1 := by
    show (n.toUInt64 - 1).toNat = _
    rw [UInt64.toNat_sub_of_le, hnat]
    · rfl
    · rw [UInt64.le_iff_toNat_le]
      show 1 ≤ _
      omega
  have hand : (n &&& (n - 1)).toUInt64.toNat = n.toInt.toNat &&& (n.toInt.toNat - 1) := by
    show (n.toUInt64 &&& (n - 1).toUInt64).toNat = _
    rw [UInt64.toNat_and, hnat, hsub]
  rw [← Nat.and_sub_one_eq_zero_iff_isPowerOfTwo (by omega), ← hand]
  constructor
  · intro h
    rw [h]
    rfl
  · intro h
    have hzero : (n &&& (n - 1)).toUInt64 = 0 := UInt64.toNat_inj.1 h
    exact congrArg Int64.ofUInt64 hzero

/-! ## Scaling -/

/-- `hl` is copied to `de` and multiplied from there. -/
theorem run_multiply {n : Nat} (hn : n ≠ 0) (s : Cpu) :
    Step.run σ ([Step.ldReg .d .h, .ldReg .e .l] ++ doubleAndAdd n n.log2) s =
      { s with de := s.hl, hl := s.hl * UInt16.ofNat n } := by
  have hcopy : Step.run σ [.ldReg .d .h, .ldReg .e .l] s = { s with de := s.hl } := by
    simp [Step.exec, Cpu.setByte, Cpu.byte]
  have htop : n / 2 ^ n.log2 = 1 := by
    have hle := Nat.log2_self_le hn
    have hlt := Nat.lt_log2_self (n := n)
    rw [Nat.pow_succ] at hlt
    exact Nat.div_eq_of_lt_le (by omega) (by omega)
  rw [Step.run_append, hcopy, run_doubleAndAdd]
  simp [htop]

theorem isQuiet_of_mem_doubleAndAdd {n k : Nat} {st : Step} (h : st ∈ doubleAndAdd n k) :
    st.isQuiet = true := by
  induction k with
  | zero => simp [doubleAndAdd] at h
  | succ k ih =>
    unfold doubleAndAdd at h
    rw [List.mem_cons, List.mem_append] at h
    rcases h with rfl | h | h
    · rfl
    · split at h
      · rw [List.mem_singleton.1 h]
        rfl
      · simp at h
    · exact ih h

/-- Scaling multiplies `hl`.  It keeps `de` when asked to, and when it takes
    doublings only. -/
theorem run_scaleHL {scale : Int64} (hs : 0 < scale) (keepDE : Bool) :
    ∃ k ≤ 2, Tidy (scaleHL scale keepDE) k ∧
      ∀ σ s, (Step.run σ (scaleHL scale keepDE) s).hl = s.hl * imm scale ∧
        (keepDE = true ∨ scale.toInt.toNat.isPowerOfTwo →
          (Step.run σ (scaleHL scale keepDE) s).de = s.de) := by
  have hpos : scale.toInt.toNat ≠ 0 := by
    have := Int64.lt_iff_toInt_lt.1 hs
    simp at this
    omega
  have hbody : Tidy ([Step.ldReg .d .h, .ldReg .e .l] ++
      doubleAndAdd scale.toInt.toNat scale.toInt.toNat.log2) 0 := by
    apply Tidy.quiet
    intro st hst
    rw [List.mem_append] at hst
    rcases hst with hst | hst
    · revert st
      decide
    · exact isQuiet_of_mem_doubleAndAdd hst
  unfold scaleHL
  by_cases h1 : scale = 1
  · rw [if_pos h1]
    exact ⟨0, by omega, .nil, fun σ s => ⟨by simp [h1], fun _ => rfl⟩⟩
  rw [if_neg h1]
  by_cases h2 : scale &&& (scale - 1) = 0
  · rw [if_pos h2]
    refine ⟨0, by omega, .quiet fun st hst => ?_, fun σ s => ?_⟩
    · rw [List.eq_of_mem_replicate hst]
      rfl
    · obtain ⟨k, hk⟩ := (and_sub_one_eq_zero_iff hs).1 h2
      rw [run_doublings, imm_eq_ofNat hs, hk, Nat.log2_two_pow]
      exact ⟨rfl, fun _ => rfl⟩
  rw [if_neg h2]
  rw [and_sub_one_eq_zero_iff hs] at h2
  cases keepDE with
  | false =>
    refine ⟨0, by omega, hbody, fun σ s => ?_⟩
    rw [if_neg (by decide), run_multiply hpos, imm_eq_ofNat hs]
    exact ⟨rfl, fun h => absurd h (by simpa using h2)⟩
  | true =>
    refine ⟨2, by omega, hbody.saved .de (.inr rfl), fun σ s => ?_⟩
    -- `de` waits on the stack, and nothing in between pushes
    have hback := hbody.wordAt_sp (by omega) σ s s.de
    have hrun := run_multiply (σ := σ) hpos (s.push s.de)
    rw [hrun] at hback
    rw [if_pos rfl, Step.run_saved, imm_eq_ofNat hs]
    simp only [Cpu.stacked]
    rw [hrun]
    exact ⟨rfl, fun _ => hback⟩

/-- Scaling by a positive constant multiplies `hl` modulo `2 ^ 16` and leaves
    every register but `hl` and `de` alone.  It leaves `de` alone as well when
    it is told to keep it, and whenever the constant is a power of two. -/
theorem scaleHL_multiplies (σ : String → UInt16) {scale : Int64} (hs : 0 < scale) (keepDE : Bool)
    (s : Cpu) :
    (Step.run σ (scaleHL scale keepDE) s).hl.toNat = s.hl.toNat * scale.toInt.toNat % 2 ^ 16 ∧
      s.Keeps (Step.run σ (scaleHL scale keepDE) s) ∧
      (keepDE = true ∨ scale.toInt.toNat.isPowerOfTwo →
        (Step.run σ (scaleHL scale keepDE) s).de = s.de) := by
  obtain ⟨k, -, htidy, hrun⟩ := run_scaleHL hs keepDE
  obtain ⟨hhl, hde⟩ := hrun σ s
  refine ⟨?_, htidy.keeps σ s, hde⟩
  rw [hhl, imm_eq_ofNat hs, UInt16.toNat_mul, UInt16.toNat_ofNat', Nat.mul_mod_mod]

/-- Ten times `$3039`, with `de` kept on a stack at the bottom of memory, and
    eight times the same, with nothing kept. -/
theorem scaleHL_ten_eight :
    let s : Cpu :=
      { a := 1, bc := 2, de := 0xbeef, hl := 0x3039, ix := 3, iy := 4, sp := 1, mem := fun _ => 0 }
    let t := Step.run (fun _ => 0) (scaleHL 10 true) s
    let u := Step.run (fun _ => 0) (scaleHL 8 false) s
    (0 < (10 : Int64) ∧ t.hl.toNat = 0xe23a ∧ s.Keeps t ∧ t.de = 0xbeef) ∧
      (0 < (8 : Int64) ∧ (8 : Int64).toInt.toNat.isPowerOfTwo ∧ u.hl.toNat = 0x81c8 ∧ s.Keeps u ∧
        u.de = 0xbeef) := by
  intro s t u
  have hten := scaleHL_multiplies (fun _ => 0) (show (0 : Int64) < 10 by decide) true s
  have height := scaleHL_multiplies (fun _ => 0) (show (0 : Int64) < 8 by decide) false s
  have hpow : (8 : Int64).toInt.toNat.isPowerOfTwo := ⟨3, by decide⟩
  exact ⟨⟨by decide, hten.1.trans (by decide), hten.2.1, hten.2.2 (.inl rfl)⟩,
    ⟨by decide, hpow, height.1.trans (by decide), height.2.1, height.2.2 (.inr hpow)⟩⟩

end Address

end Z80Backend
