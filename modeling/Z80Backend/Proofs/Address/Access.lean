import Z80Backend.Address.Access
import Z80Backend.Proofs.Address.Places

/-! # Access to typed storage

    A load changes the register it names and a store the bytes it names, and
    nothing else: registers that the address code needs wait on the stack and
    come back, each from the place it was put.

    The code of an access is a few pushes, the code of the address, and a
    tail that ends the access and takes the pushed words back.  What is known
    between the address code and the tail is the same for all registers
    (`Parked`), so each tail is executed once.

    * `Achieves` says that steps end in a given state, apart from the bytes
      that they push.
    * `Parks` says that steps leave an address in `hl` and words on the stack.
    * `access_achieves`: every load and store through a built or resolved
      address does what it names. -/

namespace Z80Backend

/-! ## What steps achieve -/

/-- All registers have the same values. -/
structure Cpu.SameRegs (s t : Cpu) : Prop where
  a : t.a = s.a
  bc : t.bc = s.bc
  de : t.de = s.de
  hl : t.hl = s.hl
  ix : t.ix = s.ix
  iy : t.iy = s.iy
  sp : t.sp = s.sp

/-- The steps lead from `s` to `u`, apart from the bytes right below the stack
    pointer that their pushes write. -/
structure Achieves (σ : String → UInt16) (steps : List Step) (s u : Cpu) : Prop where
  regs : u.SameRegs (Step.run σ steps s)
  mem : ∀ x, x ∉ Step.pushed σ steps s → (Step.run σ steps s).mem x = u.mem x
  stack : ∃ k, ∀ x, x ∈ Step.pushed σ steps s ↔ Below s.sp k x

/-- A value that depends on registers other than `sp`, and on the cells it
    consults. -/
def Stable (v : Cpu → UInt16) (cells : Cpu → List UInt16) : Prop :=
  ∀ (s : Cpu) (w : UInt16), (∀ x ∈ cells s, (s.push w).mem x = s.mem x) →
    v (s.push w) = v s ∧ cells (s.push w) = cells s

/-- Effective addresses are stable. -/
theorem stable_effective (σ : String → UInt16) (b : Base) (e : IndexTree) (scale : Int64) :
    Stable (fun s => b.address σ s + e.value σ s * imm scale)
      (fun s => b.cells s ++ e.cells σ s) := by
  intro s w hmem
  simp only [List.mem_append] at hmem
  obtain ⟨hb, hbcells⟩ : b.address σ (s.push w) = b.address σ s ∧ b.cells (s.push w) = b.cells s :=
    Base.congr (s.ix_push w) (fun _ _ => s.word_push w) fun x hx => hmem x (.inl hx)
  obtain ⟨he, hecells⟩ := e.congr (s.a_push w) (s.bc_push w) (s.ix_push w) (s.iy_push w)
    (fun _ => s.hl_push w) (fun _ => s.de_push w) fun x hx => hmem x (.inr hx)
  exact ⟨by simp only [hb, he], by simp only [hbcells, hecells]⟩

/-! ## Words that wait on the stack -/

/-- The words from an address up. -/
def Cpu.HasWords (s : Cpu) (x : UInt16) : List UInt16 → Prop
  | [] => True
  | w :: ws => s.wordAt x = w ∧ s.HasWords (x + 2) ws

/-- One more word above the others. -/
theorem Cpu.HasWords.concat {s : Cpu} {x : UInt16} {ws : List UInt16} {w : UInt16}
    (h : s.HasWords x ws) (hw : s.wordAt (x + UInt16.ofNat (2 * ws.length)) = w) :
    s.HasWords x (ws ++ [w]) := by
  induction ws generalizing x with
  | nil =>
    refine ⟨?_, trivial⟩
    simpa using hw
  | cons w' ws ih =>
    refine ⟨h.1, ih h.2 ?_⟩
    have hnext : x + 2 + UInt16.ofNat (2 * ws.length) =
        x + UInt16.ofNat (2 * (w' :: ws).length) := by
      rw [List.length_cons, Nat.mul_add, UInt16.ofNat_add]
      have h2 : UInt16.ofNat (2 * 1) = 2 := rfl
      rw [h2]
      grind
    rw [hnext]
    exact hw

/-- The state between the address code and the tail of an access: the address
    is in `hl`, the words wait on the stack, and of the memory only the `k`
    bytes below the first stack pointer are used up. -/
structure Parked (s : Cpu) (x : UInt16) (ws : List UInt16) (k : Nat) (t : Cpu) : Prop where
  hl : t.hl = x
  a : t.a = s.a
  bc : t.bc = s.bc
  ix : t.ix = s.ix
  iy : t.iy = s.iy
  sp : t.sp + UInt16.ofNat (2 * ws.length) = s.sp
  words : t.HasWords t.sp ws
  frame : ∀ y, ¬ Below s.sp k y → t.mem y = s.mem y

/-- Steps that leave an address in `hl` and words on the stack. -/
structure Parks (σ : String → UInt16) (p : List Step) (ws : Cpu → List UInt16) (k : Nat)
    (v : Cpu → UInt16) (cells : Cpu → List UInt16) : Prop where
  pushed : ∀ s x, x ∈ Step.pushed σ p s ↔ Below s.sp k x
  parked : ∀ s, k ≤ 65536 → (∀ x ∈ cells s, ¬ Below s.sp k x) →
    Parked s (v s) (ws s) k (Step.run σ p s)

section

variable {σ : String → UInt16} {p : List Step} {k : Nat} {v : Cpu → UInt16}
  {cells : Cpu → List UInt16} {ws : Cpu → List UInt16}

/-- Address code on its own leaves no words. -/
theorem Address.Brings.parks (h : Address.Brings σ p k v cells) :
    Parks σ p (fun _ => []) k v cells where
  pushed := h.tidy.mem_pushed σ
  parked s _ hclear := by
    obtain ⟨ha, hbc, hix, hiy, hsp⟩ := h.tidy.keeps σ s
    refine ⟨h.hl s hclear, ha, hbc, hix, hiy, ?_, trivial, h.tidy.frame σ s⟩
    simpa using hsp

/-- A push puts one more word above the others. -/
theorem Parks.push (h : Parks σ p ws k v cells) (hst : Stable v cells)
    (hws : ∀ (s : Cpu) w, ws (s.push w) = ws s) (r : StackReg) :
    Parks σ ([Step.push r] ++ p) (fun s => ws s ++ [s.stacked r]) (k + 2) v cells where
  pushed s x := by
    have hp : x ∈ Step.pushed σ p (s.push (s.stacked r)) ↔ Below (s.sp - 2) k x :=
      h.pushed (s.push (s.stacked r)) x
    rw [below_add_two, ← hp]
    simp [Step.pushed, Step.exec]
  parked s hk hclear := by
    simp only [below_add_two, not_or] at hclear
    obtain ⟨hv, hcells⟩ := hst s (s.stacked r) fun x hx =>
      Cpu.mem_push_of_ne (hclear x hx).1 (hclear x hx).2.1
    have ht : Parked (s.push (s.stacked r)) (v s) (ws s) k
        (Step.run σ p (s.push (s.stacked r))) := by
      have hparked := h.parked (s.push (s.stacked r)) (by omega) fun x hx => by
        rw [hcells] at hx
        exact (hclear x hx).2.2
      rwa [hv, hws] at hparked
    show Parked s (v s) (ws s ++ [s.stacked r]) (k + 2) (Step.run σ p (s.push (s.stacked r)))
    generalize Step.run σ p (s.push (s.stacked r)) = t at ht ⊢
    obtain ⟨thl, ta, tbc, tix, tiy, tsp, twords, tframe⟩ := ht
    rw [Cpu.a_push] at ta
    rw [Cpu.bc_push] at tbc
    rw [Cpu.ix_push] at tix
    rw [Cpu.iy_push] at tiy
    rw [Cpu.sp_push] at tsp tframe
    -- the pushed word is out of reach of the code that ran after it
    have hword : t.wordAt (s.sp - 2) = s.stacked r := by
      have hadd : s.sp - 2 + 1 = s.sp - 1 := by grind
      obtain ⟨htop, hbot⟩ : ¬ Below (s.sp - 2) k (s.sp - 1) ∧ ¬ Below (s.sp - 2) k (s.sp - 2) :=
        not_below_pushed hk
      rw [← Cpu.wordAt_push s (s.stacked r)]
      unfold Cpu.wordAt
      rw [hadd, tframe _ htop, tframe _ hbot]
    refine ⟨thl, ta, tbc, tix, tiy, ?_, twords.concat ?_, fun y hy => ?_⟩
    · have hlen : UInt16.ofNat (2 * (ws s ++ [s.stacked r]).length) =
          UInt16.ofNat (2 * (ws s).length) + 2 := by
        rw [List.length_append, Nat.mul_add, UInt16.ofNat_add]
        rfl
      rw [hlen]
      grind
    · rw [tsp]
      exact hword
    · rw [below_add_two, not_or, not_or] at hy
      rw [tframe y hy.2.2, Cpu.mem_push_of_ne hy.1 hy.2.1]

/-- Does a step push? -/
def Step.isPush : Step → Bool
  | push _ => true
  | _ => false

theorem Step.pushed_eq_nil {q : List Step} (hq : q.all (!·.isPush) = true) (s : Cpu) :
    Step.pushed σ q s = [] := by
  induction q generalizing s with
  | nil => rfl
  | cons st q ih =>
    rw [List.all_cons, Bool.and_eq_true] at hq
    unfold Step.pushed
    rw [ih hq.2, List.append_nil]
    cases st <;> first | rfl | simp [Step.isPush] at hq

/-- An access is what its tail makes of the parked state. -/
theorem Parks.achieves (h : Parks σ p ws k v cells) {q : List Step}
    (hq : q.all (!·.isPush) = true) {isByte : Bool} {s u : Cpu}
    (hclear : ∀ x ∈ cells s ++ cellsAt isByte (v s), x ∉ Step.pushed σ (p ++ q) s)
    (htail : k ≤ 65536 → (∀ x ∈ cellsAt isByte (v s), ¬ Below s.sp k x) →
      ∀ t, Parked s (v s) (ws s) k t → u.SameRegs (Step.run σ q t) ∧
        ∀ y, ¬ Below s.sp k y → (Step.run σ q t).mem y = u.mem y) :
    Achieves σ (p ++ q) s u := by
  have hpushed : ∀ x, x ∈ Step.pushed σ (p ++ q) s ↔ Below s.sp k x := by
    intro x
    rw [Step.pushed_append, Step.pushed_eq_nil hq, List.append_nil, h.pushed]
  simp only [hpushed, List.mem_append] at hclear
  have haddr : v s ∈ cellsAt isByte (v s) := by cases isByte <;> simp [cellsAt]
  -- the cell that is accessed leaves room on the stack
  have hk : k ≤ 65536 := Nat.le_of_lt (lt_of_not_below (hclear (v s) (.inr haddr)))
  have hparked := h.parked s hk fun x hx => hclear x (.inl hx)
  obtain ⟨hregs, hmem⟩ := htail hk (fun x hx => hclear x (.inr hx)) (Step.run σ p s) hparked
  refine ⟨?_, fun y hy => ?_, k, hpushed⟩
  · rw [Step.run_append]
    exact hregs
  · rw [hpushed] at hy
    rw [Step.run_append]
    exact hmem y hy

end

/-! ## Tails -/

/-- The parked state with two words, field by field. -/
theorem Parked.two {s t : Cpu} {x top under : UInt16} {k : Nat}
    (h : Parked s x [top, under] k t) :
    ∃ de mem, t = { s with hl := x, de := de, sp := s.sp - 4, mem := mem } ∧
      wordOf (mem (s.sp - 4 + 1)) (mem (s.sp - 4)) = top ∧
      wordOf (mem (s.sp - 4 + 2 + 1)) (mem (s.sp - 4 + 2)) = under ∧
      ∀ y, ¬ Below s.sp k y → mem y = s.mem y := by
  obtain ⟨a, bc, de, hl, ix, iy, sp, mem⟩ := t
  obtain ⟨rfl, rfl, rfl, rfl, rfl, hsp, ⟨htop, hunder, -⟩, hframe⟩ := h
  have hsp' : sp = s.sp - 4 := by
    rw [← hsp]
    show sp = sp + 4 - 4
    grind
  subst hsp'
  exact ⟨de, mem, rfl, htop, hunder, hframe⟩

/-- The parked state with one word, field by field. -/
theorem Parked.one {s t : Cpu} {x w : UInt16} {k : Nat} (h : Parked s x [w] k t) :
    ∃ de mem, t = { s with hl := x, de := de, sp := s.sp - 2, mem := mem } ∧
      wordOf (mem (s.sp - 2 + 1)) (mem (s.sp - 2)) = w ∧
      ∀ y, ¬ Below s.sp k y → mem y = s.mem y := by
  obtain ⟨a, bc, de, hl, ix, iy, sp, mem⟩ := t
  obtain ⟨rfl, rfl, rfl, rfl, rfl, hsp, ⟨hw, -⟩, hframe⟩ := h
  have hsp' : sp = s.sp - 2 := by
    rw [← hsp]
    show sp = sp + 2 - 2
    grind
  subst hsp'
  exact ⟨de, mem, rfl, hw, hframe⟩

/-- A cell outside the bytes used up is none of those in which two words
    wait. -/
theorem ne_of_not_below {sp x : UInt16} {k : Nat} (h : ¬ Below sp (k + 4) x) :
    sp - 4 ≠ x ∧ sp - 4 + 1 ≠ x ∧ sp - 4 + 2 ≠ x ∧ sp - 4 + 2 + 1 ≠ x := by
  have hk : k + 4 = k + 2 + 2 := rfl
  rw [hk, below_add_two, below_add_two] at h
  grind

theorem mem_cellsAt (isByte : Bool) (x : UInt16) : x ∈ cellsAt isByte x := by
  cases isByte <;> simp [cellsAt]

theorem succ_mem_cellsAt (x : UInt16) : x + 1 ∈ cellsAt false x := by simp [cellsAt]

namespace Address

variable {σ : String → UInt16} {p : List Step} {k : Nat} {v : Cpu → UInt16}
  {cells : Cpu → List UInt16}

section

attribute [local simp] Step.exec Cpu.pop Cpu.stacked Cpu.setStacked Cpu.byte Cpu.setByte Cpu.word
  Cpu.setWord Cpu.wordAt Cpu.store fetchWord

/-- A word access behind one saved word, by the states in which its tail runs. -/
theorem Brings.achieves_one (h : Brings σ p k v cells) (hst : Stable v cells) (r : StackReg)
    {q : List Step} (hq : q.all (!·.isPush) = true) {s u : Cpu}
    (hclear : ∀ x ∈ cells s ++ cellsAt false (v s), x ∉ Step.pushed σ ([.push r] ++ p ++ q) s)
    (htail : ∀ de mem, wordOf (mem (s.sp - 2 + 1)) (mem (s.sp - 2)) = s.stacked r →
      (∀ x ∈ cellsAt false (v s), mem x = s.mem x) →
        u.SameRegs (Step.run σ q { s with hl := v s, de := de, sp := s.sp - 2, mem := mem }) ∧
        ∀ y, mem y = s.mem y → (Step.run σ q
          { s with hl := v s, de := de, sp := s.sp - 2, mem := mem }).mem y = u.mem y) :
    Achieves σ ([.push r] ++ p ++ q) s u := by
  refine (h.parks.push hst (fun _ _ => rfl) r).achieves hq hclear fun _ haddr t ht => ?_
  obtain ⟨de, mem, rfl, hw, hframe⟩ := ht.one
  obtain ⟨hregs, hmem⟩ := htail de mem hw fun x hx => hframe x (haddr x hx)
  exact ⟨hregs, fun y hy => hmem y (hframe y hy)⟩

/-- An access behind two saved words, by the states in which its tail runs.  A
    store must not hit the words that are still to come back. -/
theorem Brings.achieves_two (h : Brings σ p k v cells) (hst : Stable v cells) (r r' : StackReg)
    {q : List Step} (hq : q.all (!·.isPush) = true) {isByte : Bool} {s u : Cpu}
    (hclear : ∀ x ∈ cells s ++ cellsAt isByte (v s),
      x ∉ Step.pushed σ ([.push r, .push r'] ++ p ++ q) s)
    (htail : ∀ de mem, wordOf (mem (s.sp - 4 + 1)) (mem (s.sp - 4)) = s.stacked r' →
      wordOf (mem (s.sp - 4 + 2 + 1)) (mem (s.sp - 4 + 2)) = s.stacked r →
      (∀ x ∈ cellsAt isByte (v s), mem x = s.mem x ∧
        s.sp - 4 ≠ x ∧ s.sp - 4 + 1 ≠ x ∧ s.sp - 4 + 2 ≠ x ∧ s.sp - 4 + 2 + 1 ≠ x) →
        u.SameRegs (Step.run σ q { s with hl := v s, de := de, sp := s.sp - 4, mem := mem }) ∧
        ∀ y, mem y = s.mem y → (Step.run σ q
          { s with hl := v s, de := de, sp := s.sp - 4, mem := mem }).mem y = u.mem y) :
    Achieves σ ([.push r, .push r'] ++ p ++ q) s u := by
  have hws : ∀ (s : Cpu) w, [(s.push w).stacked r'] = [s.stacked r'] := by
    intro s w
    rw [Cpu.stacked_push]
  refine ((h.parks.push hst (fun _ _ => rfl) r').push hst hws r).achieves hq hclear
    fun _ haddr t ht => ?_
  obtain ⟨de, mem, rfl, htop, hunder, hframe⟩ := ht.two
  obtain ⟨hregs, hmem⟩ := htail de mem htop hunder fun x hx =>
    ⟨hframe x (haddr x hx), ne_of_not_below (haddr x hx)⟩
  exact ⟨hregs, fun y hy => hmem y (hframe y hy)⟩

theorem achieves_loadByteVia (h : Brings σ p k v cells) (hst : Stable v cells) (r : Reg8) {s : Cpu}
    (hclear : ∀ x ∈ cells s ++ cellsAt true (v s), x ∉ Step.pushed σ (loadByteVia p r) s) :
    Achieves σ (loadByteVia p r) s (s.setByte r (s.mem (v s))) := by
  have hsp : s.sp - 4 + 2 + 2 = s.sp := by grind
  cases r with
  | a | b | c | h | l =>
    refine h.achieves_two hst .de .hl rfl hclear fun de mem htop hunder haddr => ?_
    obtain ⟨hv, -⟩ := haddr _ (mem_cellsAt ..)
    refine ⟨?_, fun y hy => hy⟩
    constructor <;> simp [hv, htop, hunder, hsp]
  | d | e =>
    refine h.achieves_two hst .hl .de rfl hclear fun de mem htop hunder haddr => ?_
    obtain ⟨hv, -⟩ := haddr _ (mem_cellsAt ..)
    refine ⟨?_, fun y hy => hy⟩
    constructor <;> simp [hv, htop, hunder, hsp]

theorem achieves_storeByteVia (h : Brings σ p k v cells) (hst : Stable v cells) (r : Reg8) {s : Cpu}
    (hclear : ∀ x ∈ cells s ++ cellsAt true (v s), x ∉ Step.pushed σ (storeByteVia p r) s) :
    Achieves σ (storeByteVia p r) s (s.store (v s) (s.byte r)) := by
  have hsp : s.sp - 4 + 2 + 2 = s.sp := by grind
  cases r with
  | a | b | c | h | l =>
    refine h.achieves_two hst .de .hl rfl hclear fun de mem htop hunder haddr => ?_
    obtain ⟨-, hne₀, hne₁, hne₂, hne₃⟩ := haddr _ (mem_cellsAt ..)
    refine ⟨?_, fun y hy => by simp [htop, hy]⟩
    constructor <;> simp [htop, hunder, hsp, hne₀, hne₁, hne₂, hne₃]
  | d | e =>
    refine h.achieves_two hst .hl .de rfl hclear fun de mem htop hunder haddr => ?_
    obtain ⟨-, -, -, hne, hne'⟩ := haddr _ (mem_cellsAt ..)
    refine ⟨?_, fun y hy => by simp [htop, hy]⟩
    constructor <;> simp [htop, hunder, hsp, hne, hne']

theorem achieves_loadWordVia (h : Brings σ p k v cells) (hst : Stable v cells) (r : WordReg)
    {s : Cpu}
    (hclear : ∀ x ∈ cells s ++ cellsAt false (v s), x ∉ Step.pushed σ (loadWordVia p r) s) :
    Achieves σ (loadWordVia p r) s (s.setWord r (s.wordAt (v s))) := by
  have hsp : s.sp - 2 + 2 = s.sp := by grind
  have hsp' : s.sp - 4 + 2 + 2 = s.sp := by grind
  unfold loadWordVia at hclear ⊢
  cases r with
  | hl =>
    simp only [List.append_assoc _ fetchWord] at hclear ⊢
    refine h.achieves_one hst .de rfl hclear fun de mem hw haddr => ?_
    have hv := haddr _ (mem_cellsAt ..)
    have hv' := haddr _ (succ_mem_cellsAt _)
    refine ⟨?_, fun y hy => hy⟩
    constructor <;> simp [hv, hv', hw, hsp]
  | de =>
    simp only [List.append_assoc _ fetchWord] at hclear ⊢
    refine h.achieves_one hst .hl rfl hclear fun de mem hw haddr => ?_
    have hv := haddr _ (mem_cellsAt ..)
    have hv' := haddr _ (succ_mem_cellsAt _)
    refine ⟨?_, fun y hy => hy⟩
    constructor <;> simp [hv, hv', hw, hsp]
  | bc =>
    simp only [List.append_assoc _ fetchWord] at hclear ⊢
    refine h.achieves_two hst .de .hl rfl hclear fun de mem htop hunder haddr => ?_
    obtain ⟨hv, -⟩ := haddr _ (mem_cellsAt ..)
    obtain ⟨hv', -⟩ := haddr _ (succ_mem_cellsAt _)
    refine ⟨?_, fun y hy => hy⟩
    constructor <;> simp [hv, hv', htop, hunder, hsp']

theorem achieves_storeWordVia (h : Brings σ p k v cells) (hst : Stable v cells) (r : WordReg)
    {s : Cpu}
    (hclear : ∀ x ∈ cells s ++ cellsAt false (v s), x ∉ Step.pushed σ (storeWordVia p r) s) :
    Achieves σ (storeWordVia p r) s
      ((s.store (v s) (lowByte (s.word r))).store (v s + 1) (highByte (s.word r))) := by
  have hsp : s.sp - 4 + 2 + 2 = s.sp := by grind
  cases r with
  | hl =>
    refine h.achieves_two hst .de .hl rfl hclear fun de mem htop hunder haddr => ?_
    obtain ⟨-, -, -, hne, hne'⟩ := haddr _ (mem_cellsAt ..)
    obtain ⟨-, -, -, hsucc, hsucc'⟩ := haddr _ (succ_mem_cellsAt _)
    refine ⟨?_, fun y hy => by simp [htop, hy]⟩
    constructor <;> simp [htop, hunder, hsp, hne, hne', hsucc, hsucc']
  | de =>
    refine h.achieves_two hst .hl .de rfl hclear fun de mem htop hunder haddr => ?_
    obtain ⟨-, -, -, hne, hne'⟩ := haddr _ (mem_cellsAt ..)
    obtain ⟨-, -, -, hsucc, hsucc'⟩ := haddr _ (succ_mem_cellsAt _)
    refine ⟨?_, fun y hy => by simp [htop, hy]⟩
    constructor <;> simp [htop, hunder, hsp, hne, hne', hsucc, hsucc']
  | bc =>
    refine h.achieves_two hst .de .hl rfl hclear fun de mem htop hunder haddr => ?_
    obtain ⟨-, hne₀, hne₁, hne₂, hne₃⟩ := haddr _ (mem_cellsAt ..)
    obtain ⟨-, hsucc₀, hsucc₁, hsucc₂, hsucc₃⟩ := haddr _ (succ_mem_cellsAt _)
    refine ⟨?_, fun y hy => by simp [hy]⟩
    constructor <;> simp [htop, hunder, hsp, hne₀, hne₁, hne₂, hne₃, hsucc₀, hsucc₁, hsucc₂, hsucc₃]

end

/-! ## Every kind of address -/

theorem addr_mem_frame (d extra : Int64) (t : Cpu) :
    ((frame d).mem extra).addr σ t = t.ix + imm d + imm extra := by
  show t.ix + imm (d + extra) = _
  rw [imm_add, UInt16.add_assoc]

theorem addr_mem_absolute (sym : String) (off extra : Int64) (t : Cpu) :
    ((absolute sym off).mem extra).addr σ t = symbolAddr σ sym + imm off + imm extra := by
  unfold Address.mem
  by_cases hempty : sym = ""
  · simp [hempty, MemRef.addr, symbolAddr, imm_add]
  · simp [hempty, MemRef.addr, imm_add, UInt16.add_assoc]

/-- The symbol of the address is not written as a pointer is. -/
def SparesPointers : Address → Prop
  | absolute sym _ => Text.lower sym ∉ MemRef.pointerNames
  | frame _ | computed _ => True

theorem byteAddr_mem {a : Address} (ha : a.SparesPointers) (extra : Int64) (t : Cpu) :
    (a.mem extra).byteAddr σ t = (a.mem extra).addr σ t := by
  cases a with
  | frame d | computed steps => rfl
  | absolute sym off =>
    by_cases hempty : sym = ""
    · rw [mem, if_pos hempty]
      rfl
    · rw [mem, if_neg hempty]
      exact MemRef.byteAddr_symbol ha _

/-- Steps that do not push end in the state they run to. -/
theorem achieves_of_run {q : List Step} (hq : q.all (!·.isPush) = true) {s u : Cpu}
    (h : Step.run σ q s = u) : Achieves σ q s u := by
  subst h
  refine ⟨⟨rfl, rfl, rfl, rfl, rfl, rfl, rfl⟩, fun _ _ => rfl, 0, fun x => ?_⟩
  rw [Step.pushed_eq_nil hq]
  simp

/-- Steps that borrow `a`: it waits on the stack, clear of the cell that they
    access. -/
theorem achieves_borrow {q : List Step} (hq : q.all (!·.isPush) = true) {s u : Cpu} {x : UInt16}
    (hclear : x ∉ Step.pushed σ (.push .af :: q) s)
    (hrun : x ≠ s.sp - 1 → x ≠ s.sp - 2 →
      u.SameRegs (Step.run σ q (s.push (s.stacked .af))) ∧
      ∀ y, y ≠ s.sp - 1 → y ≠ s.sp - 2 →
        (Step.run σ q (s.push (s.stacked .af))).mem y = u.mem y) :
    Achieves σ (.push .af :: q) s u := by
  have hpushed : Step.pushed σ (.push .af :: q) s = [s.sp - 1, s.sp - 2] := by
    unfold Step.pushed
    rw [Step.pushed_eq_nil hq]
    rfl
  have houter : ∀ y, y ∉ [s.sp - 1, s.sp - 2] ↔ y ≠ s.sp - 1 ∧ y ≠ s.sp - 2 := by simp
  rw [hpushed, houter] at hclear
  obtain ⟨hregs, hmem⟩ := hrun hclear.1 hclear.2
  refine ⟨hregs, fun y hy => ?_, 2, fun y => ?_⟩
  · rw [hpushed, houter] at hy
    exact hmem y hy.1 hy.2
  · have hbelow := @below_add_two s.sp y 0
    simp only [Nat.zero_add, not_below_zero, or_false] at hbelow
    rw [hpushed, hbelow]
    simp

/-- The first reference to what an address stands for. -/
theorem addr_mem_zero {a : Address} (h : Reaches σ v cells a) (ha : ∀ steps, a ≠ computed steps)
    (s t : Cpu) (hix : t.ix = s.ix) : (a.mem 0).addr σ t = v s := by
  cases a with
  | frame d => rw [addr_mem_frame, imm_zero, UInt16.add_zero, hix, h s]
  | absolute sym off => rw [addr_mem_absolute, imm_zero, UInt16.add_zero, h s]
  | computed steps => exact absurd rfl (ha steps)

theorem byteAddr_mem_zero {a : Address} (h : Reaches σ v cells a) (ha : ∀ steps, a ≠ computed steps)
    (hspares : a.SparesPointers) (s t : Cpu) (hix : t.ix = s.ix) :
    (a.mem 0).byteAddr σ t = v s :=
  (byteAddr_mem hspares 0 t).trans (addr_mem_zero h ha s t hix)

/-- Address code without steps finds the address in `hl`. -/
theorem Brings.hl_of_nil (h : Brings σ [] k v cells) (s : Cpu) : s.hl = v s := by
  refine h.hl s fun x _ hbelow => ?_
  have hnil := (h.tidy.mem_pushed σ s x).2 hbelow
  simp [Step.pushed] at hnil

variable {a : Address}

theorem achieves_loadByte (h : Reaches σ v cells a) (hst : Stable v cells)
    (hspares : a.SparesPointers) (r : Reg8) {s : Cpu}
    (hclear : ∀ x ∈ cells s ++ cellsAt true (v s), x ∉ Step.pushed σ (loadByte r a) s) :
    Achieves σ (loadByte r a) s (s.setByte r (s.mem (v s))) := by
  cases a with
  | frame d =>
    have haddr := byteAddr_mem_zero h (by simp) hspares s s rfl
    exact achieves_of_run rfl (by simp [loadByte, Step.exec, haddr])
  | absolute sym off =>
    have haddr := byteAddr_mem_zero h (by simp) hspares s
    have hv := hclear (v s) (List.mem_append_right _ (mem_cellsAt ..))
    unfold loadByte at hv ⊢
    by_cases hr : r = .a
    · rw [if_pos hr]
      exact achieves_of_run rfl (by simp [Step.exec, haddr, hr])
    · rw [if_neg hr] at hv ⊢
      refine achieves_borrow rfl hv fun hne hne' => ?_
      have hsp : s.sp - 2 + 2 = s.sp := by grind
      have hpop := s.wordAt_push (wordOf s.a 0)
      have hmem : (s.push (wordOf s.a 0)).mem (v s) = s.mem (v s) := Cpu.mem_push_of_ne hne hne'
      unfold Cpu.wordAt at hpop
      refine ⟨?_, fun y hy hy' => ?_⟩
      · cases r with
        | a => exact absurd rfl hr
        | b | c | d | e | h | l =>
          constructor <;> simp [Step.exec, Cpu.stacked, Cpu.pop, Cpu.setStacked, Cpu.setByte,
            Cpu.byte, Cpu.wordAt, haddr, hmem, hpop, hsp]
      · have hout := Cpu.mem_push_of_ne (w := wordOf s.a 0) hy hy'
        cases r <;> simpa [Step.exec, Cpu.stacked, Cpu.pop, Cpu.setStacked, Cpu.setByte] using hout
  | computed steps =>
    obtain ⟨k, hk⟩ := h
    cases steps with
    | nil => exact achieves_of_run rfl (by simp [loadByte, Step.exec, hk.hl_of_nil s])
    | cons st steps => exact achieves_loadByteVia hk hst r hclear

theorem achieves_storeByte (h : Reaches σ v cells a) (hst : Stable v cells)
    (hspares : a.SparesPointers) (r : Reg8) {s : Cpu}
    (hclear : ∀ x ∈ cells s ++ cellsAt true (v s), x ∉ Step.pushed σ (storeByte a r) s) :
    Achieves σ (storeByte a r) s (s.store (v s) (s.byte r)) := by
  cases a with
  | frame d =>
    have haddr := byteAddr_mem_zero h (by simp) hspares s s rfl
    exact achieves_of_run rfl (by simp [storeByte, Step.exec, haddr])
  | absolute sym off =>
    have haddr := byteAddr_mem_zero h (by simp) hspares s
    have hv := hclear (v s) (List.mem_append_right _ (mem_cellsAt ..))
    unfold storeByte at hv ⊢
    by_cases hr : r = .a
    · rw [if_pos hr]
      exact achieves_of_run rfl (by simp [Step.exec, haddr, hr])
    · rw [if_neg hr] at hv ⊢
      refine achieves_borrow rfl hv fun hne hne' => ?_
      have hsp : s.sp - 2 + 2 = s.sp := by grind
      have hnext : s.sp - 2 + 1 ≠ v s := by grind
      have hpop := s.wordAt_push (wordOf s.a 0)
      unfold Cpu.wordAt at hpop
      refine ⟨?_, fun y hy hy' => ?_⟩
      · constructor <;> simp [Step.exec, Cpu.stacked, Cpu.pop, Cpu.setStacked, Cpu.setByte,
          Cpu.store, Cpu.wordAt, haddr, hpop, hsp, hnext, hne'.symm]
      · have hout := Cpu.mem_push_of_ne (w := wordOf s.a 0) hy hy'
        cases r <;> simp [Step.exec, Cpu.stacked, Cpu.pop, Cpu.setStacked, Cpu.setByte, Cpu.byte,
          Cpu.store, haddr, hout]
  | computed steps =>
    obtain ⟨k, hk⟩ := h
    simp only [storeByte] at hclear ⊢
    by_cases hempty : (steps.isEmpty && decide (r ≠ .h) && decide (r ≠ .l)) = true
    · have hsteps : steps = [] := by
        simp only [Bool.and_eq_true, List.isEmpty_iff] at hempty
        exact hempty.1.1
      subst hsteps
      rw [if_pos hempty]
      exact achieves_of_run rfl (by simp [Step.exec, hk.hl_of_nil s])
    · rw [if_neg hempty] at hclear ⊢
      exact achieves_storeByteVia hk hst r hclear

/-- The next byte of a slot. -/
theorem byteAddr_mem_one {d : Int64} (h : Reaches σ v cells (frame d)) (s t : Cpu)
    (hix : t.ix = s.ix) : ((frame d).mem 1).byteAddr σ t = v s + 1 := by
  rw [byteAddr_mem (a := frame d) trivial, addr_mem_frame, imm_one, hix, h s]

theorem achieves_loadWord (h : Reaches σ v cells a) (hst : Stable v cells) (r : WordReg) {s : Cpu}
    (hclear : ∀ x ∈ cells s ++ cellsAt false (v s), x ∉ Step.pushed σ (loadWord r a) s) :
    Achieves σ (loadWord r a) s (s.setWord r (s.wordAt (v s))) := by
  cases a with
  | frame d =>
    unfold loadWord at hclear ⊢
    by_cases hfits : fitsDisp (d + 1) = true
    · simp only [if_pos hfits]
      have hrun := run_fetchSlot (σ := σ) r d s
      have hslot : s.ix + imm d = v s := h s
      have hfirst : (frame d).mem 0 = .slot d := congrArg MemRef.slot (Int64.add_zero d)
      rw [hslot] at hrun
      rw [hfirst]
      exact achieves_of_run rfl hrun
    · simp only [if_neg hfits] at hclear ⊢
      obtain ⟨k, hk⟩ := h.toHL
      exact achieves_loadWordVia hk hst r hclear
  | absolute sym off =>
    have haddr := addr_mem_zero h (by simp) s s rfl
    exact achieves_of_run rfl (by simp [loadWord, Step.exec, haddr])
  | computed steps =>
    obtain ⟨k, hk⟩ := h
    exact achieves_loadWordVia hk hst r hclear

theorem achieves_storeWord (h : Reaches σ v cells a) (hst : Stable v cells) (r : WordReg) {s : Cpu}
    (hclear : ∀ x ∈ cells s ++ cellsAt false (v s), x ∉ Step.pushed σ (storeWord a r) s) :
    Achieves σ (storeWord a r) s
      ((s.store (v s) (lowByte (s.word r))).store (v s + 1) (highByte (s.word r))) := by
  cases a with
  | frame d =>
    unfold storeWord at hclear ⊢
    by_cases hfits : fitsDisp (d + 1) = true
    · simp only [if_pos hfits]
      have haddr := byteAddr_mem_zero h (by simp) trivial s
      have hnext := byteAddr_mem_one h s
      refine achieves_of_run rfl ?_
      cases r <;> simp [Step.exec, WordReg.low, WordReg.high, Cpu.byte, Cpu.word, Cpu.store, haddr,
        hnext]
    · simp only [if_neg hfits] at hclear ⊢
      obtain ⟨k, hk⟩ := h.toHL
      exact achieves_storeWordVia hk hst r hclear
  | absolute sym off =>
    have haddr := addr_mem_zero h (by simp) s s rfl
    exact achieves_of_run rfl (by simp [storeWord, Step.exec, haddr])
  | computed steps =>
    obtain ⟨k, hk⟩ := h
    exact achieves_storeWordVia hk hst r hclear

end Address

/-! ## Access by register name -/

/-- The two ways to say where typed storage is. -/
inductive Locator where
  /-- A base and a scaled index. -/
  | built (b : Base) (e : IndexTree) (scale : Int64)
  /-- A typed place among the names in scope. -/
  | placed (scope : Scope) (r : Resolver) (p : Place)

namespace Locator

/-- The address that is made for it. -/
def address : Locator → Except AddressError Address
  | built b e scale =>
    match e.index with
    | .error err => .error err
    | .ok i => Address.build b i scale
  | placed scope r p => (p.resolve scope r).map (·.address)

/-- The address of the storage. -/
def target (σ : String → UInt16) (s : Cpu) : Locator → UInt16
  | built b e scale => b.address σ s + e.value σ s * imm scale
  | placed scope r p => p.address scope r σ s

/-- The cells consulted on the way there. -/
def cells (σ : String → UInt16) (s : Cpu) : Locator → List UInt16
  | built b e _ => b.cells s ++ e.cells σ s
  | placed scope r p => p.cells scope r σ s

/-- An address made for a locator reaches its target. -/
theorem exists_reaches (σ : String → UInt16) {l : Locator} {a : Address} (h : l.address = .ok a) :
    ∃ v cells, a.Reaches σ v cells ∧ Stable v cells ∧
      ∀ s, v s = l.target σ s ∧ ∀ x ∈ cells s, x ∈ l.cells σ s := by
  cases l with
  | built b e scale =>
    simp only [address] at h
    split at h
    · cases h
    rename_i i hi
    exact ⟨_, _, Address.reaches_build hi (fun c hc => Address.fetches_of_indexCode hi hc) h,
      stable_effective σ b e scale, fun s => ⟨rfl, fun x hx => hx⟩⟩
  | placed scope r p =>
    obtain ⟨x, hx, rfl⟩ : ∃ x, p.resolve scope r = .ok x ∧ x.address = a := by
      cases hres : p.resolve scope r with
      | error err => simp [address, hres, Except.map] at h
      | ok x => exact ⟨x, rfl, by simpa [address, hres, Except.map] using h⟩
    obtain ⟨-, b, e, scale, hreach, hsame⟩ := Place.reaches_of_resolve (σ := σ) hx
    exact ⟨_, _, hreach, stable_effective σ b e scale, hsame⟩

end Locator

/-- The registers that typed storage is loaded into and stored from. -/
def accessRegs : List String := ["a", "b", "c", "d", "e", "h", "l", "hl", "de", "bc"]

/-- Does the register hold one byte? -/
def isByteReg (reg : String) : Bool := (Reg8.ofName? reg).isSome

namespace Cpu

/-- The state with the named register set to the value at an address: a byte,
    or a word with its low byte first. -/
def loaded (s : Cpu) (reg : String) (x : UInt16) : Cpu :=
  match Reg8.ofName? reg, WordReg.ofName? reg with
  | some r, _ => s.setByte r (s.mem x)
  | none, some r => s.setWord r (s.wordAt x)
  | none, none => s

/-- The state with the named register written at an address. -/
def stored (s : Cpu) (reg : String) (x : UInt16) : Cpu :=
  match Reg8.ofName? reg, WordReg.ofName? reg with
  | some r, _ => s.store x (s.byte r)
  | none, some r => (s.store x (lowByte (s.word r))).store (x + 1) (highByte (s.word r))
  | none, none => s

end Cpu

/-- A name of a register for access stands for a single register or a pair. -/
theorem isSome_of_mem_accessRegs : ∀ reg ∈ accessRegs,
    (Reg8.ofName? reg).isSome ∨ Reg8.ofName? reg = none ∧ (WordReg.ofName? reg).isSome := by
  decide

namespace Address

/-- Loads and stores touch exactly what they name.  Whatever way the storage
    was located, and whichever register takes part, the code of the access
    exists; run in a state where it pushes neither over the storage nor over
    the cells consulted on the way, a load sets the register to the value
    stored there, a store writes the register there, and apart from the bytes
    pushed nothing else is different, as long as the symbol of the address is not
    named like a pointer. -/
theorem access_achieves (σ : String → UInt16) (s : Cpu) {l : Locator} {a : Address} {reg : String}
    (ha : l.address = .ok a) (hspares : a.SparesPointers) (hreg : reg ∈ accessRegs) :
    (∃ p, load reg a = .ok p ∧
      ((∀ x ∈ l.cells σ s ++ cellsAt (isByteReg reg) (l.target σ s), x ∉ Step.pushed σ p s) →
        Achieves σ p s (s.loaded reg (l.target σ s)))) ∧
    ∃ p, store a reg = .ok p ∧
      ((∀ x ∈ l.cells σ s ++ cellsAt (isByteReg reg) (l.target σ s), x ∉ Step.pushed σ p s) →
        Achieves σ p s (s.stored reg (l.target σ s))) := by
  obtain ⟨v, cells, hreach, hst, hsame⟩ := Locator.exists_reaches σ ha
  obtain ⟨hv, hcells⟩ := hsame s
  have hsub : ∀ isByte, ∀ x ∈ cells s ++ cellsAt isByte (v s),
      x ∈ l.cells σ s ++ cellsAt isByte (l.target σ s) := by
    intro isByte x hx
    rw [hv, List.mem_append] at hx
    exact List.mem_append.2 (hx.imp_left (hcells x))
  rcases isSome_of_mem_accessRegs reg hreg with hsome | ⟨hnone, hsome⟩
  · obtain ⟨r, hr⟩ := Option.isSome_iff_exists.1 hsome
    have hbyte : isByteReg reg = true := by simp [isByteReg, hr]
    simp only [load, store, Cpu.loaded, Cpu.stored, hr, hbyte, ← hv]
    refine ⟨⟨_, rfl, fun hclear => ?_⟩, _, rfl, fun hclear => ?_⟩
    · exact achieves_loadByte hreach hst hspares r fun x hx => hclear x (hv ▸ hsub true x hx)
    · exact achieves_storeByte hreach hst hspares r fun x hx => hclear x (hv ▸ hsub true x hx)
  · obtain ⟨r, hr⟩ := Option.isSome_iff_exists.1 hsome
    have hword : isByteReg reg = false := by simp [isByteReg, hnone]
    simp only [load, store, Cpu.loaded, Cpu.stored, hnone, hr, hword, ← hv]
    refine ⟨⟨_, rfl, fun hclear => ?_⟩, _, rfl, fun hclear => ?_⟩
    · exact achieves_loadWord hreach hst r fun x hx => hclear x (hv ▸ hsub false x hx)
    · exact achieves_storeWord hreach hst r fun x hx => hclear x (hv ▸ hsub false x hx)

/-- One row of bytes, whose address is in a frame slot. -/
def rowScope : Scope := fun name =>
  if name = "row" then some ⟨.ref (-6), { name := "byte", len := 8 }⟩ else none

/-- The byte of the row that `l` counts. -/
def rowAtL : Locator := .placed rowScope .empty (.elem (.name "row") (.reg8 "L"))

/-- The slot holds `0xFBFA`; with five in `l`, the byte at `0xFBFF` goes to
    `h`, and `l` to that byte, although `hl` carries the address. -/
theorem rowAtL_access : ∃ a p q, rowAtL.address = .ok a ∧
    load "h" a = .ok p ∧ store a "l" = .ok q ∧
    Achieves (fun _ => 0) p { rowCpu with hl := 0x8005 } { rowCpu with hl := 0xFF05 } ∧
    Achieves (fun _ => 0) q { rowCpu with hl := 0x8005 }
      (Cpu.store { rowCpu with hl := 0x8005 } 0xFBFF 5) := by
  have ha : rowAtL.address = .ok _ := rfl
  obtain ⟨⟨p, hp, hload⟩, -⟩ := access_achieves (fun _ => 0) { rowCpu with hl := 0x8005 } ha trivial
    (show "h" ∈ accessRegs by decide)
  obtain ⟨-, q, hq, hstore⟩ := access_achieves (fun _ => 0) { rowCpu with hl := 0x8005 } ha trivial
    (show "l" ∈ accessRegs by decide)
  refine ⟨_, p, q, ha, hp, hq, ?_, ?_⟩
  · cases hp
    exact hload (not_mem_of_all (by decide +kernel))
  · cases hq
    exact hstore (not_mem_of_all (by decide +kernel))

/-- Storage at a symbol with the name of a pointer. -/
def homonym : Locator := .built { origin := .global "hl" } .none 1

/-- The symbol is taken for the pointer: the load of `a` goes through the register
    and not to the address of the symbol. -/
theorem load_through_pointer : ∃ a p, homonym.address = .ok a ∧ load "a" a = .ok p ∧
    Step.pushed (fun _ => 0x8001) p rowCpu = [] ∧
    ¬ Achieves (fun _ => 0x8001) p rowCpu (rowCpu.loaded "a" 0x8001) := by
  have hread : (Step.run (fun _ => 0x8001) [.loadByte .a (.symbol "hl" 0)] rowCpu).a ≠
      (rowCpu.loaded "a" 0x8001).a := by decide +kernel
  exact ⟨.absolute "hl" 0, _, rfl, rfl, rfl, fun h => hread h.regs.a⟩

end Address

end Z80Backend
