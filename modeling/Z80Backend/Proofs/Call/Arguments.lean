import Z80Backend.Proofs.Call.Code

/-! # Arguments

    The value of an argument is told without its code: a register, with a byte
    extended by zeros, an immediate, or what is stored at a typed place.  The
    code that passes it puts that word on the stack and changes nothing else.

    All arguments but register pairs go through `hl`.  It is saved first, so
    that the word to be passed can be exchanged for it on the stack: what is
    known before the exchange is the same for all of them (`Line.Readies`).

    * `FnContext.argWord` is the value of an argument and `FnContext.argCells`
      are the cells that it is read from.
    * `FnContext.exists_puts_arg`: the code of an argument puts its value on
      the stack.
    * `FnContext.exists_puts_args`: the code of all arguments puts their values
      on the stack, each as it was before the first was passed. -/

namespace Z80Backend

/-! ## Meaning -/

/-- The storage names that an operand starts from. -/
def Operand.roots : Operand → List String
  | place p _ | mem p _ => p.roots
  | _ => []

namespace FnContext

/-- The value of an argument.  Operands that cannot be passed have none. -/
def argWord (ctx : FnContext) (σ : String → UInt16) (s : Cpu) : Operand → UInt16
  | .reg name _ =>
    match Reg8.ofName? (Text.lower name) with
    | some r => (s.byte r).toUInt16
    | none => s.named (Text.lower name)
  | .imm e _ => e.word ctx.resolver σ
  | .place p _ | .mem p _ =>
    s.read (p.isByte ctx.scope ctx.resolver) (p.address ctx.scope ctx.resolver σ s)
  | _ => 0

/-- The cells that an argument is read from. -/
def argCells (ctx : FnContext) (σ : String → UInt16) (s : Cpu) : Operand → List UInt16
  | .place p _ | .mem p _ =>
    p.cells ctx.scope ctx.resolver σ s ++
      cellsAt (p.isByte ctx.scope ctx.resolver) (p.address ctx.scope ctx.resolver σ s)
  | _ => []

end FnContext

/-! ## States that agree -/

section

variable {scope : Scope} {r : Resolver} {σ : String → UInt16} {s t : Cpu}

namespace Cpu.Alike

theorem byte (h : s.Alike t) (reg : Reg8) : t.byte reg = s.byte reg := by
  cases reg <;> simp [Cpu.byte, h.a, h.bc, h.de, h.hl]

theorem named (h : s.Alike t) (name : String) : t.named name = s.named name := by
  unfold Cpu.named
  split <;> simp [h.bc, h.de, h.hl, h.ix, h.iy]

theorem indexReg (h : s.Alike t) (name : String) : t.indexReg name = s.indexReg name := by
  simp [Cpu.indexReg, h.ix, h.iy]

theorem stacked (h : s.Alike t) (x : StackReg) : t.stacked x = s.stacked x := by
  cases x with
  | index x => cases x <;> simp [Cpu.stacked, h.ix, h.iy]
  | af | bc | de | hl => simp [Cpu.stacked, h.a, h.bc, h.de, h.hl]

end Cpu.Alike

theorem Home.congr {home : Home} (h : s.Alike t)
    (hmem : ∀ x ∈ home.cells s, t.mem x = s.mem x) :
    home.address σ t = home.address σ s ∧ home.cells t = home.cells s := by
  cases home with
  | global sym => exact ⟨rfl, rfl⟩
  | frame d => simp [address, cells, h.ix]
  | ref d =>
    have hword : t.read false (s.ix + imm d) = s.read false (s.ix + imm d) := Cpu.read_congr hmem
    simp only [Cpu.read, Bool.false_eq_true, if_false] at hword
    simp [address, cells, h.ix, hword]

theorem Subscript.congr {i : Subscript} (h : s.Alike t)
    (hmem : ∀ x ∈ i.cells r s, t.mem x = s.mem x) :
    i.value r t = i.value r s ∧ i.cells r t = i.cells r s := by
  cases i with
  | const e | missing => exact ⟨rfl, rfl⟩
  | reg8 reg => simp [value, cells, h.byte]
  | reg16 reg => simp [value, cells, h.named]
  | memHL =>
    simp only [value, cells, h.hl, and_true]
    exact Cpu.read_congr hmem
  | memIndexed reg d =>
    simp only [value, cells, h.indexReg, and_true]
    exact Cpu.read_congr hmem

/-- A place depends on the registers and on the cells consulted. -/
theorem Place.congr (p : Place) (h : s.Alike t)
    (hmem : ∀ x ∈ p.cells scope r σ s, t.mem x = s.mem x) :
    p.address scope r σ t = p.address scope r σ s ∧
      p.cells scope r σ t = p.cells scope r σ s := by
  induction p with
  | literal e | missing => exact ⟨rfl, rfl⟩
  | name n =>
    unfold address cells at *
    cases hn : scope n with
    | none => exact ⟨rfl, rfl⟩
    | some st =>
      rw [hn] at hmem
      obtain ⟨haddr, hcells⟩ := Home.congr (σ := σ) h hmem
      simp [haddr, hcells]
  | field b f ih | add b off ih | sub b off ih =>
    obtain ⟨haddr, hcells⟩ := ih hmem
    unfold address cells
    rw [haddr]
    exact ⟨rfl, hcells⟩
  | elem b i ih =>
    obtain ⟨haddr, hcells⟩ := ih fun x hx => hmem x (List.mem_append_left _ hx)
    obtain ⟨hvalue, hsub⟩ := Subscript.congr (r := r) (i := i) h
      fun x hx => hmem x (List.mem_append_right _ hx)
    constructor
    · cases i <;> simp only [address, haddr, hvalue]
    · simp only [cells, hcells, hsub]
  | elemAt b inner ihb ihi =>
    obtain ⟨haddr, hcells⟩ := ihb fun x hx => hmem x (List.mem_append_left _ hx)
    obtain ⟨hinner, hincells⟩ := ihi fun x hx =>
      hmem x (List.mem_append_right _ (List.mem_append_left _ hx))
    -- the subscript is read from a cell that is consulted as well
    have hread : t.read (inner.isByte scope r) (inner.address scope r σ s) =
        s.read (inner.isByte scope r) (inner.address scope r σ s) :=
      Cpu.read_congr fun x hx => hmem x (List.mem_append_right _ (List.mem_append_right _ hx))
    constructor
    · simp only [address, haddr, hinner, hread]
    · simp only [cells, hcells, hincells, hinner]

/-- An argument depends on the registers and on the cells it is read from. -/
theorem FnContext.arg_congr (ctx : FnContext) (arg : Operand) (h : s.Alike t)
    (hmem : ∀ x ∈ ctx.argCells σ s arg, t.mem x = s.mem x) :
    ctx.argWord σ t arg = ctx.argWord σ s arg ∧ ctx.argCells σ t arg = ctx.argCells σ s arg := by
  cases arg with
  | imm e span | portC span | port e span | missing => exact ⟨rfl, rfl⟩
  | reg name span => simp [argWord, argCells, h.byte, h.named]
  | place p span | mem p span =>
    obtain ⟨haddr, hcells⟩ := p.congr h fun x hx => hmem x (List.mem_append_left _ hx)
    simp only [argWord, argCells, haddr, hcells, and_true]
    exact Cpu.read_congr fun x hx => hmem x (List.mem_append_right _ hx)

end

/-! ## Words on their way -/

/-- Lines that save `hl` on the stack and bring a word to `hl` instead.  The
    other registers keep their values, and of the memory only the `k` bytes
    below the stack pointer change, which are those that the lines push. -/
structure Line.Readies (σ : String → UInt16) (p : List Line) (k : Nat) (c c₁ : Core) : Prop where
  run : Line.run σ p c = some c₁
  pushed : ∀ x, x ∈ Line.pushed σ p c ↔ Below c.sp k x
  size : 2 ≤ k
  a : c₁.a = c.a
  bc : c₁.bc = c.bc
  de : c₁.de = c.de
  ix : c₁.ix = c.ix
  iy : c₁.iy = c.iy
  sp : c₁.sp = c.sp - 2
  saved : c₁.wordAt (c.sp - 2) = c.hl
  frame : ∀ x, ¬ Below c.sp k x → c₁.mem x = c.mem x

namespace Line.Readies

variable {σ : String → UInt16} {r : Resolver} {p q ls : List Line} {j k : Nat} {c c₁ c₂ : Core}

/-- Pushing `hl` saves it. -/
theorem start (h : Line.Renders r [.of "push" [.ofReg "hl"]] ls) (σ : String → UInt16)
    (c : Core) : ∃ c₁, Readies σ ls 2 c c₁ ∧ c₁.toCpu = c.toCpu.push c.hl := by
  obtain ⟨i, code, rfl, hcode⟩ := h.of_singleton
  have hpush : assemble r (.of "push" [.ofReg "hl"]) = .ok (.push .hl) := rfl
  rw [hpush] at hcode
  cases hcode
  have hputs : Line.Puts σ [.instr i (.push .hl)] 2 [c.hl] c ((c.skip 1).push c.hl) :=
    .of_push rfl rfl rfl
  refine ⟨_, ⟨hputs.run, hputs.pushed, Nat.le_refl 2, hputs.alike.a, hputs.alike.bc,
    hputs.alike.de, hputs.alike.ix, hputs.alike.iy, rfl, ?_, hputs.frame⟩, rfl⟩
  exact c.wordAt_push c.hl

/-- Code that goes on with `hl`.  What it pushes stays below the saved word. -/
theorem step (h : Readies σ p k c c₁) (hrun : Line.run σ q c₁ = some c₂)
    (hpushed : ∀ x, x ∈ Line.pushed σ q c₁ ↔ Below c₁.sp j x) (hroom : j + 2 ≤ 65536)
    (hkeeps : c₁.Keeps c₂.toCpu) (hde : c₂.de = c₁.de)
    (hframe : ∀ x, ¬ Below c₁.sp j x → c₂.mem x = c₁.mem x) :
    Readies σ (p ++ q) (max k (2 + j)) c c₂ := by
  have hsum : ∀ x, Below c.sp (max k (2 + j)) x ↔ Below c.sp k x ∨ Below c₁.sp j x := by
    intro x
    have hadd := @below_add c.sp x 2 j (by decide)
    have h2 : UInt16.ofNat 2 = 2 := rfl
    rw [below_max, hadd, h.sp, h2]
    have hsub : Below c.sp 2 x → Below c.sp k x := fun hx => hx.mono h.size
    rw [← or_assoc, or_iff_left_of_imp hsub]
  -- the saved word is above what is pushed
  have hsaved : c₂.wordAt (c.sp - 2) = c.hl := by
    obtain ⟨htop, hbot⟩ : ¬ Below (c.sp - 2) j (c.sp - 1) ∧ ¬ Below (c.sp - 2) j (c.sp - 2) :=
      not_below_pushed hroom
    rw [h.sp] at hframe
    have hnext : c.sp - 2 + 1 = c.sp - 1 := by grind
    rw [← h.saved]
    unfold Cpu.wordAt
    rw [hnext, hframe _ htop, hframe _ hbot]
  refine ⟨Line.run_trans h.run hrun, fun x => ?_, by omega, hkeeps.a.trans h.a,
    hkeeps.bc.trans h.bc, hde.trans h.de, hkeeps.ix.trans h.ix, hkeeps.iy.trans h.iy,
    hkeeps.sp.trans h.sp, hsaved, fun x hx => ?_⟩
  · rw [Line.pushed_append h.run, List.mem_append, h.pushed, hpushed, hsum]
  · rw [hsum, not_or] at hx
    rw [hframe x hx.2, h.frame x hx.1]

theorem load (h : Readies σ p k c c₁) (i : Instruction) (code : MachineInstr) {w : UInt16}
    (hexec : code.exec σ (c₁.skip code.bytes.length) = some c₂) (hpushed : code.pushed c₁ = [])
    (hc₂ : c₂.toCpu = { c₁.toCpu with hl := w }) :
    Readies σ (p ++ [Line.instr i code]) k c c₂ := by
  have hsize := h.size
  have hrun : Line.run σ [.instr i code] c₁ = some c₂ := by simp [Line.exec, hexec]
  have hstep := h.step (j := 0) hrun (by simp [Line.pushed, hpushed, Line.exec, hexec]) (by decide)
    (by rw [hc₂]; exact ⟨rfl, rfl, rfl, rfl, rfl⟩) (by rw [hc₂]) fun x _ => by rw [hc₂]
  rwa [Nat.max_eq_left (by omega)] at hstep

/-- A byte in `l` is extended by zeros. -/
theorem widen (h : Readies σ p k c c₁)
    (hq : Line.Renders r [.of "ld" [.ofReg "h", .ofNum 0]] q) :
    ∃ c₂, Readies σ (p ++ q) k c c₂ ∧ c₂.hl = (lowByte c₁.hl).toUInt16 := by
  obtain ⟨i, code, rfl, hcode⟩ := hq.of_singleton
  have hld : assemble r (.of "ld" [.ofReg "h", .ofNum 0]) = .ok (.ldImm .h 0) := rfl
  rw [hld] at hcode
  cases hcode
  exact ⟨_, h.load i (.ldImm .h 0) rfl rfl rfl, wordOf_zero _⟩

/-- Exchanging `hl` for the saved word puts the other word on the stack. -/
theorem swap (h : Readies σ p k c c₁) (hq : Line.Renders r [FnContext.swapTop] q) :
    ∃ c', Line.Puts σ (p ++ q) k [c₁.hl] c c' := by
  obtain ⟨i, code, rfl, hcode⟩ := hq.of_singleton
  have hswap : assemble r FnContext.swapTop = .ok .exSP := rfl
  rw [hswap] at hcode
  cases hcode
  have hsize := h.size
  have htop : c.sp - 2 + 1 = c.sp - 1 := by grind
  refine ⟨(c₁.skip 1).act (·.swapTop), Line.run_trans h.run rfl, fun x => ?_, hsize,
    ⟨h.a, h.bc, h.de, ?_, h.ix, h.iy⟩, h.sp, ⟨?_, trivial⟩, fun x hx => ?_⟩
  · rw [Line.pushed_append h.run, ← h.pushed]
    simp [Line.pushed, Line.exec, MachineInstr.pushed, MachineInstr.exec]
  · show c₁.wordAt c₁.sp = c.hl
    rw [h.sp]
    exact h.saved
  · have hne : c₁.sp ≠ c₁.sp + 1 := by grind
    simp [Core.act, Cpu.swapTop, Cpu.store, Cpu.wordAt, hne]
  · -- the word lies in the bytes that were pushed
    have htwo := @below_add_two c.sp x (k - 2)
    rw [Nat.sub_add_cancel hsize] at htwo
    have hout := h.frame x hx
    rw [htwo, not_or, not_or] at hx
    simp [Core.act, Cpu.swapTop, Cpu.store, h.sp, htop, hx.1, hx.2.1, hout]

end Line.Readies

/-! ## Loads -/

/-- Lines that lead to the registers and the memory of `u`, apart from the `k`
    bytes below the stack pointer, which are those that they push. -/
structure Line.Leads (σ : String → UInt16) (q : List Line) (k : Nat) (u : Cpu) (c c' : Core) :
    Prop where
  run : Line.run σ q c = some c'
  pushed : ∀ x, x ∈ Line.pushed σ q c ↔ Below c.sp k x
  regs : u.SameRegs c'.toCpu
  mem : ∀ x, ¬ Below c.sp k x → c'.mem x = u.mem x

/-- The value of `hl` after a word is loaded into it, or a byte into `l`. -/
def Cpu.loadedHL (s : Cpu) (isByte : Bool) (x : UInt16) : UInt16 :=
  if isByte then wordOf (highByte s.hl) (s.mem x) else s.wordAt x

section

variable {σ : String → UInt16} {r : Resolver} {q : List Line} {v : Cpu → UInt16}
  {cells : Cpu → List UInt16} {a : Address} {c : Core}

/-- Lines of address code lead where its steps do. -/
theorem Line.exists_leads_of_achieves {steps : List Step} {u : Cpu}
    (hq : Line.Renders r (steps.map (·.instruction)) q)
    (hsteps : Step.AllWithin r.IsSymbol steps)
    (h : Line.pushed σ q c = Step.pushed σ steps c.toCpu → Achieves σ steps c.toCpu u) :
    ∃ k c', Line.Leads σ q k u c c' := by
  obtain ⟨c', hrun, hc', hpushed⟩ := hq.run_steps hsteps σ c
  obtain ⟨hregs, hmem, k, hk⟩ := h hpushed
  rw [← hc'] at hregs hmem
  refine ⟨k, c', hrun, fun x => ?_, hregs, fun x hx => hmem x ?_⟩
  · rw [hpushed, hk]
  · rwa [hk]

namespace Address

theorem isFar_mem_absolute {S : String → Prop} {sym : String} (h : S sym) (off extra : Int64) :
    ((absolute sym off).mem extra).IsFar S := by
  unfold Address.mem
  by_cases hempty : sym = ""
  · simp [hempty, MemRef.IsFar]
  · simpa [hempty, MemRef.IsFar] using h

theorem allWithin_loadWord {S : String → Prop} (ha : a.Within S) :
    Step.AllWithin S (a.loadWord .hl) := by
  cases a with
  | frame d =>
    simp only [loadWord]
    split
    · simp [Step.Within, WordReg.low, WordReg.high, Address.mem]
    · simp [toHL, loadWordVia, fetchWord, Step.Within]
  | absolute s off => simp [loadWord, Step.Within, isFar_mem_absolute (S := S) ha]
  | computed steps =>
    have hsteps : Step.AllWithin S steps := ha
    simp [loadWord, loadWordVia, fetchWord, Step.Within, hsteps]

/-- A byte at a symbol is loaded through `a`, which waits on the stack together
    with the flags. -/
theorem exists_leads_borrow {sym : String} {off : Int64} (h : Reaches σ v cells (absolute sym off))
    (ha : r.IsSymbol sym)
    (hq : Line.Renders r (((absolute sym off).loadByte .l).map (·.instruction)) q)
    (hclear : v c.toCpu ∉ Line.pushed σ q c) :
    ∃ c', Line.Leads σ q 2 { c.toCpu with hl := c.loadedHL true (v c.toCpu) } c c' := by
  have hfar := isFar_mem_absolute (S := r.IsSymbol) ha off 0
  have haddr := addr_mem_zero h nofun c.toCpu
  have hcode : ((absolute sym off).loadByte .l).map (·.instruction) =
      [Step.instruction (.push .af), Step.instruction (.loadByte .a ((absolute sym off).mem 0)),
        Step.instruction (.ldReg .l .a), Step.instruction (.pop .af)] := rfl
  rw [hcode] at hq
  generalize (absolute sym off).mem 0 = m at hfar haddr hq
  cases hq with | cons hpush hq
  cases hq with | cons hload hq
  cases hq with | cons hmove hq
  cases hq with | cons hpop hq
  cases hq
  rw [Step.instruction, assemble_push] at hpush
  rw [Step.instruction, assemble_pop] at hpop
  have hmove' : assemble r (Step.instruction (.ldReg .l .a)) = .ok (.ld .l .a) := rfl
  rw [hmove'] at hmove
  obtain ⟨w, rfl, hw⟩ := Step.exec_loadA (σ := σ) hfar (c.push (c.stacked .af)).toCpu hload
  cases hpush
  cases hmove
  cases hpop
  -- the cell is clear of the word that waits on the stack
  have hne : v c.toCpu ≠ c.sp - 1 ∧ v c.toCpu ≠ c.sp - 2 := by
    simpa [Line.pushed, Line.exec, MachineInstr.exec, MachineInstr.pushed] using hclear
  rw [haddr _ (by simp)] at hw
  have hsp : c.sp - 2 + 2 = c.sp := by grind
  have hback : (c.toCpu.push (wordOf c.a c.f)).mem (c.sp - 2 + 1) = c.a := by
    have hhigh := congrArg highByte (c.wordAt_push (wordOf c.a c.f))
    simpa [Cpu.wordAt] using hhigh
  have hread : (c.toCpu.push (wordOf c.a c.f)).mem (v c.toCpu) = c.mem (v c.toCpu) :=
    Cpu.mem_push_of_ne hne.1 hne.2
  have hbelow : ∀ x, Below c.sp 2 x ↔ x = c.sp - 1 ∨ x = c.sp - 2 := by
    intro x
    simpa using @below_add_two c.sp x 0
  refine ⟨_, rfl, fun x => ?_, ?_, fun x hx => ?_⟩
  · rw [hbelow]
    simp [Line.pushed, Line.exec, MachineInstr.exec, MachineInstr.pushed]
  · constructor <;> simp [Core.pop, Core.act, Core.push, Core.skip, Core.stacked, Cpu.setByte,
      Cpu.byte, Cpu.pop, Cpu.setStacked, Cpu.wordAt, Cpu.loadedHL, hw, hread, hback, hsp]
  · rw [hbelow, not_or] at hx
    exact Cpu.mem_push_of_ne hx.1 hx.2

/-- The steps that load a word into `hl`, or a byte into `l`. -/
def loadHL (a : Address) (isByte : Bool) : List Step :=
  if isByte then a.loadByte .l else a.loadWord .hl

/-- A word is loaded into `hl`, or a byte into `l`. -/
theorem exists_leads_loadHL {isByte : Bool} (h : Reaches σ v cells a) (hst : Stable v cells)
    (ha : a.Within r.IsSymbol) (hq : Line.Renders r ((a.loadHL isByte).map (·.instruction)) q)
    (hclear : ∀ x ∈ cells c.toCpu ++ cellsAt isByte (v c.toCpu), x ∉ Line.pushed σ q c) :
    ∃ k c', Line.Leads σ q k { c.toCpu with hl := c.loadedHL isByte (v c.toCpu) } c c' := by
  cases isByte with
  | false =>
    refine Line.exists_leads_of_achieves hq (allWithin_loadWord ha) fun hpushed => ?_
    rw [hpushed] at hclear
    exact achieves_loadWord h hst .hl hclear
  | true =>
    have hspares : a.SparesPointers := by
      cases a with
      | absolute sym off => exact ha.1
      | frame d | computed steps => trivial
    have hsteps : Step.AllWithin r.IsSymbol (a.loadByte .l) →
        ∃ k c', Line.Leads σ q k { c.toCpu with hl := c.loadedHL true (v c.toCpu) } c c' := by
      intro hwithin
      refine Line.exists_leads_of_achieves hq hwithin fun hpushed => ?_
      rw [hpushed] at hclear
      exact achieves_loadByte h hst hspares .l hclear
    cases a with
    | frame d => exact hsteps (by simp [loadByte, Step.Within, Address.mem])
    | computed steps =>
      cases steps with
      | nil => exact hsteps (by simp [loadByte, Step.Within])
      | cons st steps =>
        have hvia : ∀ code, Step.AllWithin r.IsSymbol code →
            Step.AllWithin r.IsSymbol (loadByteVia code .l) := by
          intro code hcode
          simp [loadByteVia, Step.Within, hcode]
        exact hsteps (hvia _ ha)
    | absolute sym off => exact ⟨2, exists_leads_borrow h ha hq (hclear _ (by simp [cellsAt]))⟩

end Address

end

/-! ## Arguments -/

namespace FnContext

variable {ctx : FnContext} {σ : String → UInt16} {c : Core} {ls q : List Line}

/-- Can the operand be passed as it is?  Its storage is at symbols, and it is
    not `af`, whose flags are changed on the way. -/
structure Passable (ctx : FnContext) (arg : Operand) : Prop where
  not_af : ∀ name span, arg = .reg name span → Text.lower name ≠ "af"
  symbols : ctx.scope.Within ctx.resolver.IsSymbol arg.roots

/-- Storage is read while `hl` waits on the stack. -/
theorem exists_readies_load {p : Place} {x : Resolved} (isByte : Bool) {m : List Line}
    (h : p.resolve ctx.scope ctx.resolver = .ok x)
    (hsymbols : ctx.scope.Within ctx.resolver.IsSymbol p.roots)
    (hm : Line.Renders ctx.resolver [.of "push" [.ofReg "hl"]] m)
    (hq : Line.Renders ctx.resolver ((x.address.loadHL isByte).map (·.instruction)) q)
    (hclear : ∀ y ∈ p.cells ctx.scope ctx.resolver σ c.toCpu ++
      cellsAt isByte (p.address ctx.scope ctx.resolver σ c.toCpu), y ∉ Line.pushed σ (m ++ q) c) :
    ∃ k c₁, Line.Readies σ (m ++ q) k c c₁ ∧
      c₁.hl = c.loadedHL isByte (p.address ctx.scope ctx.resolver σ c.toCpu) := by
  obtain ⟨c₁, hready, hc₁⟩ := Line.Readies.start hm σ c
  have hpushed : ∀ y, y ∉ Line.pushed σ (m ++ q) c →
      ¬ Below c.sp 2 y ∧ y ∉ Line.pushed σ q c₁ := by
    intro y hy
    rwa [Line.pushed_append hready.run, List.mem_append, not_or, hready.pushed] at hy
  -- the storage is where it was before `hl` was pushed, and holds the same
  have hsame : ∀ y, y ∉ Line.pushed σ (m ++ q) c → c₁.mem y = c.mem y :=
    fun y hy => hready.frame y (hpushed y hy).1
  have halike : c.Alike c₁.toCpu := by
    rw [hc₁]
    exact Cpu.alike_push _ _
  obtain ⟨haddr, hcells⟩ : p.address ctx.scope ctx.resolver σ c₁.toCpu =
      p.address ctx.scope ctx.resolver σ c.toCpu ∧
      p.cells ctx.scope ctx.resolver σ c₁.toCpu = p.cells ctx.scope ctx.resolver σ c.toCpu :=
    p.congr halike fun y hy => hsame y (hclear y (List.mem_append_left _ hy))
  obtain ⟨_, b, e, scale, hreach, hmeaning⟩ := Place.reaches_of_resolve (σ := σ) h
  obtain ⟨hplace, hconsulted⟩ := hmeaning c₁.toCpu
  rw [hcells] at hconsulted
  rw [haddr] at hplace
  have hread : ∀ y ∈ cellsAt isByte (p.address ctx.scope ctx.resolver σ c.toCpu),
      y ∉ Line.pushed σ (m ++ q) c := fun y hy => hclear y (List.mem_append_right _ hy)
  obtain ⟨j, c₂, hrun, hmem, hregs, hframe⟩ := Address.exists_leads_loadHL hreach
    (stable_effective σ b e scale) (Place.within_of_resolve hsymbols h) hq fun y hy => by
      rw [hplace] at hy
      rcases List.mem_append.mp hy with hy | hy
      · exact (hpushed y (hclear y (List.mem_append_left _ (hconsulted y hy)))).2
      · exact (hpushed y (hread y hy)).2
  -- the cell that is read leaves room on the stack
  have hroom : j + 2 < 65536 := by
    obtain ⟨htwo, hrest⟩ := hpushed _ (hread _ (mem_cellsAt ..))
    rw [hmem, hready.sp] at hrest
    have hall : ¬ Below c.sp (2 + j) (p.address ctx.scope ctx.resolver σ c.toCpu) := by
      rw [below_add (by decide), not_or]
      exact ⟨htwo, hrest⟩
    have hlt := lt_of_not_below hall
    omega
  refine ⟨_, c₂, hready.step hrun hmem (by omega) ⟨hregs.a, hregs.bc, hregs.ix, hregs.iy, hregs.sp⟩
    hregs.de hframe, ?_⟩
  have hvalue : c₁.loadedHL isByte (p.address ctx.scope ctx.resolver σ c.toCpu) =
      c.loadedHL isByte (p.address ctx.scope ctx.resolver σ c.toCpu) := by
    have hfirst := hsame _ (hread _ (mem_cellsAt ..))
    cases isByte with
    | true => simp only [Cpu.loadedHL, if_true, hfirst, halike.hl]
    | false =>
      have hsecond := hsame _ (hread _ (succ_mem_cellsAt _))
      simp only [Cpu.loadedHL, Bool.false_eq_true, if_false, Cpu.wordAt, hfirst, hsecond]
  rw [hregs.hl, hplace]
  exact hvalue

/-- The code of storage puts its value on the stack. -/
theorem exists_puts_storage {p : Place} {is : List Instruction}
    (h : ctx.pushStorage p = .ok is)
    (hsymbols : ctx.scope.Within ctx.resolver.IsSymbol p.roots)
    (hls : Line.Renders ctx.resolver is ls)
    (hclear : ∀ y ∈ p.cells ctx.scope ctx.resolver σ c.toCpu ++
      cellsAt (p.isByte ctx.scope ctx.resolver) (p.address ctx.scope ctx.resolver σ c.toCpu),
        y ∉ Line.pushed σ ls c) :
    ∃ k c', Line.Puts σ ls k [c.read (p.isByte ctx.scope ctx.resolver)
      (p.address ctx.scope ctx.resolver σ c.toCpu)] c c' := by
  unfold pushStorage at h
  split at h
  · cases h
  rename_i x hx
  have htype := (Place.reaches_of_resolve (σ := σ) hx).1
  dsimp only at h
  split at h
  · rename_i hwidth
    have hbyte : p.isByte ctx.scope ctx.resolver = true := by
      rw [← Place.width_beq_one htype (by rw [hwidth]; decide), hwidth]
      rfl
    cases h
    rw [hbyte] at hclear ⊢
    obtain ⟨mq, nt, rfl, hmq, hnt⟩ := hls.of_append
    obtain ⟨m, q, rfl, hm, hq⟩ := hmq.of_append
    obtain ⟨n, t, rfl, hn, ht⟩ := hnt.of_cons
    obtain ⟨k, c₁, hload, hhl⟩ := exists_readies_load true hx hsymbols hm hq
      fun y hy hmem => hclear y hy (Line.mem_pushed_append hmem _)
    obtain ⟨c₂, hwiden, hhl'⟩ := hload.widen hn
    obtain ⟨c', hputs⟩ := hwiden.swap ht
    have hvalue : c₂.hl = c.read true (p.address ctx.scope ctx.resolver σ c.toCpu) := by
      rw [hhl', hhl]
      simp [Cpu.loadedHL, Cpu.read]
    rw [hvalue, List.append_assoc] at hputs
    exact ⟨k, c', hputs⟩
  split at h
  · rename_i hwidth
    have hbyte : p.isByte ctx.scope ctx.resolver = false := by
      rw [← Place.width_beq_one htype (by rw [hwidth]; decide), hwidth]
      rfl
    cases h
    rw [hbyte] at hclear ⊢
    obtain ⟨mq, t, rfl, hmq, ht⟩ := hls.of_append
    obtain ⟨m, q, rfl, hm, hq⟩ := hmq.of_append
    obtain ⟨k, c₁, hload, hhl⟩ := exists_readies_load false hx hsymbols hm hq
      fun y hy hmem => hclear y hy (Line.mem_pushed_append hmem _)
    obtain ⟨c', hputs⟩ := hload.swap ht
    rw [hhl] at hputs
    exact ⟨k, c', hputs⟩
  · cases h

/-- The code of a register puts its value on the stack. -/
theorem exists_puts_reg {callee name : String} {n : Nat} {span : Span} {is : List Instruction}
    (h : ctx.pushArg callee n (.reg name span) = .ok is) (haf : Text.lower name ≠ "af")
    (hls : Line.Renders ctx.resolver is ls) :
    ∃ c', Line.Puts σ ls 2 [ctx.argWord σ c.toCpu (.reg name span)] c c' := by
  simp only [pushArg] at h
  simp only [argWord]
  generalize Text.lower name = reg at h haf ⊢
  split at h
  · rename_i hpushable
    cases h
    have hmem : reg = "bc" ∨ reg = "de" ∨ reg = "hl" ∨ reg = "ix" ∨ reg = "iy" := by
      simpa [isPushable, haf] using hpushable
    obtain ⟨i, code, rfl, hcode⟩ := hls.of_singleton
    -- the register goes by its name
    have hpush : ∃ x : StackReg, x ≠ .af ∧ reg = x.text ∧ Reg8.ofName? reg = none ∧
        c.named reg = c.toCpu.stacked x := by
      rcases hmem with rfl | rfl | rfl | rfl | rfl
      · exact ⟨.bc, by simp, rfl, rfl, rfl⟩
      · exact ⟨.de, by simp, rfl, rfl, rfl⟩
      · exact ⟨.hl, by simp, rfl, rfl, rfl⟩
      · exact ⟨.index .ix, by simp, rfl, rfl, rfl⟩
      · exact ⟨.index .iy, by simp, rfl, rfl, rfl⟩
    obtain ⟨x, hne, rfl, hname, hvalue⟩ := hpush
    rw [assemble_push] at hcode
    cases hcode
    simp only [hname, hvalue]
    rw [← c.stacked_of_ne hne]
    exact ⟨_, .of_push rfl rfl rfl⟩
  split at h
  · rename_i hsome
    cases h
    obtain ⟨x, hx⟩ := Option.isSome_iff_exists.mp hsome
    obtain rfl := Reg8.text_of_ofName? hx
    simp only [hx]
    obtain ⟨m, nt, rfl, hm, hnt⟩ := hls.of_cons
    obtain ⟨n, ot, rfl, hn, hot⟩ := hnt.of_cons
    obtain ⟨o, t, rfl, ho, ht⟩ := hot.of_cons
    obtain ⟨c₁, hready, hc₁⟩ := Line.Readies.start hm σ c
    obtain ⟨i, code, rfl, hcode⟩ := hn.of_singleton
    have hld : assemble ctx.resolver (.of "ld" [.ofReg "l", .ofReg x.text]) = .ok (.ld .l x) := by
      cases x <;> rfl
    rw [hld] at hcode
    cases hcode
    obtain ⟨c₂, hwiden, hhl⟩ := (hready.load i (.ld .l x) rfl rfl rfl).widen ho
    obtain ⟨c', hputs⟩ := hwiden.swap ht
    have hvalue : c₂.hl = (c.byte x).toUInt16 := by
      have hbyte : c₁.byte x = c.byte x := by
        rw [hc₁]
        exact (Cpu.alike_push _ _).byte x
      rw [hhl, ← hbyte]
      exact congrArg UInt8.toUInt16 (lowByte_wordOf _ _)
    rw [hvalue, List.append_assoc, List.append_assoc] at hputs
    exact ⟨c', hputs⟩
  · cases h

/-- The code of an immediate puts its value on the stack. -/
theorem exists_puts_imm {r : Resolver} {e : Expr} {span : Span}
    (hls : Line.Renders r
      [.of "push" [.ofReg "hl"], .of "ld" [.ofReg "hl", .imm e span], swapTop] ls) :
    ∃ c', Line.Puts σ ls 2 [e.word r σ] c c' := by
  obtain ⟨m, nt, rfl, hm, hnt⟩ := hls.of_cons
  obtain ⟨n, t, rfl, hn, ht⟩ := hnt.of_cons
  obtain ⟨c₁, hready, -⟩ := Line.Readies.start hm σ c
  obtain ⟨i, code, rfl, hcode⟩ := hn.of_singleton
  obtain ⟨w, rfl, hw⟩ := assemble_ld_imm .hl hcode
  obtain ⟨c', hputs⟩ := (hready.load i (.ldPairImm .hl w) rfl rfl rfl).swap ht
  rw [List.append_assoc] at hputs
  rw [← hw σ]
  exact ⟨c', hputs⟩

/-- The code of an argument puts its value on the stack.  Only storage takes
    more of the stack than the word. -/
theorem exists_puts_arg {callee : String} {n : Nat} {arg : Operand} {is : List Instruction}
    (h : ctx.pushArg callee n arg = .ok is) (harg : ctx.Passable arg)
    (hls : Line.Renders ctx.resolver is ls)
    (hclear : ∀ y ∈ ctx.argCells σ c.toCpu arg, y ∉ Line.pushed σ ls c) :
    ∃ k c', Line.Puts σ ls k [ctx.argWord σ c.toCpu arg] c c' ∧
      (k = 2 ∨ ∃ y, y ∈ ctx.argCells σ c.toCpu arg) := by
  cases arg with
  | reg name span =>
    obtain ⟨c', hputs⟩ := exists_puts_reg h (harg.not_af name span rfl) hls
    exact ⟨2, c', hputs, .inl rfl⟩
  | imm e span =>
    cases h
    obtain ⟨c', hputs⟩ := exists_puts_imm hls
    exact ⟨2, c', hputs, .inl rfl⟩
  | place p span | mem p span =>
    simp only [pushArg] at h
    split at h
    · obtain ⟨k, c', hputs⟩ := exists_puts_storage h harg.symbols hls hclear
      exact ⟨k, c', hputs, .inr ⟨_, List.mem_append_right _ (mem_cellsAt ..)⟩⟩
    · cases h
  | port e span | portC span | missing => cases h

/-! ## Lists of arguments -/

/-- The lines that pass arguments: those of the first come last. -/
inductive Passes (ctx : FnContext) (callee : String) : List Operand → List Line → Prop where
  | nil : Passes ctx callee [] []
  | cons {n arg args is ls ms} (hcode : ctx.pushArg callee n arg = .ok is)
      (hms : Line.Renders ctx.resolver is ms) (h : Passes ctx callee args ls) :
      Passes ctx callee (arg :: args) (ls ++ ms)

/-- Arguments that are pushed without a report are passed. -/
theorem passes_of_pushArgs {callee : String} {span : Span} {args : List (Operand × Nat)}
    {s s' : FnState} (h : ctx.pushArgs callee span args s = (true, s')) (hsilent : s.Silent s') :
    ∃ ls, s'.lines = s.lines ++ ls ∧ ctx.Passes callee (args.map (·.1)) ls := by
  induction args generalizing s' with
  | nil =>
    cases h
    exact ⟨[], by simp, .nil⟩
  | cons a args ih =>
    obtain ⟨arg, i⟩ := a
    rw [pushArgs] at h
    split at h
    · cases h
    rename_i s₁ hrest
    split at h
    · cases h
    rename_i is his
    cases h
    have hextends := ctx.extends_pushArgs callee span args s
    rw [hrest] at hextends
    obtain ⟨hfirst, hlast⟩ := hextends.silent (s₁.extends_emitAll ctx.resolver span is) hsilent
    obtain ⟨ls, hls, hpasses⟩ := ih hrest hfirst
    obtain ⟨ms, hms, hrenders⟩ := Line.Renders.of_silent hlast
    refine ⟨ls ++ ms, ?_, .cons his hrenders hpasses⟩
    rw [hms, hls, List.append_assoc]

/-- The code of arguments puts their values on the stack, the first on top.
    Each has the value that it had before the first of them was passed. -/
theorem exists_puts_args {callee : String} {args : List Operand} (h : ctx.Passes callee args ls)
    (hargs : ∀ arg ∈ args, ctx.Passable arg)
    (hclear : ∀ arg ∈ args, ∀ y ∈ ctx.argCells σ c.toCpu arg, y ∉ Line.pushed σ ls c)
    (hroom : 2 * args.length ≤ 65536) :
    ∃ k c', Line.Puts σ ls k (args.map (ctx.argWord σ c.toCpu)) c c' := by
  induction h with
  | nil => exact ⟨0, c, .nil⟩
  | @cons n arg args is ls ms hcode hms h ih =>
    obtain ⟨j, c₁, hputs⟩ := ih (fun a ha => hargs a (List.mem_cons_of_mem _ ha))
      (fun a ha y hy hmem => hclear a (List.mem_cons_of_mem _ ha) y hy
        (Line.mem_pushed_append hmem ms)) (by rw [List.length_cons] at hroom; omega)
    have houtside : ∀ y ∈ ctx.argCells σ c.toCpu arg,
        ¬ Below c.sp j y ∧ y ∉ Line.pushed σ ms c₁ := by
      intro y hy
      have hout := hclear arg List.mem_cons_self y hy
      rwa [Line.pushed_append hputs.run, List.mem_append, not_or, hputs.pushed] at hout
    -- the words that are on the stack by now do not change the argument
    obtain ⟨hword, hcells⟩ := ctx.arg_congr (σ := σ) arg hputs.alike
      fun y hy => hputs.frame y (houtside y hy).1
    obtain ⟨k, c₂, hputs', hk⟩ := exists_puts_arg (σ := σ) (c := c₁) hcode
      (hargs arg List.mem_cons_self) hms fun y hy => (houtside y (hcells ▸ hy)).2
    rw [hword] at hputs'
    refine ⟨_, c₂, hputs.append hputs' ?_⟩
    rw [List.length_map]
    rw [List.length_cons] at hroom
    rcases hk with rfl | ⟨y, hy⟩
    · omega
    · -- a cell that is read is above all that is pushed
      rw [hcells] at hy
      obtain ⟨habove, hbelow⟩ := houtside y hy
      rw [hputs'.pushed, hputs.sp, List.length_map] at hbelow
      have hsize := hputs.size
      rw [List.length_map] at hsize
      have hall : ¬ Below c.sp (2 * args.length + k) y := by
        rw [below_add (by omega), not_or]
        exact ⟨fun h => habove (h.mono hsize), hbelow⟩
      have hlt := lt_of_not_below hall
      omega

end FnContext

end Z80Backend
