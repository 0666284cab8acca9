import Z80Backend.Proofs.Call.Arguments

/-! # Frames

    The beginning of a function leaves words on the stack: the old value of
    `ix`, if there is a frame, then the locals, then the registers that are
    saved.  Its end takes them back from there, so that the return address is
    on top again.

    * `FnContext.frameWords` are the words that the beginning leaves.
    * `FnContext.exists_begins`: the beginning leaves them, and of the registers
      it changes `ix` and `sp` only.
    * `FnContext.exists_ends`: the end brings back the saved registers and `ix`,
      and leaves for the return address. -/

namespace Z80Backend

/-! ## Lines around the body -/

/-- The initial value of a local, which is zero if it is missing. -/
def Local.value (l : Local) : Expr :=
  match l.init with
  | .missing => .number 0
  | e => e

/-- Has the initial value of a local a word?  A constant must be in range. -/
def Local.HasWord (r : Resolver) (l : Local) : Prop :=
  ∃ v, l.value.evalSymbolic r = .ok v ∧
    (v.isConst = true → -32768 ≤ v.addend ∧ v.addend ≤ 65535)

section

variable {r : Resolver}

theorem FnContext.assembles_linesOf (ctx : FnContext) {is : List Instruction}
    (h : ∀ i ∈ is, i.HasCode ctx.resolver) : Line.Assembles ctx.resolver is (ctx.linesOf is) := by
  induction is with
  | nil => exact .nil
  | cons i is ih =>
    obtain ⟨code, hcode⟩ := h i List.mem_cons_self
    rw [linesOf_ok hcode]
    exact .cons hcode (ih fun i hi => h i (List.mem_cons_of_mem _ hi))

theorem Line.Assembles.renders {is : List Instruction} {ls : List Line}
    (h : Line.Assembles r is ls) : Line.Renders r is ls := by
  induction h with
  | nil => exact .nil
  | cons hcode _ ih => exact .cons hcode ih

theorem FnContext.initLocal_eq (l : Local) :
    initLocal l =
      [.of "push" [.ofReg "hl"], .of "ld" [.ofReg "hl", .imm l.value {}], swapTop] := by
  unfold initLocal Local.value
  cases l.init <;> rfl

theorem Local.HasWord.hasCode {l : Local} (h : l.HasWord r) :
    ∀ i ∈ FnContext.initLocal l, i.HasCode r := by
  obtain ⟨v, hv, hrange⟩ := h
  have himm : Arg.ofOperand r "ld" (.imm l.value {}) = .ok (.imm v l.value) := by
    simp [Arg.ofOperand, hv]
  have hld : (Instruction.of "ld" [.ofReg "hl", .imm l.value {}]).HasCode r :=
    (hasCode_ld_iff (a := .pair .hl) rfl himm).mpr (Selection.exists_withWord_iff.mpr hrange)
  rw [FnContext.initLocal_eq]
  intro i hi
  simp only [List.mem_cons, List.not_mem_nil, or_false] at hi
  rcases hi with rfl | rfl | rfl
  · exact hasCode_push .hl
  · exact hld
  · exact ⟨.exSP, rfl⟩

end

/-! ## Words in turn -/

@[simp] theorem Cpu.stacked_sp (s : Cpu) (v : UInt16) (x : StackReg) :
    ({ s with sp := v } : Cpu).stacked x = s.stacked x := by
  cases x with
  | index x => cases x <;> rfl
  | af | bc | de | hl => rfl

@[simp] theorem Cpu.sp_pop (s : Cpu) (x : StackReg) : (s.pop x).sp = s.sp + 2 := by
  cases x with
  | index x => cases x <;> rfl
  | af | bc | de | hl => rfl

@[simp] theorem Cpu.mem_pop (s : Cpu) (x : StackReg) : (s.pop x).mem = s.mem := by
  cases x with
  | index x => cases x <;> rfl
  | af | bc | de | hl => rfl

section

variable {σ : String → UInt16} {r : Resolver} {ls : List Line} {c : Core}

/-- Code that puts a word on the stack for each element of a list.  `P` is what
    the words depend on. -/
theorem Line.exists_puts_each {α : Type} {code : α → List Instruction} {w : α → UInt16}
    {P : Core → Prop}
    (hstep : ∀ (x : α) ls c, P c → Line.Renders r (code x) ls →
      ∃ c', Line.Puts σ ls 2 [w x] c c' ∧ P c')
    {xs : List α} (h : Line.Renders r (xs.flatMap code) ls) (hc : P c)
    (hroom : 2 * xs.length ≤ 65536) :
    ∃ c', Line.Puts σ ls (2 * xs.length) (xs.map w).reverse c c' ∧ P c' := by
  induction xs generalizing ls c with
  | nil =>
    cases h
    exact ⟨c, .nil, hc⟩
  | cons x xs ih =>
    rw [List.length_cons] at hroom
    obtain ⟨p, q, rfl, hp, hq⟩ := Line.Renders.of_append h
    obtain ⟨c₁, hfirst, hc₁⟩ := hstep x p c hc hp
    obtain ⟨c', hrest, hc'⟩ := ih hq hc₁ (by omega)
    have hall := hfirst.append hrest (by simp only [List.length_singleton]; omega)
    have hsize : max 2 (2 * [w x].length + 2 * xs.length) = 2 * (x :: xs).length := by
      simp only [List.length_cons, List.length_nil]
      omega
    rw [hsize] at hall
    exact ⟨c', by rwa [List.map_cons, List.reverse_cons], hc'⟩

/-- Locals are put on the stack in turn. -/
theorem Line.exists_puts_locals {locals : List Local}
    (h : Line.Renders r (locals.flatMap FnContext.initLocal) ls)
    (hroom : 2 * locals.length ≤ 65536) :
    ∃ c', Line.Puts σ ls (2 * locals.length) (locals.map (·.value.word r σ)).reverse c c' := by
  have hstep : ∀ (l : Local) ls c, True → Line.Renders r (FnContext.initLocal l) ls →
      ∃ c', Line.Puts σ ls 2 [l.value.word r σ] c c' ∧ True := by
    intro l ls c _ hls
    rw [FnContext.initLocal_eq] at hls
    obtain ⟨c', hputs⟩ := FnContext.exists_puts_imm (c := c) hls
    exact ⟨c', hputs, trivial⟩
  obtain ⟨c', hputs, -⟩ := Line.exists_puts_each (P := fun _ => True) hstep h trivial hroom
  exact ⟨c', hputs⟩

/-- Registers are saved in turn. -/
theorem Line.exists_puts_saves {regs : List StackReg}
    (h : Line.Renders r (regs.map fun x => .of "push" [.ofReg x.text]) ls)
    (hroom : 2 * regs.length ≤ 65536) :
    ∃ c', Line.Puts σ ls (2 * regs.length) (regs.map c.stacked).reverse c c' := by
  -- pushing changes no register that is pushed later
  have hstep : ∀ (x : StackReg) ls c₁, c₁.stacked = c.stacked →
      Line.Renders r [.of "push" [.ofReg x.text]] ls →
      ∃ c', Line.Puts σ ls 2 [c.stacked x] c₁ c' ∧ c'.stacked = c.stacked := by
    intro x ls c₁ hc₁ hls
    obtain ⟨i, code, rfl, hcode⟩ := hls.of_singleton
    rw [assemble_push] at hcode
    cases hcode
    rw [← hc₁]
    refine ⟨_, .of_push rfl rfl rfl, ?_⟩
    funext y
    simp [Core.stacked, Core.skip, Core.push, Core.act]
  rw [List.map_eq_flatMap] at h
  obtain ⟨c', hputs, -⟩ := Line.exists_puts_each (P := fun c₁ => c₁.stacked = c.stacked) hstep h
    rfl hroom
  exact ⟨c', hputs⟩

end

/-! ## The beginning -/

namespace FnContext

variable {ctx : FnContext} {locals : List Local} {σ : String → UInt16} {ls : List Line} {c : Core}

/-- The words that the beginning of a function leaves on the stack, the topmost
    first: the saved registers, the locals, and the old value of `ix`. -/
def frameWords (ctx : FnContext) (locals : List Local) (σ : String → UInt16) (c : Core) :
    List UInt16 :=
  (ctx.preserved.map c.stacked).reverse ++
    if ctx.hasFrame then (locals.map (·.value.word ctx.resolver σ)).reverse ++ [c.ix] else []

/-- The number of words that the beginning leaves on the stack. -/
def frameSize (ctx : FnContext) (locals : List Local) : Nat :=
  ctx.preserved.length + if ctx.hasFrame then locals.length + 1 else 0

/-- What the beginning of a function does.  The flags that it saves are those
    that the instruction before leaves. -/
structure Begins (ctx : FnContext) (locals : List Local) (σ : String → UInt16) (ls : List Line)
    (c c' : Core) : Prop where
  run : Line.run σ ls c = some c'
  a : c'.a = c.a
  bc : c'.bc = c.bc
  de : c'.de = c.de
  hl : c'.hl = c.hl
  iy : c'.iy = c.iy
  ix : c'.ix = if ctx.hasFrame then c.sp - 2 else c.ix
  sp : c'.sp = c.sp - UInt16.ofNat (2 * ctx.frameSize locals)
  words : ∃ f, c'.HasWords c'.sp (ctx.frameWords locals σ { c with f := f })
  frame : ∀ x, ¬ Below c.sp (2 * ctx.frameSize locals) x → c'.mem x = c.mem x

/-- Without a frame, registers are saved and nothing else is done. -/
theorem exists_begins_plain (hframe : ctx.hasFrame = false)
    (hls : Line.Renders ctx.resolver (ctx.prologue locals) ls)
    (hroom : 2 * ctx.frameSize locals ≤ 65536) : ∃ c', ctx.Begins locals σ ls c c' := by
  have hsize : ctx.frameSize locals = ctx.preserved.length := by simp [frameSize, hframe]
  rw [hsize] at hroom
  have hwords : ∀ c : Core, ctx.frameWords locals σ c = (ctx.preserved.map c.stacked).reverse := by
    simp [frameWords, hframe]
  by_cases hnone : ctx.preserved = []
  · -- there is nothing to do at all
    simp only [prologue, hframe, hnone, Bool.not_false, List.isEmpty_nil, Bool.and_true, if_true]
      at hls
    obtain ⟨i, code, rfl, hcode⟩ := hls.of_singleton
    have hnop : assemble ctx.resolver (.of "nop" []) = .ok (.plain .nop) := rfl
    rw [hnop] at hcode
    cases hcode
    refine ⟨c.skip 1, rfl, rfl, rfl, rfl, rfl, rfl, ?_, ?_, ⟨c.f, ?_⟩, fun _ _ => rfl⟩
    · simp [hframe]
    · simp [hsize, hnone]
    · rw [hwords, hnone]
      trivial
  · have hprologue : ctx.prologue locals =
        ctx.preserved.map fun x => .of "push" [.ofReg x.text] := by
      simp [prologue, hframe, hnone]
    rw [hprologue] at hls
    obtain ⟨c', hputs⟩ := Line.exists_puts_saves (σ := σ) (c := c) hls hroom
    refine ⟨c', hputs.run, hputs.alike.a, hputs.alike.bc, hputs.alike.de, hputs.alike.hl,
      hputs.alike.iy, ?_, ?_, ⟨c.f, ?_⟩, ?_⟩
    · simpa [hframe] using hputs.alike.ix
    · simpa [hsize] using hputs.sp
    · rw [hwords]
      exact hputs.words
    · rw [hsize]
      exact hputs.frame

/-- The old value of `ix` is saved, and `ix` points to where it is.  The flags
    are those of the addition that `ix` comes from. -/
theorem exists_link {r : Resolver}
    (h : Line.Renders r [.of "push" [.ofReg "ix"], .of "ld" [.ofReg "ix", .ofNum 0],
      .of "add" [.ofReg "ix", .ofReg "sp"]] ls) :
    ∃ c₁, Line.run σ ls c = some c₁ ∧ c₁.toCpu = { c.toCpu.push c.ix with ix := c.sp - 2 } ∧
      c₁.f = c.addFlags 0 (c.sp - 2) := by
  have hpush : assemble r (.of "push" [.ofReg "ix"]) = .ok (.push (.index .ix)) := rfl
  have hload : assemble r (.of "ld" [.ofReg "ix", .ofNum 0]) =
      .ok (.ldIndexImm .ix (.const 0)) := rfl
  have hadd : assemble r (.of "add" [.ofReg "ix", .ofReg "sp"]) = .ok (.addIndex .ix .sp) := rfl
  cases h with | cons h₁ h
  cases h with | cons h₂ h
  cases h with | cons h₃ h
  cases h
  rw [hpush] at h₁
  rw [hload] at h₂
  rw [hadd] at h₃
  cases h₁
  cases h₂
  cases h₃
  refine ⟨_, rfl, ?_, rfl⟩
  have hsum : 0 + (c.sp - 2) = c.sp - 2 := UInt16.zero_add _
  simp only [Core.setIndex, Core.index, Core.pair, Core.skip, Core.push, Core.act, Core.stacked,
    Word.value, reduceCtorEq, if_false, Cpu.sp_push, hsum]
  rfl

/-- With a frame, the locals come between the old value of `ix` and the saved
    registers. -/
theorem exists_begins_frame (hframe : ctx.hasFrame = true)
    (hsaved : ∀ x ∈ ctx.preserved, x ∈ savedRegs)
    (hls : Line.Renders ctx.resolver (ctx.prologue locals) ls)
    (hroom : 2 * ctx.frameSize locals ≤ 65536) : ∃ c', ctx.Begins locals σ ls c c' := by
  have hsize : ctx.frameSize locals = ctx.preserved.length + (locals.length + 1) := by
    simp [frameSize, hframe]
  rw [hsize] at hroom
  simp only [prologue, hframe, Bool.not_true, Bool.false_and, Bool.false_eq_true, if_false, if_true]
    at hls
  obtain ⟨pq, t, rfl, hpq, ht⟩ := hls.of_append
  obtain ⟨p, q, rfl, hp, hq⟩ := hpq.of_append
  obtain ⟨c₁, hrun, hc₁, -⟩ := exists_link (σ := σ) (c := c) hp
  obtain ⟨c₂, hlocals⟩ := Line.exists_puts_locals (σ := σ) (c := c₁) hq (by omega)
  obtain ⟨c₃, hsaves⟩ := Line.exists_puts_saves (σ := σ) (c := c₂) ht (by omega)
  have hall := hlocals.append hsaves (by simp; omega)
  simp only [List.length_reverse, List.length_map] at hall
  have hmax : max (2 * locals.length) (2 * locals.length + 2 * ctx.preserved.length) =
      2 * (ctx.preserved.length + locals.length) := by omega
  rw [hmax] at hall
  -- the words above are not touched by those below
  have hlink : c₁.HasWords c₁.sp [c.ix] := by
    rw [hc₁]
    exact ⟨c.wordAt_push c.ix, trivial⟩
  have hold : c₃.HasWords c₁.sp [c.ix] := hlink.of_frame hall.frame (by simp; omega)
  have hsp₁ : c₁.sp = c.sp - 2 := by rw [hc₁]; rfl
  have hback : c₃.sp + UInt16.ofNat (2 * (ctx.preserved.length + locals.length)) = c₁.sp := by
    rw [hall.sp]
    simp
  have hregs : c.a = c₂.a ∧ c.bc = c₂.bc ∧ c.de = c₂.de ∧ c.hl = c₂.hl ∧ c.iy = c₂.iy := by
    obtain ⟨ha, hbc, hde, hhl, -, hiy⟩ := hlocals.alike
    rw [ha, hbc, hde, hhl, hiy, hc₁]
    simp
  obtain ⟨ha, hbc, hde, hhl, hiy⟩ := hregs
  have hstacked : ∀ x ∈ ctx.preserved, ({ c with f := c₂.f } : Core).stacked x = c₂.stacked x := by
    intro x hx
    have hmem := hsaved x hx
    simp only [savedRegs, List.mem_cons, List.not_mem_nil, or_false] at hmem
    rcases hmem with rfl | rfl | rfl | rfl <;> simp [Core.stacked, Cpu.stacked, ha, hbc, hde, hhl]
  refine ⟨c₃, Line.run_trans (Line.run_trans hrun hlocals.run) hsaves.run,
    hsaves.alike.a.trans ha.symm, hsaves.alike.bc.trans hbc.symm, hsaves.alike.de.trans hde.symm,
    hsaves.alike.hl.trans hhl.symm, hsaves.alike.iy.trans hiy.symm, ?_, ?_, ⟨c₂.f, ?_⟩,
    fun x hx => ?_⟩
  · rw [hall.alike.ix, hc₁, hframe]
    rfl
  · rw [hall.sp, hsp₁, hsize, ← Nat.add_assoc, Nat.mul_add _ _ 1, UInt16.ofNat_add]
    simp
    grind
  · unfold frameWords
    rw [List.map_congr_left hstacked, if_pos hframe, ← List.append_assoc, Cpu.hasWords_append]
    have hlen : ((ctx.preserved.map c₂.stacked).reverse ++
        (locals.map (·.value.word ctx.resolver σ)).reverse).length =
          ctx.preserved.length + locals.length := by simp
    refine ⟨hall.words, ?_⟩
    rw [hlen, hback]
    exact hold
  · rw [hsize, ← Nat.add_assoc, Nat.mul_add _ _ 1, below_add_two, not_or, not_or] at hx
    rw [hall.frame x (by rw [hsp₁]; exact hx.2.2), hc₁]
    exact Cpu.mem_push_of_ne hx.1 hx.2.1

/-- The beginning of a function leaves its words on the stack, whether or not
    it has a frame. -/
theorem exists_begins (hsaved : ∀ x ∈ ctx.preserved, x ∈ savedRegs)
    (hls : Line.Renders ctx.resolver (ctx.prologue locals) ls)
    (hroom : 2 * ctx.frameSize locals ≤ 65536) : ∃ c', ctx.Begins locals σ ls c c' := by
  cases hframe : ctx.hasFrame with
  | false => exact exists_begins_plain hframe hls hroom
  | true => exact exists_begins_frame hframe hsaved hls hroom

/-! ## The end -/

/-- The addresses of the words that the end of a function takes from the stack,
    when the body starts in `s`: the saved registers, and behind them or behind
    the frame the return address. -/
def savedAt (ctx : FnContext) (s : Cpu) : List UInt16 :=
  (List.range ctx.preserved.length).map (fun k => s.sp + UInt16.ofNat (2 * k)) ++
    if ctx.hasFrame then [s.ix, s.ix + 2] else [s.sp + UInt16.ofNat (2 * ctx.preserved.length)]

/-- A register that is taken from the stack is as it was when it was saved. -/
theorem stacked_pop_self {s : Cpu} {x : StackReg} (h : s.wordAt s.sp = c.stacked x) :
    (s.pop x).stacked x = c.toCpu.stacked x := by
  unfold Cpu.pop
  rw [h]
  cases x with
  | af => simp [Core.stacked, Cpu.setStacked, Cpu.stacked]
  | index x => cases x <;> rfl
  | bc | de | hl => rfl

/-- The other registers keep their values. -/
theorem stacked_pop_of_ne {s : Cpu} {x y : StackReg} (h : y ≠ x) :
    (s.pop x).stacked y = s.stacked y := by
  cases x with
  | index x => cases x <;> cases y with
    | index y => cases y <;> first | exact absurd rfl h | rfl
    | af | bc | de | hl => rfl
  | af | bc | de | hl => cases y with
    | index y => cases y <;> rfl
    | af | bc | de | hl => first | exact absurd rfl h | rfl

/-- Registers are taken from the stack in turn. -/
theorem exists_pops {r : Resolver} {regs : List StackReg} {t : Core} (hregs : regs.Nodup)
    (h : Line.Renders r (regs.map fun x => .of "pop" [.ofReg x.text]) ls)
    (hwords : t.HasWords t.sp (regs.map c.stacked)) :
    ∃ t', Line.run σ ls t = some t' ∧ t'.sp = t.sp + UInt16.ofNat (2 * regs.length) ∧
      t'.mem = t.mem ∧ (∀ x ∈ regs, t'.toCpu.stacked x = c.toCpu.stacked x) ∧
      ∀ x, x ∉ regs → t'.toCpu.stacked x = t.toCpu.stacked x := by
  induction regs generalizing ls t with
  | nil =>
    cases h
    exact ⟨t, rfl, by simp, rfl, nofun, fun _ _ => rfl⟩
  | cons x regs ih =>
    obtain ⟨hx, hregs⟩ := List.nodup_cons.mp hregs
    obtain ⟨p, q, rfl, hp, hq⟩ := Line.Renders.of_cons h
    obtain ⟨i, code, rfl, hcode⟩ := hp.of_singleton
    rw [assemble_pop] at hcode
    cases hcode
    obtain ⟨hword, hwords⟩ := hwords
    obtain ⟨t', hrun, hsp', hmem', hsaved, hothers⟩ := ih (t := (t.skip _).pop x) hregs hq (by
      show (t.toCpu.pop x).HasWords (t.toCpu.pop x).sp _
      rw [Cpu.sp_pop]
      exact hwords.of_wordAt fun _ _ => by simp [Cpu.wordAt])
    rw [Core.toCpu_pop, Core.toCpu_skip] at hsp' hmem' hothers
    refine ⟨t', hrun, ?_, by rw [hmem', Cpu.mem_pop], fun y hy => ?_, fun y hy => ?_⟩
    · rw [hsp', Cpu.sp_pop, List.length_cons, Cpu.add_two_mul_succ]
    · by_cases hyx : y = x
      · subst hyx
        rw [hothers y hx]
        exact stacked_pop_self hword
      · exact hsaved y ((List.mem_cons.mp hy).resolve_left hyx)
    · rw [List.mem_cons, not_or] at hy
      rw [hothers y hy.2, stacked_pop_of_ne hy.1]

/-- The frame is taken down: the stack pointer goes back to where `ix` points,
    and the old value of `ix` is taken from there. -/
theorem exists_unlink {r : Resolver}
    (h : Line.Renders r [.of "ld" [.ofReg "sp", .ofReg "ix"], .of "pop" [.ofReg "ix"]] ls) :
    ∃ c₁, Line.run σ ls c = some c₁ ∧
      c₁.toCpu = ({ c.toCpu with sp := c.ix } : Cpu).pop (.index .ix) := by
  have hload : assemble r (.of "ld" [.ofReg "sp", .ofReg "ix"]) = .ok (.ldSPIndex .ix) := rfl
  have hpop : assemble r (.of "pop" [.ofReg "ix"]) = .ok (.pop (.index .ix)) := rfl
  cases h with | cons h₁ h
  cases h with | cons h₂ h
  cases h
  rw [hload] at h₁
  rw [hpop] at h₂
  cases h₁
  cases h₂
  exact ⟨_, rfl, rfl⟩

namespace Begins

variable {c' t : Core} (h : ctx.Begins locals σ ls c c')

include h

theorem sp_add : c'.sp + UInt16.ofNat (2 * ctx.frameSize locals) = c.sp := by
  rw [h.sp]
  grind

/-- The return address is above what the beginning leaves. -/
theorem wordAt_sp (hroom : 2 * ctx.frameSize locals + 2 ≤ 65536) :
    c'.wordAt c.sp = c.wordAt c.sp := by
  have htop : c.HasWords c.sp [c.wordAt c.sp] := ⟨rfl, trivial⟩
  exact (htop.of_frame h.frame (by simpa using hroom)).1

/-- The old value of `ix` is the last of the words. -/
theorem wordAt_ix (hframe : ctx.hasFrame = true) : c'.wordAt c'.ix = c.ix := by
  obtain ⟨f, hwords⟩ := h.words
  have hlast : c'.ix = c'.sp + UInt16.ofNat (2 * (ctx.preserved.length + locals.length)) := by
    have hsize : ctx.frameSize locals = ctx.preserved.length + locals.length + 1 := by
      simp [frameSize, hframe, Nat.add_assoc]
    have hplace := h.sp_add
    rw [hsize, Cpu.add_two_mul_succ] at hplace
    rw [h.ix, hframe, if_pos rfl, ← hplace]
    grind
  unfold frameWords at hwords
  rw [if_pos hframe, ← List.append_assoc, Cpu.hasWords_append] at hwords
  rw [hlast]
  simpa using hwords.2.1

/-- The saved registers are taken from where the beginning has put them. -/
theorem exists_restores {p : List Line} (hnodup : ctx.preserved.Nodup)
    (hp : Line.Renders ctx.resolver
      (ctx.preserved.reverse.map fun x => .of "pop" [.ofReg x.text]) p) (hsp : t.sp = c'.sp)
    (hintact : ∀ x ∈ ctx.savedAt c'.toCpu, t.wordAt x = c'.wordAt x) :
    ∃ t₁, Line.run σ p t = some t₁ ∧ t₁.sp = c'.sp + UInt16.ofNat (2 * ctx.preserved.length) ∧
      (∀ x, t₁.wordAt x = t.wordAt x) ∧
      (∀ x ∈ ctx.preserved, t₁.toCpu.stacked x = c.toCpu.stacked x) ∧
      ∀ x, x ∉ ctx.preserved → t₁.toCpu.stacked x = t.toCpu.stacked x := by
  obtain ⟨f, hwords⟩ := h.words
  have hregisters : t.HasWords t.sp (ctx.preserved.reverse.map
      ({ c with f := f } : Core).stacked) := by
    rw [hsp, List.map_reverse]
    unfold frameWords at hwords
    refine (Cpu.hasWords_append.mp hwords).1.of_wordAt fun k hk => hintact _ ?_
    simp only [List.length_reverse, List.length_map] at hk
    exact List.mem_append_left _ (List.mem_map.mpr ⟨k, List.mem_range.mpr hk, rfl⟩)
  obtain ⟨t₁, hrun, hsp₁, hmem₁, hregs, hothers⟩ :=
    exists_pops (List.pairwise_reverse.mpr (hnodup.imp Ne.symm)) hp hregisters
  rw [hsp, List.length_reverse] at hsp₁
  simp only [List.mem_reverse] at hregs hothers
  exact ⟨t₁, hrun, hsp₁, fun x => by simp [Cpu.wordAt, hmem₁], hregs, hothers⟩

end Begins

/-- The end of a function takes down what its beginning has built: with the
    stack pointer and `ix` as the beginning leaves them, and with the words that
    it takes from the stack intact, it brings back `ix` and the saved registers
    and finds the return address. -/
theorem exists_ends {c' t : Core} {back : List Line} (hnodup : ctx.preserved.Nodup)
    (hsaved : ∀ x ∈ ctx.preserved, x ∈ savedRegs) (hbegins : ctx.Begins locals σ ls c c')
    (hroom : 2 * ctx.frameSize locals + 2 ≤ 65536)
    (hback : Line.Renders ctx.resolver ctx.cleanup back) (hsp : t.sp = c'.sp) (hix : t.ix = c'.ix)
    (hintact : ∀ x ∈ ctx.savedAt c'.toCpu, t.wordAt x = c'.wordAt x) :
    ∃ t', Line.run σ back t = some t' ∧ t'.sp = c.sp ∧ t'.ix = c.ix ∧
      t'.wordAt t'.sp = c.wordAt c.sp ∧
      ∀ x ∈ ctx.preserved, t'.toCpu.stacked x = c.toCpu.stacked x := by
  have hplace := hbegins.sp_add
  have hreturn := hbegins.wordAt_sp hroom
  obtain ⟨p, q, rfl, hp, hq⟩ := hback.of_append
  obtain ⟨t₁, hrun, hsp₁, hword₁, hregs, hothers⟩ :=
    hbegins.exists_restores hnodup hp hsp hintact
  have hindex : .index .ix ∉ ctx.preserved := by
    intro hmem
    have hbad := hsaved _ hmem
    simp [savedRegs] at hbad
  have hix₁ : t₁.ix = t.ix := hothers (.index .ix) hindex
  cases hframe : ctx.hasFrame with
  | false =>
    have hsize : ctx.frameSize locals = ctx.preserved.length := by simp [frameSize, hframe]
    simp only [hframe, Bool.false_eq_true, if_false] at hq
    cases hq
    have hsp' : t₁.sp = c.sp := by rw [hsp₁, ← hsize, hplace]
    refine ⟨t₁, by simpa using hrun, hsp', ?_, ?_, hregs⟩
    · rw [hix₁, hix, hbegins.ix, hframe]
      simp
    · have hmem : c.sp ∈ ctx.savedAt c'.toCpu := by
        unfold savedAt
        rw [hframe, ← hplace, hsize]
        exact List.mem_append_right _ List.mem_cons_self
      rw [hsp', hword₁, hintact _ hmem, hreturn]
  | true =>
    have hix' : t₁.ix = c.sp - 2 := by rw [hix₁, hix, hbegins.ix, hframe, if_pos rfl]
    simp only [hframe, if_true] at hq
    obtain ⟨t₂, hrun', ht₂⟩ := exists_unlink (σ := σ) (c := t₁) hq
    have hmem : ∀ x ∈ [c'.ix, c'.ix + 2], x ∈ ctx.savedAt c'.toCpu := by
      intro x hx
      unfold savedAt
      rw [hframe]
      exact List.mem_append_right _ hx
    have hsp' : t₂.sp = c.sp := by
      rw [ht₂, Cpu.sp_pop, hix']
      grind
    refine ⟨t₂, Line.run_trans hrun hrun', hsp', ?_, ?_, fun x hx => ?_⟩
    · have hpop : t₂.ix = t₁.wordAt t₁.ix := by
        rw [ht₂]
        rfl
      rw [hpop, hword₁, hix₁, hix, hintact _ (hmem _ (by simp)), hbegins.wordAt_ix hframe]
    · have hkept : t₂.wordAt c.sp = t₁.wordAt c.sp := by
        rw [ht₂]
        simp [Cpu.wordAt]
      have hnext : c.sp = c'.ix + 2 := by
        rw [← hix, ← hix₁, hix']
        grind
      rw [hsp', hkept, hword₁, ← hreturn, hnext, hintact _ (hmem _ (by simp))]
    · have hne : x ≠ .index .ix := fun heq => hindex (heq ▸ hx)
      rw [ht₂, stacked_pop_of_ne hne, Cpu.stacked_sp, hregs x hx]

end FnContext

end Z80Backend
