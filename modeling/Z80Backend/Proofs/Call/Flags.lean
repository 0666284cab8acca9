import Z80Backend.Proofs.Call.Agreement

/-! # Flags across a function

    A function that returns nothing in `af` saves the pair at its beginning and
    takes it back at its end.  With a frame the flags that it saves are not those
    that it was called with: `add ix,sp` comes first, and an addition to zero
    leaves no carry.

    * `Line.KeepsFlags` says of lines that they run from every state and leave the
      flags alone.
    * `FnContext.exists_saves`: the beginning saves the flags `savedFlags`, and
      `FnContext.exists_restores`: the end brings back the flags that were saved.
    * `FuncDecl.flags_at_exit`: the flags after any exit, for every function that
      saves them. -/

namespace Z80Backend

/-! ## Lines that keep the flags -/

/-- Lines that run from every state and leave the flags as they are. -/
def Line.KeepsFlags (σ : String → UInt16) (ls : List Line) : Prop :=
  ∀ c, ∃ c', Line.run σ ls c = some c' ∧ c'.f = c.f

section

variable {σ : String → UInt16} {r : Resolver} {ls : List Line} {c : Core}

/-- Lines keep the flags if each of their instructions does. -/
theorem Line.Renders.keepsFlags {is : List Instruction} (h : Line.Renders r is ls)
    (his : ∀ i ∈ is, ∀ code, assemble r i = .ok code →
      ∀ c, ∃ c', code.exec σ c = some c' ∧ c'.f = c.f) : Line.KeepsFlags σ ls := by
  induction h with
  | nil => exact fun c => ⟨c, rfl, rfl⟩
  | @cons i j code is ls hcode _ ih =>
    intro c
    obtain ⟨c₁, hexec, hf₁⟩ := his i List.mem_cons_self code hcode (c.skip code.bytes.length)
    obtain ⟨c', hrun, hf'⟩ := ih (fun i hi => his i (List.mem_cons_of_mem _ hi)) c₁
    refine ⟨c', ?_, hf'.trans hf₁⟩
    rw [Line.run_cons, Line.exec, hexec]
    exact hrun

/-- The code of locals keeps the flags, also where an initial value is in error
    and has no code. -/
theorem FnContext.keepsFlags_locals {locals : List Local} {p : Instruction → Bool}
    (h : Line.Renders r ((locals.flatMap initLocal).filter p) ls) : Line.KeepsFlags σ ls := by
  refine h.keepsFlags fun i hi code hcode => ?_
  obtain ⟨l, -, hi⟩ := List.mem_flatMap.mp (List.mem_filter.mp hi).1
  simp only [initLocal_eq, List.mem_cons, List.not_mem_nil, or_false] at hi
  rcases hi with rfl | rfl | rfl
  · have hpush : assemble r (.of "push" [.ofReg "hl"]) = .ok (.push .hl) := rfl
    rw [hpush] at hcode
    cases hcode
    exact fun c => ⟨_, rfl, rfl⟩
  · obtain ⟨w, rfl, -⟩ := assemble_ld_imm .hl hcode
    exact fun c => ⟨_, rfl, rfl⟩
  · have hswap : assemble r swapTop = .ok .exSP := rfl
    rw [hswap] at hcode
    cases hcode
    exact fun c => ⟨_, rfl, rfl⟩

/-- An addition to zero never carries. -/
theorem Core.addFlags_zero (c : Core) (y : UInt16) :
    c.addFlags 0 y = (c.f &&& 0xC4) ||| (highByte y &&& 0x28) := by
  have hhalf : ¬ 0x1000 ≤ (0 : UInt16).toNat % 0x1000 + y.toNat % 0x1000 := by
    have hlt := Nat.mod_lt y.toNat (show 0x1000 > 0 by decide)
    simp only [UInt16.toNat_zero]
    omega
  have hfull : ¬ 0x10000 ≤ (0 : UInt16).toNat + y.toNat := by
    have hlt := y.toNat_lt
    simp only [UInt16.toNat_zero]
    omega
  unfold addFlags
  rw [if_neg hhalf, if_neg hfull]
  simp

end

/-! ## Saving and restoring -/

namespace FnContext

variable {ctx : FnContext} {locals : List Local} {σ : String → UInt16} {ls : List Line}
  {c t : Core}

/-- The flags that the beginning of a function saves, if it saves any.  With a
    frame, sign, zero and parity are those of the caller, bits 3 and 5 come from
    the frame's address, and the others are clear. -/
def savedFlags (ctx : FnContext) (c : Core) : UInt8 :=
  if ctx.hasFrame then (c.f &&& 0xC4) ||| (highByte (c.sp - 2) &&& 0x28) else c.f

/-- The beginning saves registers in a state with these flags.  Initial values
    that are in error have no code in it. -/
theorem exists_saves (ctx : FnContext) (hls : Line.Renders ctx.resolver
      ((ctx.prologue locals).filter fun i => (assemble ctx.resolver i).isOk) ls)
    (hroom : 2 * ctx.preserved.length ≤ 65536) :
    ∃ c₁ c' : Core, Line.run σ ls c = some c' ∧ c₁.f = ctx.savedFlags c ∧
      c'.HasWords c'.sp (ctx.preserved.map c₁.stacked).reverse := by
  -- every way leads to the point where the registers are pushed
  have hpushes : ∀ {p q : List Line} {c₁ : Core}, Line.run σ p c = some c₁ →
      c₁.f = ctx.savedFlags c →
      Line.Renders ctx.resolver (ctx.preserved.map fun x => .of "push" [.ofReg x.text]) q →
      ∃ c₁ c' : Core, Line.run σ (p ++ q) c = some c' ∧ c₁.f = ctx.savedFlags c ∧
        c'.HasWords c'.sp (ctx.preserved.map c₁.stacked).reverse := by
    intro p q c₁ hp hf hq
    obtain ⟨c', hputs⟩ := Line.exists_puts_saves (σ := σ) (c := c₁) hq hroom
    exact ⟨c₁, c', Line.run_trans hp hputs.run, hf, hputs.words⟩
  have hsaves : (ctx.preserved.map fun x => Instruction.of "push" [.ofReg x.text]).filter
      (fun i => (assemble ctx.resolver i).isOk) =
        ctx.preserved.map fun x => .of "push" [.ofReg x.text] := by
    refine List.filter_eq_self.mpr fun i hi => ?_
    obtain ⟨x, -, rfl⟩ := List.mem_map.mp hi
    rw [assemble_push]
    rfl
  cases hframe : ctx.hasFrame with
  | false =>
    have hflags : ctx.savedFlags c = c.f := by simp [savedFlags, hframe]
    by_cases hnone : ctx.preserved = []
    · simp only [prologue, hframe, hnone, Bool.not_false, List.isEmpty_nil, Bool.and_true,
        if_true] at hls
      have hnop : assemble ctx.resolver (.of "nop" []) = .ok (.plain .nop) := rfl
      rw [List.filter_cons_of_pos (by rw [hnop]; rfl), List.filter_nil] at hls
      obtain ⟨i, code, rfl, hcode⟩ := hls.of_singleton
      rw [hnop] at hcode
      cases hcode
      refine ⟨c, c.skip 1, rfl, hflags.symm, ?_⟩
      rw [hnone]
      trivial
    · have hprologue : ctx.prologue locals =
          ctx.preserved.map fun x => .of "push" [.ofReg x.text] := by
        simp [prologue, hframe, hnone]
      rw [hprologue, hsaves] at hls
      exact hpushes (p := []) rfl hflags.symm hls
  | true =>
    simp only [prologue, hframe, Bool.not_true, Bool.false_and, Bool.false_eq_true, if_false,
      if_true, List.filter_append, hsaves] at hls
    obtain ⟨pq, m, rfl, hpq, hm⟩ := hls.of_append
    obtain ⟨p, q, rfl, hp, hq⟩ := hpq.of_append
    obtain ⟨c₀, hrun, -, hf₀⟩ := exists_link (σ := σ) (c := c) hp
    obtain ⟨c₁, hrun₁, hf₁⟩ := keepsFlags_locals hq c₀
    refine hpushes (Line.run_trans hrun hrun₁) ?_ hm
    rw [hf₁, hf₀, Core.addFlags_zero, savedFlags, if_pos hframe]

/-- Taking registers from the stack brings back the flags if `af` is among
    them, and keeps them otherwise. -/
theorem flags_of_pops {r : Resolver} {regs : List StackReg} {t' : Core}
    (h : Line.Renders r (regs.map fun x => .of "pop" [.ofReg x.text]) ls)
    (hwords : t.HasWords t.sp (regs.map c.stacked)) (hrun : Line.run σ ls t = some t') :
    t'.f = if .af ∈ regs then c.f else t.f := by
  induction regs generalizing ls t with
  | nil =>
    cases h
    cases hrun
    simp
  | cons x regs ih =>
    obtain ⟨p, q, rfl, hp, hq⟩ := Line.Renders.of_cons h
    obtain ⟨i, code, rfl, hcode⟩ := hp.of_singleton
    rw [assemble_pop] at hcode
    cases hcode
    obtain ⟨hword, hwords⟩ := hwords
    have hrest := ih (t := (t.skip _).pop x) hq (by
      show (t.toCpu.pop x).HasWords (t.toCpu.pop x).sp _
      rw [Cpu.sp_pop]
      exact hwords.of_wordAt fun _ _ => by simp [Cpu.wordAt]) hrun
    rw [hrest]
    by_cases hregs : .af ∈ regs
    · rw [if_pos hregs, if_pos (List.mem_cons_of_mem _ hregs)]
    · rw [if_neg hregs]
      by_cases hx : x = .af
      · subst hx
        rw [if_pos List.mem_cons_self]
        -- the flags are the low byte of the word
        have hlow := congrArg lowByte hword
        show t.mem t.sp = c.f
        simpa [Core.stacked, Cpu.wordAt] using hlow
      · rw [if_neg (by simp [hregs, Ne.symm hx])]
        exact if_neg hx

/-- The end of a function that saves `af` brings back the flags that were
    saved, if the saved words are intact. -/
theorem exists_restores (ctx : FnContext) (haf : .af ∈ ctx.preserved) (hnodup : ctx.preserved.Nodup)
    (hls : Line.Renders ctx.resolver ctx.cleanup ls)
    (hwords : t.HasWords t.sp (ctx.preserved.map c.stacked).reverse) :
    ∃ t', Line.run σ ls t = some t' ∧ t'.f = c.f := by
  obtain ⟨p, q, rfl, hp, hq⟩ := hls.of_append
  rw [← List.map_reverse] at hwords
  obtain ⟨t₁, hrun, -⟩ :=
    exists_pops (σ := σ) (List.pairwise_reverse.mpr (hnodup.imp Ne.symm)) hp hwords
  have hf₁ : t₁.f = c.f := by
    rw [flags_of_pops hp hwords hrun, if_pos (List.mem_reverse.mpr haf)]
  by_cases hframe : ctx.hasFrame = true
  · rw [if_pos hframe] at hq
    have hunlink : Line.KeepsFlags σ q := by
      refine hq.keepsFlags fun i hi code hcode => ?_
      simp only [List.mem_cons, List.not_mem_nil, or_false] at hi
      rcases hi with rfl | rfl
      · have hload : assemble ctx.resolver (.of "ld" [.ofReg "sp", .ofReg "ix"]) =
            .ok (.ldSPIndex .ix) := rfl
        rw [hload] at hcode
        cases hcode
        exact fun c => ⟨_, rfl, rfl⟩
      · have hpop : assemble ctx.resolver (.of "pop" [.ofReg "ix"]) =
            .ok (.pop (.index .ix)) := rfl
        rw [hpop] at hcode
        cases hcode
        exact fun c => ⟨_, rfl, rfl⟩
    obtain ⟨t', hrun', hf'⟩ := hunlink t₁
    exact ⟨t', Line.run_trans hrun hrun', hf'.trans hf₁⟩
  · rw [if_neg hframe] at hq
    cases hq
    exact ⟨t₁, by simpa using hrun, hf₁⟩

/-- Instructions that are in error have no line. -/
theorem renders_linesOf_filter (ctx : FnContext) (is : List Instruction) :
    Line.Renders ctx.resolver (is.filter fun i => (assemble ctx.resolver i).isOk)
      (ctx.linesOf is) := by
  induction is with
  | nil => exact .nil
  | cons i is ih =>
    cases hcode : assemble ctx.resolver i with
    | error e =>
      rwa [linesOf_error hcode, List.filter_cons_of_neg (by rw [hcode]; exact Bool.false_ne_true)]
    | ok code =>
      rw [linesOf_ok hcode, List.filter_cons_of_pos (by rw [hcode]; rfl)]
      exact .cons hcode ih

end FnContext

/-! ## Functions -/

namespace FuncDecl

variable {d : FuncDecl} {r : Resolver} {decls : Declarations} {n : Int} {σ : String → UInt16}

/-- The lines of the beginning, where initial values that are in error have
    none. -/
theorem renders_entry_of_ok (d : FuncDecl) (r : Resolver) (decls : Declarations) (n : Int) :
    Line.Renders r (((d.entry r decls n).1.prologue d.locals).filter fun i => (assemble r i).isOk)
      (d.entry r decls n).2.lines := by
  rw [entry_lines]
  exact (d.entry r decls n).1.renders_linesOf_filter _

/-- The flags after a function that returns nothing in `af`.  From any state the
    beginning leads to the body; and from any state in which the body may end,
    with `sp` as at its start and the saved words intact, every exit leads out of
    the function.  Without a frame the flags are then those that it was entered
    with.  With a frame only sign, zero and parity are: half carry, subtraction
    and carry are clear, and bits 3 and 5 come from the address of the frame. -/
theorem flags_at_exit (haf : "af" ∉ d.returns.map Text.lower) (c : Core) :
    (d.entry r decls n).2.lines ++ d.bodyLines r decls n <+:
      (d.lower r decls { counter := n }).1.lines ∧
    ∃ c₁, Line.run σ (d.entry r decls n).2.lines c = some c₁ ∧
      ∀ back t, d.Exit r decls n back → t.sp = c₁.sp →
        (∀ x ∈ (d.entry r decls n).1.savedAt c₁.toCpu, t.wordAt x = c₁.wordAt x) →
        ∃ t', Line.run σ back t = some t' ∧
          t'.f = if d.hasFrame then (c.f &&& 0xC4) ||| (highByte (c.sp - 2) &&& 0x28)
            else c.f := by
  have hsaved : .af ∈ d.preserved := by
    have hreturns : !(d.returns.map Text.lower).contains StackReg.af.text := by
      show !(d.returns.map Text.lower).contains "af"
      simpa using haf
    exact List.mem_filter.mpr ⟨by decide, hreturns⟩
  have hfour : d.preserved.length ≤ savedRegs.length := List.length_filter_le _ _
  have hroom : 2 * d.preserved.length ≤ 65536 := by
    have hlen : savedRegs.length = 4 := rfl
    omega
  obtain ⟨c₀, c₁, hrun, hf, hwords⟩ := (d.entry r decls n).1.exists_saves (σ := σ) (c := c)
    (d.renders_entry_of_ok r decls n) hroom
  refine ⟨d.prefix_lower r decls n, c₁, hrun, fun back t hexit hsp hintact => ?_⟩
  obtain ⟨labels, ls, i, code, rfl, hlabels, hls, hret⟩ := hexit.parts
  -- the saved registers are still where they were put
  have hregisters : t.HasWords t.sp (d.preserved.map c₀.stacked).reverse := by
    rw [hsp]
    refine hwords.of_wordAt fun k hk => hintact _ ?_
    rw [List.length_reverse, List.length_map] at hk
    exact List.mem_append_left _ (List.mem_map.mpr ⟨k, List.mem_range.mpr hk, rfl⟩)
  obtain ⟨t', hrun', hf'⟩ := (d.entry r decls n).1.exists_restores (σ := σ) hsaved nodup_preserved
    hls hregisters
  have hreturn : Line.run σ [.instr i code] t' = some (t'.skip code.bytes.length).ret := by
    rw [Line.run_cons, Line.exec, hret]
    rfl
  refine ⟨_, Line.run_trans (hlabels σ t) (Line.run_trans hrun' hreturn), ?_⟩
  show t'.f = _
  rw [hf', hf]
  rfl

/-- Parameters, locals and a result in `hl`; all flags are set at entry. -/
theorem blend_flags_at_exit :
    "af" ∉ blend.returns.map Text.lower ∧
    ∃ c₁, Line.run (fun _ => 0x2000) (blend.entry .empty {} 0).2.lines { pointing with f := 0xFF } =
        some c₁ ∧
      ∀ back t, blend.Exit .empty {} 0 back → t.sp = c₁.sp →
        (∀ x ∈ (blend.entry .empty {} 0).1.savedAt c₁.toCpu, t.wordAt x = c₁.wordAt x) →
        ∃ t', Line.run (fun _ => 0x2000) back t = some t' ∧ t'.f = 0xEC := by
  have haf : "af" ∉ blend.returns.map Text.lower := by decide
  exact ⟨haf, (flags_at_exit haf { pointing with f := 0xFF }).2⟩

/-- The lines at the end of a function. -/
def exitLines (d : FuncDecl) (r : Resolver) : List Line :=
  (d.lower r {} {}).1.lines.drop ((d.entry r {} 0).2.lines ++ d.bodyLines r {} 0).length

/-- A function with one parameter that does nothing at all clears the carry of
    its caller. -/
theorem echo_clears_carry :
    "af" ∉ echo.returns.map Text.lower ∧ echo.bodyLines .empty {} 0 = [] ∧
      echo.Exit .empty {} 0 (echo.exitLines .empty) ∧
      (Line.run (fun _ => 0) ((echo.entry .empty {} 0).2.lines ++ echo.exitLines .empty)
        { pointing with f := 1 }).map (·.f &&& 1) = some 0 := by
  have hlines : (echo.lower .empty {} {}).1.lines =
      (echo.entry .empty {} 0).2.lines ++ echo.bodyLines .empty {} 0 ++ echo.exitLines .empty := by
    obtain ⟨rest, hrest⟩ := echo.prefix_lower .empty {} 0
    rw [exitLines, ← hrest, List.drop_left]
  exact ⟨by decide, rfl, .epilogue hlines, by decide +kernel⟩

end FuncDecl

end Z80Backend
