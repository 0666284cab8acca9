import Z80Backend.Proofs.Call.Parts

/-! # Caller and callee agree on the frame

    The caller pushes arguments and drops them, and the callee builds a frame
    and takes it down.  Neither looks at the code of the other; what they have
    in common is where the parameters are, and what the callee may change.

    * `FuncDecl.Entered` says where arguments and locals are at the start of the
      body, and `FuncDecl.Left` what is as before when the call is over.
    * `FuncDecl.CallAgrees` says of a call that it leads to `Entered`, and from
      there, after any body that keeps to the rules, to `Left`.
    * `FuncDecl.callAgrees_of_calls`: this is so for every call, within the
      limits of names and of the memory. -/

namespace Z80Backend

/-! ## States -/

namespace FuncDecl

variable {d : FuncDecl} {r : Resolver} {decls : Declarations} {n : Int} {σ : String → UInt16}

/-- The start of the body, when it was called with the given words from the
    state `c`: parameters and locals are in their slots, at `ix + 4 + 2 * i` and
    `ix - 2 - 2 * j`, and the other registers are as the caller had them. -/
structure Entered (d : FuncDecl) (r : Resolver) (σ : String → UInt16) (args : List UInt16)
    (c c' : Core) : Prop where
  params : ∀ i w, args[i]? = some w → c'.wordAt (c'.ix + imm (paramDisp i)) = w
  locals : ∀ j l, d.locals[j]? = some l → c'.wordAt (c'.ix + imm (localDisp j)) = l.value.word r σ
  a : c'.a = c.a
  bc : c'.bc = c.bc
  de : c'.de = c.de
  hl : c'.hl = c.hl
  iy : c'.iy = c.iy

/-- The end of a call from the state `c`: `ix` and `sp` are as before, and so is
    every register that no value is returned in. -/
structure Left (d : FuncDecl) (c t : Core) : Prop where
  ix : t.ix = c.ix
  sp : t.sp = c.sp
  a : "af" ∉ d.returns.map Text.lower → t.a = c.a
  bc : "bc" ∉ d.returns.map Text.lower → t.bc = c.bc
  de : "de" ∉ d.returns.map Text.lower → t.de = c.de
  hl : "hl" ∉ d.returns.map Text.lower → t.hl = c.hl

/-- A call of the function that is lowered to the lines `code` without a report,
    and executed from the state `c`.  No argument is `af`, and storage that is
    passed is outside the bytes that are pushed. -/
structure Calls (d : FuncDecl) (ctx : FnContext) (args : List Operand) (code : List Line)
    (σ : String → UInt16) (c : Core) : Prop where
  signature : (ctx.functions.find? (·.name == d.name)).map (·.params) = some d.params
  lowered : ∃ span s, FnState.Silent s (ctx.lowerCall d.name args span s) ∧
    (ctx.lowerCall d.name args span s).lines = s.lines ++ code
  not_af : ∀ name span, .reg name span ∈ args → Text.lower name ≠ "af"
  outside : ∀ arg ∈ args, ∀ x ∈ ctx.argCells σ c.toCpu arg, x ∉ Line.pushed σ code c

/-- Caller and callee agree on a call that has become the lines `code`, when it
    is executed from the state `c`.  The lines up to the call lead to the callee,
    and those with which its code begins lead to the body.  From any state in
    which the body may end, every exit leads back behind the call, and the rest
    of the lines to the end of the call.

    A body may end with `sp` and `ix` as at its start and with the words intact
    that are to be taken from the stack. -/
def CallAgrees (d : FuncDecl) (ctx : FnContext) (decls : Declarations) (n : Int)
    (args : List Operand) (code : List Line) (σ : String → UInt16) (c : Core) : Prop :=
  (d.entry ctx.resolver decls n).2.lines ++ d.bodyLines ctx.resolver decls n <+:
      (d.lower ctx.resolver decls { counter := n }).1.lines ∧
  ∃ c₁ c₂, Line.run σ (Line.splitCall code).1 c = some c₁ ∧
    c₁.pc = (Expr.name d.name).word ctx.resolver σ ∧
    Line.run σ (d.entry ctx.resolver decls n).2.lines c₁ = some c₂ ∧
    d.Entered ctx.resolver σ (args.map (ctx.argWord σ c.toCpu)) c c₂ ∧
    ∀ back t, d.Exit ctx.resolver decls n back → t.sp = c₂.sp → t.ix = c₂.ix →
      (∀ x ∈ (d.entry ctx.resolver decls n).1.savedAt c₂.toCpu, t.wordAt x = c₂.wordAt x) →
      ∃ t₁ t₂, Line.run σ back t = some t₁ ∧
        t₁.pc = c.pc + UInt16.ofNat (Line.listBytes (Line.splitCall code).1).length ∧
        Line.run σ (Line.splitCall code).2 t₁ = some t₂ ∧ d.Left c t₂

/-- The state in which the callee is reached: the return address is on top of
    the stack and the arguments are above it. -/
structure Reached (args : List UInt16) (back : UInt16) (c c₁ : Core) : Prop where
  alike : c.Alike c₁.toCpu
  sp : c₁.sp = c.sp - UInt16.ofNat (2 * (args.length + 1))
  words : c₁.HasWords c₁.sp (back :: args)

/-- Argument code and a call lead to the callee. -/
theorem exists_reached {ctx : FnContext} {callee : String} {args : List Operand}
    {pushes : List Line} {i : Instruction} {w : Word} {c : Core}
    (hpasses : ctx.Passes callee args pushes) (hargs : ∀ arg ∈ args, ctx.Passable arg)
    (hclear : ∀ arg ∈ args, ∀ x ∈ ctx.argCells σ c.toCpu arg,
      x ∉ Line.pushed σ (pushes ++ [Line.instr i (.call w)]) c)
    (hroom : 2 * (args.length + 1) ≤ 65536) :
    ∃ c₁, Line.run σ (pushes ++ [Line.instr i (.call w)]) c = some c₁ ∧ c₁.pc = w.value σ ∧
      Reached (args.map (ctx.argWord σ c.toCpu)) (c.pc + UInt16.ofNat
        (Line.listBytes (pushes ++ [Line.instr i (.call w)])).length) c c₁ := by
  obtain ⟨k, c₀, hputs⟩ := FnContext.exists_puts_args (σ := σ) (c := c) hpasses hargs
    (fun arg harg x hx hmem => hclear arg harg x hx (Line.mem_pushed_append hmem _)) (by omega)
  have hcall : Line.Puts σ [.instr i (.call w)] 2
      [c₀.pc + UInt16.ofNat (MachineInstr.call w).bytes.length] c₀
      { (c₀.skip (MachineInstr.call w).bytes.length).push
          (c₀.pc + UInt16.ofNat (MachineInstr.call w).bytes.length) with pc := w.value σ } :=
    .of_push rfl rfl rfl
  have hall := hputs.append hcall (by rw [List.length_map]; omega)
  -- the program counter has moved past the argument code
  have hback : c₀.pc + UInt16.ofNat (MachineInstr.call w).bytes.length =
      c.pc + UInt16.ofNat (Line.listBytes (pushes ++ [Line.instr i (.call w)])).length := by
    have hsize : (Line.listBytes (pushes ++ [Line.instr i (.call w)])).length =
        (Line.listBytes pushes).length + (MachineInstr.call w).bytes.length := by
      simp [Line.listBytes, Line.bytes]
    rw [Line.pc_run hputs.run hpasses.not_isTransfer, hsize, UInt16.ofNat_add, UInt16.add_assoc]
  rw [hback] at hall
  refine ⟨_, hall.run, rfl, hall.alike, ?_, hall.words⟩
  rw [hall.sp]
  simp [Nat.add_comm]

theorem imm_paramDisp (i : Nat) : imm (paramDisp i) = 4 + 2 * UInt16.ofNat i := by
  rw [paramDisp, imm_add, imm_mul, imm_ofNat]
  rfl

theorem imm_localDisp (j : Nat) : imm (localDisp j) = -2 - 2 * UInt16.ofNat j := by
  have hsub : imm (localDisp j) = imm (-2) - imm (2 * Int64.ofNat j) := UInt64.toUInt16_sub _ _
  rw [hsub, imm_mul, imm_ofNat]
  rfl

/-- The beginning of the callee finds the arguments where the caller has put
    them. -/
theorem Reached.entered {args : List UInt16} {back : UInt16} {c c₁ c₂ : Core} {ls : List Line}
    (h : Reached args back c c₁) (hlen : args.length = d.params.length)
    (hbegins : (d.entry r decls n).1.Begins d.locals σ ls c₁ c₂)
    (hroom : 2 * (d.entry r decls n).1.frameSize d.locals + 2 * (args.length + 1) ≤ 65536) :
    d.Entered r σ args c c₂ := by
  -- a function with parameters or locals has a frame
  have hix : d.params ≠ [] ∨ d.locals ≠ [] → c₂.ix = c₁.sp - 2 := by
    intro hsome
    have hframe : d.hasFrame = true := by
      rcases hsome with hsome | hsome <;> simp [hasFrame, hsome]
    rw [hbegins.ix]
    exact if_pos hframe
  have hargs : c₂.HasWords c₁.sp (back :: args) :=
    h.words.of_frame hbegins.frame (by simpa using hroom)
  refine ⟨fun i w hi => ?_, fun j l hj => ?_, hbegins.a.trans h.alike.a,
    hbegins.bc.trans h.alike.bc, hbegins.de.trans h.alike.de, hbegins.hl.trans h.alike.hl,
    hbegins.iy.trans h.alike.iy⟩
  · have hsome : d.params ≠ [] := by
      intro hnone
      rw [hnone] at hlen
      simp [List.length_eq_zero_iff.mp hlen] at hi
    have hword := hargs.get (i := i + 1) hi
    have haddr : c₂.ix + imm (paramDisp i) = c₁.sp + UInt16.ofNat (2 * (i + 1)) := by
      rw [hix (.inl hsome), imm_paramDisp]
      simp [UInt16.ofNat_add]
      grind
    rw [haddr]
    exact hword
  · have hsome : d.locals ≠ [] := by
      intro hnone
      rw [hnone] at hj
      cases hj
    have hframe : (d.entry r decls n).1.hasFrame = true := by
      show d.hasFrame = true
      simp [hasFrame, hsome]
    obtain ⟨f, hwords⟩ := hbegins.words
    unfold FnContext.frameWords at hwords
    rw [if_pos hframe, Cpu.hasWords_append, Cpu.hasWords_append] at hwords
    -- the locals lie from the last one up, above the saved registers
    obtain ⟨k, hk⟩ : ∃ k, d.locals.length = k + 1 + j := by
      have hlt := (List.getElem?_eq_some_iff.mp hj).1
      exact ⟨d.locals.length - 1 - j, by omega⟩
    have hget : (d.locals.map (·.value.word r σ)).reverse[k]? = some (l.value.word r σ) := by
      have hlast : d.locals.length - 1 - k = j := by omega
      rw [List.getElem?_reverse (by rw [List.length_map]; omega), List.length_map, hlast,
        List.getElem?_map, hj]
      rfl
    have hword := hwords.2.1.get hget
    have haddr : c₂.ix + imm (localDisp j) =
        c₂.sp + UInt16.ofNat (2 * d.preserved.length) + UInt16.ofNat (2 * k) := by
      have hsize : (d.entry r decls n).1.frameSize d.locals =
          d.preserved.length + (k + 1 + j + 1) := by
        unfold FnContext.frameSize
        rw [if_pos hframe, hk]
        rfl
      rw [hix (.inr hsome), imm_localDisp, hbegins.sp, hsize]
      simp [UInt16.ofNat_add]
      grind
    rw [haddr]
    rw [List.length_reverse, List.length_map] at hword
    exact hword

/-- An exit leads back behind the call, and dropping the arguments ends it. -/
theorem Reached.left {args : List UInt16} {back : UInt16} {c c₁ c₂ t : Core}
    {ls exit drops : List Line} (h : Reached args back c c₁)
    (hbegins : (d.entry r decls n).1.Begins d.locals σ ls c₁ c₂)
    (hroom : 2 * (d.entry r decls n).1.frameSize d.locals + 2 ≤ 65536)
    (hexit : d.Exit r decls n exit) (hsp : t.sp = c₂.sp) (hix : t.ix = c₂.ix)
    (hintact : ∀ x ∈ (d.entry r decls n).1.savedAt c₂.toCpu, t.wordAt x = c₂.wordAt x)
    (hdrops : Line.Renders r (List.replicate (2 * args.length) (.of "inc" [.ofReg "sp"])) drops) :
    ∃ t₁ t₂, Line.run σ exit t = some t₁ ∧ t₁.pc = back ∧ Line.run σ drops t₁ = some t₂ ∧
      d.Left c t₂ := by
  obtain ⟨labels, ms, i, code, rfl, hlabels, hms, hret⟩ := hexit.parts
  obtain ⟨t', hrun, hsp', hix', hback, hsaved⟩ := FnContext.exists_ends nodup_preserved
    mem_savedRegs_of_preserved hbegins hroom hms hsp hix hintact
  -- returning takes the return address from the stack
  have hreturn : Line.run σ [.instr i code] t' = some (t'.skip code.bytes.length).ret := by
    rw [Line.run_cons, Line.exec, hret]
    rfl
  obtain ⟨t₂, hrest, ht₂⟩ := Line.exists_drops (σ := σ)
    (c := (t'.skip code.bytes.length).ret) hdrops
  refine ⟨_, t₂, Line.run_trans (hlabels σ t) (Line.run_trans hrun hreturn), ?_, hrest, ?_⟩
  · show t'.wordAt t'.sp = back
    rw [hback]
    exact h.words.1
  · have hkept : ∀ x ∈ d.preserved, t₂.toCpu.stacked x = c.toCpu.stacked x := by
      intro x hx
      rw [ht₂, Cpu.stacked_sp]
      show ({ t'.toCpu with sp := t'.sp + 2 } : Cpu).stacked x = c.toCpu.stacked x
      rw [Cpu.stacked_sp, hsaved x hx, h.alike.stacked]
    have hmem : ∀ x ∈ savedRegs, x.text ∉ d.returns.map Text.lower → x ∈ d.preserved := by
      intro x hx hreturns
      exact List.mem_filter.mpr ⟨hx, by simpa using hreturns⟩
    refine ⟨?_, ?_, fun ha => ?_, fun hbc => ?_, fun hde => ?_, fun hhl => ?_⟩
    · rw [ht₂]
      show t'.ix = c.ix
      rw [hix', h.alike.ix]
    · rw [ht₂]
      show t'.sp + 2 + UInt16.ofNat (2 * args.length) = c.sp
      rw [hsp', h.sp, ← Cpu.add_two_mul_succ]
      grind
    · have hword := congrArg highByte (hkept .af (hmem .af (by decide) ha))
      simpa [Cpu.stacked] using hword
    · exact hkept .bc (hmem .bc (by decide) hbc)
    · exact hkept .de (hmem .de (by decide) hde)
    · exact hkept .hl (hmem .hl (by decide) hhl)

/-- Caller and callee agree on the frame of every call, as long as the initial
    values of the locals are words, the storage that is passed is at symbols that
    are not read as pointers or constants, and all words that are on the stack at
    the start of the body fit into the memory. -/
theorem callAgrees_of_calls {ctx : FnContext} {args : List Operand} {code : List Line} {c : Core}
    (h : d.Calls ctx args code σ c) (hlocals : ∀ l ∈ d.locals, l.HasWord ctx.resolver)
    (hsymbols : ∀ arg ∈ args, ctx.scope.Within ctx.resolver.IsSymbol arg.roots)
    (hfits : args.length + d.locals.length + d.preserved.length + 2 ≤ 32768) :
    d.CallAgrees ctx decls n args code σ c := by
  obtain ⟨f, hfind, hparams⟩ := Option.map_eq_some_iff.mp h.signature
  obtain ⟨span, s, hsilent, hcode⟩ := h.lowered
  obtain ⟨hlen, pushes, i, w, drops, rfl, hpasses, hw, hdrops⟩ :=
    FnContext.parts_of_lowerCall hfind hsilent hcode
  have hsplit : Line.splitCall (pushes ++ .instr i (.call w) :: drops) =
      (pushes ++ [.instr i (.call w)], drops) := by
    refine Line.splitCall_append (fun l hl => Line.isCall_eq_false fun j code hlcode => ?_) rfl
    subst hlcode
    exact hpasses.not_isTransfer j code hl
  have hsize : (d.entry ctx.resolver decls n).1.frameSize d.locals ≤
      d.preserved.length + (d.locals.length + 1) := by
    unfold FnContext.frameSize
    split
    · exact Nat.le_refl _
    · exact Nat.le_add_right _ _
  -- from the caller to the callee
  have hargs : ∀ arg ∈ args, ctx.Passable arg := by
    intro arg harg
    exact ⟨fun name span heq => h.not_af name span (heq ▸ harg), hsymbols arg harg⟩
  have hclear : ∀ arg ∈ args, ∀ x ∈ ctx.argCells σ c.toCpu arg,
      x ∉ Line.pushed σ (pushes ++ [.instr i (.call w)]) c := by
    intro arg harg x hx hmem
    apply h.outside arg harg x hx
    have hmore := Line.mem_pushed_append hmem drops
    rwa [List.append_assoc] at hmore
  obtain ⟨c₁, hrun, hpc, hreached⟩ := exists_reached hpasses hargs hclear (by omega)
  -- from the beginning of the callee to its body
  have hroom : 2 * (d.entry ctx.resolver decls n).1.frameSize d.locals ≤ 65536 := by omega
  obtain ⟨c₂, hbegins⟩ := FnContext.exists_begins (σ := σ) (c := c₁) mem_savedRegs_of_preserved
    (d.renders_entry decls n hlocals) hroom
  have hwords : (args.map (ctx.argWord σ c.toCpu)).length = args.length := List.length_map _
  unfold CallAgrees
  rw [hsplit]
  refine ⟨d.prefix_lower _ decls n, c₁, c₂, hrun, by rw [hpc, hw], hbegins.run, ?_, ?_⟩
  · exact hreached.entered (by rw [hwords, hlen, hparams]) hbegins (by rw [hwords]; omega)
  · intro back t hexit hsp hix hintact
    exact hreached.left hbegins (by omega) hexit hsp hix hintact (by rwa [hwords])

/-! ### Calls at work -/

/-- A setting in which one function can be called and one name is storage. -/
def callSetting (d : FuncDecl) (r : Resolver) (name : String) (t : TypeRef) : FnContext where
  name := "main"
  resolver := r
  ops := { resolver := r }
  functions := [{ name := d.name, params := d.params }]
  scope := StorageTable.scope [(name, { home := .global name, type := t })]
  nesting := 1

theorem within_callSetting {name : String} {t : TypeRef} (h : r.IsSymbol name)
    (names : List String) : (d.callSetting r name t).scope.Within r.IsSymbol names := by
  intro m _ st sym hst hhome
  simp only [callSetting, StorageTable.scope, List.lookup_cons, List.lookup_nil] at hst
  split at hst
  · cases hst
    cases hhome
    exact h
  · cases hst

/-- The pointers lead to the cell `0x0200`, which holds 7, while the cell
    `0x2000` holds 5. -/
def pointing : Core where
  a := 1
  bc := 0x0200
  de := 0x0200
  hl := 0x0200
  ix := 0x0200
  iy := 0x0200
  sp := 0xF000
  mem x := if x = 0x0200 then 7 else if x = 0x2000 then 5 else 0
  f := 0
  pc := 0x4000

/-- The lines of a call. -/
def callLines (d : FuncDecl) (ctx : FnContext) (args : List Operand) : List Line :=
  (ctx.lowerCall d.name args {} {}).lines

/-- A call of the only function that there is. -/
theorem calls_callSetting {name : String} {t : TypeRef} {args : List Operand} {c : Core}
    (hsilent : ((d.callSetting r name t).lowerCall d.name args {} {}).journal.diagnostics.isEmpty)
    (haf : ∀ name span, .reg name span ∈ args → Text.lower name ≠ "af")
    (houtside : ∀ arg ∈ args, ∀ x ∈ (d.callSetting r name t).argCells σ c.toCpu arg,
      x ∉ Line.pushed σ (d.callLines (d.callSetting r name t) args) c) :
    d.Calls (d.callSetting r name t) args (d.callLines (d.callSetting r name t) args) σ c where
  signature := by simp [callSetting]
  lowered := ⟨{}, {}, List.isEmpty_iff.mp hsilent, rfl⟩
  not_af := haf
  outside := houtside

/-- A function with three parameters and two locals that returns a value in
    `hl`. -/
def blend : FuncDecl where
  name := "blend"
  params := [⟨"level", { name := "byte" }⟩, ⟨"step", { name := "word" }⟩,
    ⟨"count", { name := "byte" }⟩]
  locals := [⟨"next", { name := "word" }, .name "table"⟩, ⟨"i", { name := "byte" }, .missing⟩]
  returns := ["HL"]

/-- A row of bytes can be passed to `blend`. -/
def blendSetting : FnContext := blend.callSetting .empty "row" { name := "byte", len := 8 }

/-- The byte of the row that `l` counts, a number, and a register. -/
def blendArgs : List Operand :=
  [.place (.elem (.name "row") (.reg8 "L")) {}, .imm (.number 1000) {}, .ofReg "C"]

theorem blend_callAgrees :
    blend.Calls blendSetting blendArgs (blend.callLines blendSetting blendArgs) (fun _ => 0x2000)
      pointing ∧
    blend.CallAgrees blendSetting {} 0 blendArgs (blend.callLines blendSetting blendArgs)
      (fun _ => 0x2000) pointing := by
  have hcalls : blend.Calls blendSetting blendArgs (blend.callLines blendSetting blendArgs)
      (fun _ => 0x2000) pointing := by
    have houtside : ∀ arg ∈ blendArgs,
        ((blendSetting.argCells (fun _ => 0x2000) pointing.toCpu arg).all fun x =>
          !(Line.pushed (fun _ => 0x2000) (blend.callLines blendSetting blendArgs)
            pointing).contains x) = true := by decide +kernel
    refine calls_callSetting (by decide +kernel) (fun name span hmem => ?_)
      fun arg harg => not_mem_of_all (houtside arg harg)
    simp only [blendArgs, Operand.ofReg, List.mem_cons, reduceCtorEq, List.not_mem_nil, or_false,
      false_or, Operand.reg.injEq] at hmem
    rw [hmem.1]
    decide
  refine ⟨hcalls, callAgrees_of_calls hcalls (fun l hl => ?_)
    (fun arg _ => within_callSetting (by decide) _) (by decide)⟩
  simp only [blend, List.mem_cons, List.not_mem_nil, or_false] at hl
  rcases hl with rfl | rfl
  · exact ⟨_, rfl, by decide⟩
  · exact ⟨_, rfl, by decide⟩

/-! ### Calls that fail -/

/-- The word at a displacement from `ix` at the start of the body. -/
def entryWord (d : FuncDecl) (r : Resolver) (code : List Line) (σ : String → UInt16) (c : Core)
    (disp : Int64) : Option UInt16 :=
  ((Line.run σ (Line.splitCall code).1 c).bind (Line.run σ (d.entry r {} 0).2.lines)).map
    fun c' => c'.wordAt (c'.ix + imm disp)

/-- Agreement tells what is in the slots. -/
theorem entryWord_of_callAgrees {ctx : FnContext} {args : List Operand} {code : List Line}
    {c : Core} (h : d.CallAgrees ctx {} 0 args code σ c) :
    (∀ i w, (args.map (ctx.argWord σ c.toCpu))[i]? = some w →
      d.entryWord ctx.resolver code σ c (paramDisp i) = some w) ∧
    ∀ j l, d.locals[j]? = some l →
      d.entryWord ctx.resolver code σ c (localDisp j) = some (l.value.word ctx.resolver σ) := by
  obtain ⟨-, c₁, c₂, hrun, -, hrun', hentered, -⟩ := h
  have hword : ∀ disp, d.entryWord ctx.resolver code σ c disp =
      some (c₂.wordAt (c₂.ix + imm disp)) := by
    intro disp
    simp only [entryWord, hrun, Option.bind_some, hrun', Option.map_some]
  refine ⟨fun i w hw => ?_, fun j l hl => ?_⟩
  · rw [hword, hentered.params i w hw]
  · rw [hword, hentered.locals j l hl]

/-- A function with one parameter. -/
def echo : FuncDecl where
  name := "echo"
  params := [⟨"level", { name := "byte" }⟩]

/-- The setting in which a byte can be passed to `echo`. -/
def echoSetting (r : Resolver) (name : String) : FnContext :=
  echo.callSetting r name { name := "byte" }

/-- There is a constant `limit`. -/
def limited : Resolver where
  value? name := if name = "limit" then some 0x0200 else none
  layout? _ := none

/-- A local with its number for initial value. -/
def numbered (j : Nat) : Local :=
  { name := "v" ++ toString j, type := { name := "word" }, init := .number (Int64.ofNat j) }

/-- A function with more locals than there are words in the memory. -/
def wide : FuncDecl where
  name := "wide"
  locals := (List.range 32769).map numbered

/-- A function with a local whose initial value is no word. -/
def lavish : FuncDecl where
  name := "lavish"
  locals := [⟨"i", { name := "word" }, .number 70000⟩]

/-- A call on which caller and callee do not agree. -/
def Disagrees (d : FuncDecl) (ctx : FnContext) (args : List Operand) : Prop :=
  d.Calls ctx args (d.callLines ctx args) (fun _ => 0x2000) pointing ∧
    ¬ d.CallAgrees ctx {} 0 args (d.callLines ctx args) (fun _ => 0x2000) pointing

/-- A byte at `0x2000` is passed as something else. -/
theorem disagrees_echo {name : String}
    (hsilent : ((echoSetting r name).lowerCall "echo" [.storage name] {}
      {}).journal.diagnostics.isEmpty)
    (houtside : (((echoSetting r name).argCells (fun _ => 0x2000) pointing.toCpu
      (.storage name)).all fun x => !(Line.pushed (fun _ => 0x2000)
        (echo.callLines (echoSetting r name) [.storage name]) pointing).contains x) = true)
    (hvalue : (echoSetting r name).argWord (fun _ => 0x2000) pointing.toCpu (.storage name) = 5)
    (hpassed : echo.entryWord r (echo.callLines (echoSetting r name) [.storage name])
      (fun _ => 0x2000) pointing (paramDisp 0) = some 7) :
    echo.Disagrees (echoSetting r name) [.storage name] := by
  refine ⟨calls_callSetting hsilent (fun reg span hmem => ?_) fun arg harg => ?_,
    fun hagrees => ?_⟩
  · simp [Operand.storage] at hmem
  · obtain rfl := List.mem_singleton.mp harg
    exact not_mem_of_all houtside
  · have hparam := (entryWord_of_callAgrees hagrees).1 0 5 (by rw [← hvalue]; rfl)
    exact absurd (hpassed.symm.trans hparam) (by decide)

/-- Storage that is named like a pointer or a constant is not what is passed,
    too many locals lie on top of one another, and no local starts with a value
    that is not a word. -/
theorem disagreements :
    (∀ name ∈ MemRef.pointerNames, echo.Disagrees (echoSetting .empty name) [.storage name]) ∧
    echo.Disagrees (echoSetting limited "limit") [.storage "limit"] ∧
    wide.Disagrees (wide.callSetting .empty "row" { name := "byte" }) [] ∧
    lavish.Disagrees (lavish.callSetting .empty "row" { name := "byte" }) [] := by
  refine ⟨fun name hname => ?_, ?_, ⟨?_, fun hagrees => ?_⟩, ⟨?_, fun hagrees => ?_⟩⟩
  · have hsilent : ∀ name ∈ MemRef.pointerNames, ((echoSetting .empty name).lowerCall "echo"
        [.storage name] {} {}).journal.diagnostics.isEmpty := by decide +kernel
    have houtside : ∀ name ∈ MemRef.pointerNames,
        (((echoSetting .empty name).argCells (fun _ => 0x2000) pointing.toCpu
          (.storage name)).all fun x => !(Line.pushed (fun _ => 0x2000)
            (echo.callLines (echoSetting .empty name) [.storage name]) pointing).contains x) =
          true := by
      decide +kernel
    have hvalue : ∀ name ∈ MemRef.pointerNames, (echoSetting .empty name).argWord (fun _ => 0x2000)
        pointing.toCpu (.storage name) = 5 := by decide +kernel
    have hpassed : ∀ name ∈ MemRef.pointerNames, echo.entryWord .empty
        (echo.callLines (echoSetting .empty name) [.storage name]) (fun _ => 0x2000) pointing
        (paramDisp 0) = some 7 := by decide +kernel
    exact disagrees_echo (hsilent name hname) (houtside name hname) (hvalue name hname)
      (hpassed name hname)
  · exact disagrees_echo (by decide +kernel) (by decide +kernel) (by decide +kernel)
      (by decide +kernel)
  · exact calls_callSetting (by decide +kernel) nofun nofun
  · -- the first local and the last one have the same slot
    have hslots : ∀ j < 32769, wide.entryWord .empty
        (wide.callLines (wide.callSetting .empty "row" { name := "byte" }) []) (fun _ => 0x2000)
        pointing (localDisp j) = some (UInt16.ofNat j) := by
      intro j hj
      have hlocal : wide.locals[j]? = some (numbered j) := by simp [wide, hj]
      rw [← imm_ofNat]
      exact (entryWord_of_callAgrees hagrees).2 j _ hlocal
    have hslot : imm (localDisp 0) = imm (localDisp 32768) := by decide
    have hfirst := hslots 0 (by decide)
    have hlast := hslots 32768 (by decide)
    unfold entryWord at hfirst hlast
    rw [hslot, hlast] at hfirst
    exact absurd hfirst (by decide)
  · exact calls_callSetting (by decide +kernel) nofun nofun
  · -- what is found in the slot is the value of `hl`
    have hstart : lavish.entryWord .empty
        (lavish.callLines (lavish.callSetting .empty "row" { name := "byte" }) [])
        (fun _ => 0x2000) pointing (localDisp 0) = some 0x0200 := by decide +kernel
    have hlocal := (entryWord_of_callAgrees hagrees).2 0 _ rfl
    exact absurd (hstart.symm.trans hlocal) (by decide +kernel)

end FuncDecl

end Z80Backend
