import Z80Backend.Proofs.Function.Journal
import Z80Backend.Proofs.Op.Stepwise
import Z80Backend.Proofs.Spelling.Image

/-! # Compilations of a spelling

    Mnemonics, registers and conditions may be written in letters of either
    case, each occurrence for itself, and the module compiles to the same
    image.

    There is one exception.  A register in parentheses that is no pointer, such
    as a register bound to the parameter of an op that uses it in an address,
    is read as a symbol.  Symbols are told apart by case, so the spelling of
    the register decides whether the symbol is found.

    * `Program.AddressesNoRegister` leaves out such programs.
    * `Compiler.compile_spelling`: two spellings of a module.
    * `Compiler.homonym_differs`: a module of the exception. -/

namespace Z80Backend

/-! ## Programs that spare registers -/

/-- Is it a load or store through a symbol with the name of a register? -/
def Line.addressesRegister : Line → Bool
  | .instr _ code => code.address?.any Word.isRegister
  | _ => false

/-- No load or store goes through a symbol with the name of a register. -/
def Program.AddressesNoRegister (p : Program) : Prop :=
  ∀ c ∈ p.chunks, ∀ l ∈ c.lines, l.addressesRegister = false

instance (p : Program) : Decidable p.AddressesNoRegister :=
  inferInstanceAs (Decidable (∀ c ∈ p.chunks, ∀ l ∈ c.lines, l.addressesRegister = false))

/-- Lists that agree under one view agree under another that it decides. -/
theorem map_eq_of_map_eq {α β γ : Type} {f : α → β} {g : α → γ} {as bs : List α}
    (h : bs.map f = as.map f) (hg : ∀ a ∈ as, ∀ b, f b = f a → g b = g a) :
    bs.map g = as.map g := by
  induction as generalizing bs with
  | nil =>
    obtain rfl := List.map_eq_nil_iff.mp h
    rfl
  | cons a as ih =>
    cases bs with
    | nil => cases h
    | cons b bs =>
      rw [List.map_cons, List.map_cons, List.cons.injEq] at h
      rw [List.map_cons, List.map_cons, hg a List.mem_cons_self b h.1,
        ih h.2 fun a' ha' => hg a' (List.mem_cons_of_mem a ha')]

theorem Line.bare_eq {l l' : Line} (h : l'.caseless = l.caseless)
    (hl : l.addressesRegister = false) : l'.bare = l.bare := by
  cases l with
  | instr i code =>
    cases l' with
    | instr i' code' =>
      simp only [caseless, Line.instr.injEq, Instruction.mk.injEq] at h
      rw [bare, bare, MachineInstr.eq_of_caseless h.2 hl, h.1.2.2]
    | _ => cases h
  | _ =>
    cases l' with
    | instr i' code' => cases h
    | _ => exact congrArg bare h

theorem Chunk.bare_eq {c c' : Chunk} (h : c'.caseless = c.caseless)
    (hc : ∀ l ∈ c.lines, l.addressesRegister = false) : c'.bare = c.bare := by
  obtain ⟨name, kind, home, pin, align, lines, span⟩ := c
  obtain ⟨name', kind', home', pin', align', lines', span'⟩ := c'
  simp only [caseless, Chunk.mk.injEq] at h
  obtain ⟨rfl, rfl, rfl, rfl, rfl, hlines, rfl⟩ := h
  have hbare := map_eq_of_map_eq hlines fun l hl l' => fun h => Line.bare_eq h (hc l hl)
  simp only [bare, hbare]

/-! ## Images -/

/-- An image without its listing. -/
structure ImageOutput where
  bytes : ByteMap Nat
  symbols : List Symbol
  /-- The chunks and the addresses that they were tried at. -/
  chunks : List (ChunkOutput × Int64)

/-- What the image is without its listing. -/
def Image.output (img : Image) : ImageOutput where
  bytes := img.bytes
  symbols := img.symbols
  chunks := img.placements.map fun p => (p.chunk.output, p.start)

theorem Linked.output_bare (x : Linked) : x.bare.image.output = x.image.output := by
  unfold Image.output bare
  rw [List.map_map]
  congr 1
  refine List.map_congr_left fun p _ => ?_
  exact congrArg (·, p.start) p.chunk.output_bare

theorem Linker.link_spelling (l : Linker) {cs cs' : List Chunk}
    (h : cs'.map Chunk.bare = cs.map Chunk.bare) :
    SameOutcome (fun x x' => x'.bare = x.bare) (l.link cs) (l.link cs') := by
  have hbare : (l.link cs').map Linked.bare = (l.link cs).map Linked.bare := by
    rw [← link_bare, h, link_bare]
  revert hbare
  generalize l.link cs = x
  generalize l.link cs' = x'
  intro hbare
  match x, x', hbare with
  | .ok a, .ok a', hbare => exact .result (Except.ok.inj hbare)
  | .error f, .error f', hbare =>
    obtain rfl : f' = f := Except.error.inj hbare
    exact .fault f'

/-! ## Compiling -/

/-- Two programs whose chunks agree under a view. -/
structure Program.Agrees {α : Type} (view : ChunkOutput → α) (p p' : Program) : Prop where
  chunks : p'.chunks.map (view ·.output) = p.chunks.map (view ·.output)
  externals : p'.externals = p.externals
  stack : p'.stack = p.stack

/-- Two compilations that both give an image or both do not, and the same one. -/
structure CompileResult.Agrees (x x' : CompileResult) : Prop where
  module : x'.module = x.module
  hasErrors : x'.hasErrors = x.hasErrors
  image : x'.image.map Image.output = x.image.map Image.output
  stack : x'.stack = x.stack

theorem Journal.any_isError {j j' : Journal} (h : j'.outlines = j.outlines) :
    j'.diagnostics.any (·.isError) = j.diagnostics.any (·.isError) := by
  have hview : ∀ k : Journal, k.diagnostics.any (·.isError) =
      k.outlines.any fun o => o.2.2 == .error := by
    intro k
    rw [outlines, List.any_map]
    rfl
  rw [hview, hview, h]

theorem Linked.outlines_events (x : Linked) : x.events.outlines = [] := by
  simp [events, Journal.outlines, Journal.diagnostics, Journal.announcements,
    List.filterMap_map]

namespace Program.Matches

variable {p p' : Program} (h : p.Matches p')

include h

/-- Programs that are alike agree up to the spelling of slots. -/
theorem agrees_caseless : p.Agrees ChunkOutput.caseless p' where
  chunks := map_eq_of_map_eq h.chunks fun c _ c' hc => by
    rw [← c'.output_caseless, hc, c.output_caseless]
  externals := h.externals
  stack := h.stack

theorem map_bare (hp : p.AddressesNoRegister) :
    p'.chunks.map Chunk.bare = p.chunks.map Chunk.bare :=
  map_eq_of_map_eq h.chunks fun c hc _ h => Chunk.bare_eq h (hp c hc)

/-- Programs that are alike agree in full where no slot waits for a register. -/
theorem agrees (hp : p.AddressesNoRegister) : p.Agrees id p' where
  chunks := map_eq_of_map_eq (h.map_bare hp) fun c _ c' hc => by
    rw [id, id, ← c'.output_bare, hc, c.output_bare]
  externals := h.externals
  stack := h.stack

end Program.Matches

theorem Module.name_eq_of_caseless {m m' : Module} (h : m'.caseless = m.caseless) :
    m'.name = m.name := by
  have hname : m'.caseless.name = m.caseless.name := by rw [h]
  exact hname

namespace Compiler

theorem opening_spelling (c : Compiler) {m m' : Module} (h : m'.caseless = m.caseless) :
    c.opening m' = c.opening m := by
  have hname := Module.name_eq_of_caseless h
  have hlength : m'.items.length = m.items.length := by
    have hitems := congrArg (fun x : Module => x.items.length) h
    simpa [Module.caseless] using hitems
  unfold opening
  rw [hname, hlength]

/-- Linking and reporting go on alike from programs that are alike. -/
theorem compile_agrees (c : Compiler) {env : Environment} {m m' : Module}
    (hname : m'.name = m.name) (hopening : c.opening m' = c.opening m)
    (hlower : SameOutcome
      (fun x x' => x.1.Matches x'.1 ∧ x'.2.journal.outlines = x.2.journal.outlines)
      (m.lower env.resolver { journal := c.opening m })
      (m'.lower env.resolver { journal := c.opening m }))
    (hslots : ∀ x, m.lower env.resolver { journal := c.opening m } = .ok x →
      x.1.AddressesNoRegister) :
    SameOutcome CompileResult.Agrees (c.compile m env) (c.compile m' env) := by
  unfold compile
  rw [hopening]
  revert hlower hslots
  generalize m.lower env.resolver { journal := c.opening m } = x
  generalize m'.lower env.resolver { journal := c.opening m } = x'
  intro hlower hslots
  cases hlower with
  | fault f => exact .fault f
  | result h =>
    rename_i a a'
    obtain ⟨program, session⟩ := a
    obtain ⟨program', session'⟩ := a'
    obtain ⟨hprogram, hreports⟩ := h
    dsimp only at hprogram hreports
    have hlinker : c.linker env program' = c.linker env program := by
      unfold linker
      rw [hprogram.externals]
    have hlink := (c.linker env program).link_spelling (hprogram.map_bare (hslots _ rfl))
    simp only [bind, Except.bind]
    rw [hlinker]
    revert hlink
    generalize (c.linker env program).link program.chunks = y
    generalize (c.linker env program).link program'.chunks = y'
    intro hlink
    cases hlink with
    | fault f => exact .fault f
    | result hlinked =>
      rename_i linked linked'
      have hdiagnostics : linked'.bare.diagnostics = linked.bare.diagnostics := by rw [hlinked]
      change linked'.diagnostics = linked.diagnostics at hdiagnostics
      have himage : linked'.image.output = linked.image.output := by
        rw [← linked'.output_bare, hlinked, linked.output_bare]
      have herrors := Journal.any_isError (j := session.journal ++ linked.events ++
          linked.diagnostics.map fun d => Event.announced (.diagnostic d))
        (show Journal.outlines (session'.journal ++ linked'.events ++
          linked'.diagnostics.map fun d => Event.announced (.diagnostic d)) = _ by
          simp only [Journal.outlines_append, hreports, Linked.outlines_events, hdiagnostics])
      refine .result ⟨hname, herrors, ?_, hprogram.stack⟩
      dsimp only
      rw [herrors]
      split
      · rfl
      · exact congrArg some himage

/-- Two spellings of a module become the same program, up to the spelling of
    slots that wait for a symbol with the name of a register.  Where no load or
    store has such a slot, they become the same program in full, and both
    compile to the same image or both do not. -/
theorem compile_spelling (c : Compiler) {env : Environment} {m m' : Module}
    (hspell : m'.caseless = m.caseless) (hnames : m.SparesRegisters)
    (henv : env.SparesRegisters) (hconds : m.KeepsConditions) :
    SameOutcome (fun x x' => x.1.Agrees ChunkOutput.caseless x'.1)
        (m.lower env.resolver { journal := c.opening m })
        (m'.lower env.resolver { journal := c.opening m' }) ∧
      ((∀ x, m.lower env.resolver { journal := c.opening m } = .ok x →
          x.1.AddressesNoRegister) →
        SameOutcome (fun x x' => x.1.Agrees id x'.1)
            (m.lower env.resolver { journal := c.opening m })
            (m'.lower env.resolver { journal := c.opening m' }) ∧
          SameOutcome CompileResult.Agrees (c.compile m env) (c.compile m' env)) := by
  have hopening := c.opening_spelling hspell
  have hlower := Module.lower_spelling (Environment.sparesRegisters_resolver henv) hspell hnames
    hconds (c.opening m)
  rw [hopening]
  refine ⟨hlower.mono fun x x' _ h => h.1.agrees_caseless, fun hslots => ⟨?_, ?_⟩⟩
  · exact hlower.mono fun x x' hx h => h.1.agrees (hslots x hx)
  · exact c.compile_agrees (Module.name_eq_of_caseless hspell) hopening hlower hslots

end Compiler

/-! ### A register that is passed to an op

    `op peek(x: kind)` loads a register through `x`, and `main` calls it.  With
    a pair for `x` this is a load through a pointer.  With a single register it
    is a load through a symbol that is spelled like the register of the call. -/

theorem FnContext.lowerBody_call {ctx : FnContext} {s : FnState} {call : Instruction}
    {x : Expansion} {n : Int} {depth : Nat} (hdepth : ctx.nesting = depth + 1)
    (hop : ctx.ops.isOp (Text.lower call.head) = true) (hs : s.exhausted = false)
    (hx : ctx.ops.expand call s.counter = (some x, [], n)) :
    ctx.lowerBody [.instr call] s =
      (ctx.lowerNodes (ctx.lowerOp depth) x.body
        { fn := { s with counter := n }.note
            (.expandedOp x.op ctx.name x.instructions.length) }).close := by
  have hinstr : ctx.lowerBody [.instr call] s = ctx.lowerOp ctx.nesting call s := if_pos hop
  rw [hinstr, hdepth, lowerOp_succ ctx depth call hs, expanded, hx]
  rfl

namespace Compiler

/-- `op peek(x: kind)`: loads `dst` through `x`. -/
def peek (kind : Matcher) (dst : String) : OpDecl where
  name := "peek"
  params := [{ name := "x", matcher := kind }]
  body := [.instr (.of "ld" [.ofReg dst, .indirect "x"])]

/-- `peek reg`. -/
def peekCall (reg : String) : Instruction := .of "peek" [.ofReg reg]

/-- The load that `peek reg` becomes. -/
def peekLoad (dst reg : String) : Instruction := .of "ld" [.ofReg dst, .indirect reg]

/-- What `peek reg` becomes. -/
def peekExpansion (kind : Matcher) (dst reg : String) : Expansion where
  op := { name := "peek", signature := (peek kind dst).signature, chain := ["peek"], span := {} }
  body := [.stmt (.instr (peekLoad dst reg))]

/-- A function that calls `peek`. -/
def peeker (reg : String) : FuncDecl where
  name := "main"
  returns := ["af", "bc", "de", "hl"]
  body := [.instr (peekCall reg)]

/-- A module with `peek`, some function, and the one that calls `peek`. -/
def peeking (kind : Matcher) (dst reg : String) (d : FuncDecl) : Module where
  name := "m"
  items := [.op (peek kind dst), .func d, .func (peeker reg)]

section

variable {kind : Matcher} {dst reg : String} {ops : Ops}

theorem lower_head_peekCall (reg : String) : Text.lower (peekCall reg).head = "peek" := by
  show Text.lower "peek" = "peek"
  decide

theorem expand_peek (n : Int) (hdecls : ops.decls = [peek kind dst])
    (hresolve : ops.resolve [peek kind dst] (peekCall reg) = .ok (peek kind dst))
    (hload : ∀ stem, ((peek kind dst).instantiate [.ofReg reg] stem).stmt
      (.instr (peekLoad dst "x")) = .instr (peekLoad dst reg))
    (hstmt : ∀ pool k, ops.expandStmt pool ["peek"] {} "peek" (.instr (peekLoad dst reg)) k =
      ([.stmt (.instr (peekLoad dst reg))], [], k)) :
    ops.expand (peekCall reg) n = (some (peekExpansion kind dst reg), [], n + 1) := by
  have hname := lower_head_peekCall reg
  have hbody : ops.expandDecl [peek kind dst] [] {} (peekCall reg) (peek kind dst) n =
      ((peekExpansion kind dst reg).body, [], n + 1) := by
    have hfirst := hstmt (Ops.without [peek kind dst] "peek") (n + 1)
    rw [← hload (ops.stem (n + 1))] at hfirst
    have hall := Ops.expandBody_cons_of hfirst Ops.expandBody_nil
    rw [hload] at hall
    unfold Ops.expandDecl
    rw [hname]
    exact hall
  have huse : Ops.useOf [] {} (peekCall reg) (peek kind dst) = (peekExpansion kind dst reg).op := by
    unfold Ops.useOf
    rw [hname]
    rfl
  have hcall : ops.expandCall [peek kind dst] [] {} (peekCall reg) n =
      (some (peekExpansion kind dst reg), [], n + 1) := by
    rw [Ops.expandCall_of_ok (by rw [hname]; rfl) hresolve, hbody, huse]
  unfold Ops.expand
  rw [hdecls]
  exact hcall

end

section

variable (kind : Matcher) (dst reg : String) (d : FuncDecl) (j : Journal)

/-- The module once everything is declared. -/
def peekDeclared : ModuleState where
  session := ((peeking kind dst reg d).items.foldl (Session.declare (Environment.resolver {}))
    ({ journal := j }, [])).1

/-- The module once its first function is lowered. -/
def peekFirst : ModuleState :=
  (peekDeclared kind dst reg d j).addFunction
    (d.lower (Environment.resolver {}) (peekDeclared kind dst reg d j).session.decls
      { counter := (peekDeclared kind dst reg d j).session.counter })

/-- The setting and the beginning of `main`. -/
def peekEntry : FnContext × FnState :=
  (peeker reg).entry (Environment.resolver {}) (peekDeclared kind dst reg d j).session.decls
    (peekFirst kind dst reg d j).session.counter

/-- `main`, with the expansion of its call written out. -/
def peekMain : Chunk × StackSummary × FnState :=
  let (ctx, s) := peekEntry kind dst reg d j
  (peeker reg).ending ctx (ctx.lowerNodes (ctx.lowerOp (ctx.nesting - 1))
    (peekExpansion kind dst reg).body
    { fn := { s with counter := (peekFirst kind dst reg d j).session.counter + 1 }.note
        (.expandedOp (peekExpansion kind dst reg).op ctx.name
          (peekExpansion kind dst reg).instructions.length) }).close

/-- The module once all is lowered. -/
def peekDone : ModuleState :=
  (peekFirst kind dst reg d j).addFunction (peekMain kind dst reg d j)

/-- What the module becomes. -/
def peekLowered : Program × Session :=
  let x := peekDone kind dst reg d j
  (x.program, x.session.note
    (.loweredModule "m" x.program.chunks.length x.session.journal.diagnostics.length))

/-- The program of the module, where its functions end within the limit. -/
theorem lower_peeking (hdepth : 0 < (peekEntry kind dst reg d j).1.nesting)
    (hfirst : (d.lower (Environment.resolver {}) (peekDeclared kind dst reg d j).session.decls
      { counter := (peekDeclared kind dst reg d j).session.counter }).2.2.exhausted = false)
    (hop : (peekEntry kind dst reg d j).1.ops.isOp (Text.lower (peekCall reg).head) = true)
    (hx : (peekEntry kind dst reg d j).1.ops.expand (peekCall reg)
        (peekFirst kind dst reg d j).session.counter =
      (some (peekExpansion kind dst reg), [], (peekFirst kind dst reg d j).session.counter + 1))
    (hmain : (peekMain kind dst reg d j).2.2.exhausted = false) :
    (peeking kind dst reg d).lower (Environment.resolver {}) { journal := j } =
      .ok (peekLowered kind dst reg d j) := by
  have hstep : (peekDeclared kind dst reg d j).lowerFunction (Environment.resolver {}) d =
      .ok (peekFirst kind dst reg d j) := by
    rw [ModuleState.lowerFunction_eq]
    exact if_neg (Bool.eq_false_iff.mp hfirst)
  have hlower : (peeker reg).lower (Environment.resolver {})
      (peekDeclared kind dst reg d j).session.decls
      { counter := (peekFirst kind dst reg d j).session.counter } = peekMain kind dst reg d j := by
    rw [FuncDecl.lower_eq_ending, FuncDecl.bodyEnd]
    exact congrArg ((peeker reg).ending (peekEntry kind dst reg d j).1)
      (FnContext.lowerBody_call (Nat.sub_add_cancel hdepth).symm hop rfl hx)
  have hlast : (peekFirst kind dst reg d j).lowerFunction (Environment.resolver {}) (peeker reg) =
      .ok (peekDone kind dst reg d j) := by
    have hdecls : (peekFirst kind dst reg d j).session.decls =
      (peekDeclared kind dst reg d j).session.decls := rfl
    rw [ModuleState.lowerFunction_eq, hdecls, hlower]
    exact if_neg (Bool.eq_false_iff.mp hmain)
  have hitems : (peeking kind dst reg d).items.foldlM
      (ModuleState.lowerItem (Environment.resolver {})) (peekDeclared kind dst reg d j) =
      .ok (peekDone kind dst reg d j) := by
    show ((peekDeclared kind dst reg d j).lowerFunction (Environment.resolver {}) d).bind
      (fun m => (m.lowerFunction (Environment.resolver {}) (peeker reg)).bind .ok) = _
    rw [hstep, Except.bind, hlast]
    rfl
  have hdeclared : (peeking kind dst reg d).items.foldl
      (Session.declare (Environment.resolver {})) ({ journal := j }, []) =
      ((peekDeclared kind dst reg d j).session, []) := rfl
  have hstart : ModuleState.mk (peekDeclared kind dst reg d j).session {} { externals := [] } =
      peekDeclared kind dst reg d j := rfl
  unfold Module.lower
  rw [hdeclared]
  dsimp only
  rw [hstart, hitems]
  rfl

end

/-- A word in capitals. -/
def shout (s : String) : String := String.ofList (s.toList.map Char.toUpper)

/-- A function with a conditional, a loop and an index, with its words as `word`
    has them. -/
def weave (word : String → String) : FuncDecl where
  name := "weave"
  returns := [word "af", word "hl"]
  body :=
    [ .ifOpen (word "nz") false {},
      .instr { head := word "ld",
               operands := [.ofReg (word "a"), .mem (.add (.name (word "ix")) (.number 1)) {}] },
      .endBlock {},
      .repeatOpen false {},
      .instr (.of (word "dec") [.ofReg (word "b")]),
      .untilClose (word "z") {} ]

/-- A function without a body. -/
def hollow (name : String) : FuncDecl where
  name := name
  returns := ["af", "bc", "de", "hl"]

/-- A compiler with the layout that is used when none is given. -/
def plain : Compiler where
  name := "zax"

/-- The module with `peek` for pairs, called with `HL`. -/
def weaving : Module := peeking .reg16 "a" "HL" (weave id)

theorem lower_weaving :
    weaving.lower (Environment.resolver {}) { journal := plain.opening weaving } =
      .ok (peekLowered .reg16 "a" "HL" (weave id) (plain.opening weaving)) :=
  lower_peeking .reg16 "a" "HL" (weave id) (plain.opening weaving) (by decide) rfl rfl
    (expand_peek _ rfl rfl (fun _ => rfl) fun _ _ => rfl) rfl

/-- A module with its op call in capitals, and one with all words of its other
    function in capitals, compile to the same image. -/
theorem weaving_spelling :
    peeking .reg16 "a" "hl" (weave shout) ≠ weaving ∧
      (peeking .reg16 "a" "hl" (weave shout)).caseless = weaving.caseless ∧
      weaving.SparesRegisters ∧ weaving.KeepsConditions ∧
      (peekLowered .reg16 "a" "HL" (weave id) (plain.opening weaving)).1.AddressesNoRegister ∧
      SameOutcome CompileResult.Agrees (plain.compile weaving {})
        (plain.compile (peeking .reg16 "a" "hl" (weave shout)) {}) := by
  have hspell : (peeking .reg16 "a" "hl" (weave shout)).caseless = weaving.caseless := by
    decide +kernel
  have hnames : weaving.SparesRegisters := by decide
  have hconds : weaving.KeepsConditions := by decide
  have hslots : (peekLowered .reg16 "a" "HL" (weave id)
      (plain.opening weaving)).1.AddressesNoRegister := by decide
  have hboth := plain.compile_spelling hspell hnames (by decide : Environment.SparesRegisters {})
    hconds
  refine ⟨by decide, hspell, hnames, hconds, hslots, (hboth.2 ?_).2⟩
  intro x hx
  rw [lower_weaving] at hx
  cases hx
  exact hslots

/-- The module with `peek` for single registers, and a function with the name of
    one. -/
def homonym (reg : String) : Module := peeking .reg8 "hl" reg (hollow "a")

theorem lower_homonym {reg : String} (hreg : reg = "a" ∨ reg = "A") :
    (homonym reg).lower (Environment.resolver {}) { journal := plain.opening (homonym reg) } =
      .ok (peekLowered .reg8 "hl" reg (hollow "a") (plain.opening (homonym reg))) := by
  rcases hreg with rfl | rfl
  · exact lower_peeking .reg8 "hl" "a" (hollow "a") (plain.opening (homonym "a")) (by decide) rfl
      rfl (expand_peek _ rfl rfl (fun _ => rfl) fun _ _ => rfl) rfl
  · exact lower_peeking .reg8 "hl" "A" (hollow "a") (plain.opening (homonym "A")) (by decide) rfl
      rfl (expand_peek _ rfl rfl (fun _ => rfl) fun _ _ => rfl) rfl

/-- `peek a` loads through the function `a`, and `peek A` through a symbol that
    there is not.  So the one module compiles, and the other does not. -/
theorem homonym_differs :
    (homonym "A").caseless = (homonym "a").caseless ∧ (homonym "a").SparesRegisters ∧
      (homonym "a").KeepsConditions ∧
      (plain.compile (homonym "a") {}).toOption.map (·.image.isSome) = some true ∧
      (plain.compile (homonym "A") {}).toOption.map (·.image.isSome) = some false := by
  refine ⟨by decide, by decide, by decide, ?_, ?_⟩
  · unfold compile
    rw [lower_homonym (.inl rfl)]
    decide +kernel
  · unfold compile
    rw [lower_homonym (.inr rfl)]
    decide +kernel

end Compiler

end Z80Backend
