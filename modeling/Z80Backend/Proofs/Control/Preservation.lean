import Z80Backend.Proofs.Control.Lowering
import Z80Backend.Proofs.Control.Simulation
import Z80Backend.Proofs.Function.Outline

/-! # Lowering preserves meaning

    The body of a function that is built from plain instructions, returns and
    structured control does, once it is lowered without a report, what its
    structure means: a run of its lines ends in some way exactly if the
    structured code does.

    The jumps in the lines go to labels that lowering makes up.  A constant
    of such a name takes its place in the jump, which then leaves the function
    for the number (`captured_leaves`). -/

namespace Z80Backend

namespace FuncDecl

variable {d : FuncDecl} {r : Resolver} {decls : Declarations} {n : Int} {c : Code .body}

/-- Where no constant is named like a generated label, neither is one named like
    the exit. -/
theorem freesLabels_entry (hlabels : ∀ kind k, r.value? (Label.make kind k) = none) :
    (d.entry r decls n).1.FreesLabels where
  label kind k := ⟨Label.make_ne_empty kind k, hlabels kind k⟩
  exit e he := by
    obtain ⟨k, rfl, _⟩ := entry_epilogue d r decls n he
    exact ⟨Label.make_ne_empty _ k, hlabels _ k⟩

/-- A well-formed body is laid out as its structure says. -/
theorem lowers_body (hbody : d.body = c.stmts) (hwf : c.WellFormed (d.entry r decls n).1)
    (hlabels : ∀ kind k, r.value? (Label.make kind k) = none)
    (hclean : (d.bodyEnd r decls n).Clean) (stop : String) :
    Lowers (d.entry r decls n).1 stop c (d.entry r decls n).2 (d.bodyEnd r decls n)
      (d.bodyLines r decls n) := by
  have hfrees : (d.entry r decls n).1.FreesLabels := freesLabels_entry hlabels
  generalize hctx : (d.entry r decls n).1 = ctx at *
  generalize hs : (d.entry r decls n).2 = s at *
  have hend : d.bodyEnd r decls n =
      (ctx.lowerAll (ctx.lowerOp ctx.nesting) c.stmts { fn := s }).close := by
    rw [bodyEnd, hctx, hs, hbody]
    rfl
  rw [hend] at hclean
  obtain ⟨hblocks, ls, hls⟩ := hwf.loweredWell (ctx.extends_lowerOp _) hfrees stop
    { fn := s }
    ((Body.extends_close _).clean hclean)
  -- every block is closed, so that nothing is left to close
  have hclose : d.bodyEnd r decls n =
      (ctx.lowerAll (ctx.lowerOp ctx.nesting) c.stmts { fn := s }).fn := by
    rw [hend, Body.close, hblocks]
    rfl
  rw [← hclose] at hls
  have hlines : d.bodyLines r decls n = ls := by
    rw [bodyLines, hs, hls.lines, List.drop_left]
  rw [hlines]
  exact hls

/-- The labels of a well-formed body are distinct, and none is the exit. -/
theorem distinct_bodyLines {stop : String}
    (h : Lowers (d.entry r decls n).1 stop c (d.entry r decls n).2 (d.bodyEnd r decls n)
      (d.bodyLines r decls n)) :
    Line.Distinct (d.entry r decls n).1.epilogue (d.bodyLines r decls n) := by
  refine ⟨h.fresh.nodup, fun e he hmem => ?_⟩
  obtain ⟨k, rfl, hk⟩ := entry_epilogue d r decls n he
  obtain ⟨kind, m, hname, hm⟩ := h.fresh.named _ hmem
  have hkm := Label.make_inj hname
  omega

/-- Lowering preserves the meaning of structured code.  The code of the
    function is its beginning, the body and its end, and for every machine and
    every state a run of the body's lines ends in some way if and only if the
    structured code does, as long as no constant is named like a generated
    label. -/
theorem run_bodyLines_iff_exec (d : FuncDecl) (r : Resolver) (decls : Declarations) (n : Int)
    (c : Code .body) (hbody : d.body = c.stmts) (hwf : c.WellFormed (d.entry r decls n).1)
    (hlabels : ∀ kind k, r.value? (Label.make kind k) = none)
    (hclean : (d.lower r decls { counter := n }).2.2.Clean) :
    (∃ tail, Line.Assembles r ((d.entry r decls n).1.cleanup ++ [.of "ret" []]) tail ∧
      (d.lower r decls { counter := n }).1.lines =
        (d.entry r decls n).2.lines ++ d.bodyLines r decls n ++
          ((d.entry r decls n).1.epilogue.toList.map (.label · d.span) ++ tail)) ∧
    ∀ (σ : Type) (M : Machine σ) (s : σ) (o : Outcome σ),
      (∃ fuel, M.run (d.entry r decls n).1.epilogue (d.bodyLines r decls n) fuel
          (.running (d.bodyLines r decls n) s) = some o) ↔
        c.Exec M r s o := by
  have hlowers := lowers_body hbody hwf hlabels (bodyEnd_clean hclean) ""
  have hlaid := hlowers.laidOut
  rw [entry_tracker] at hlaid
  exact ⟨lines_lower hclean, fun σ M => hlaid.run_iff_exec (distinct_bodyLines hlowers)⟩

end FuncDecl

/-- Counts down in a loop that returns early on one value. -/
def Code.countdown : Code .body :=
  .whileDo "nz" {} (.seq (.instr (.of "dec" [.ofReg "b"]))
    (.select (.ofReg "b") {}
      (.case [.number 3, .number 5] {} (.instr (.of "ret" []))
        (.otherwise {} (.instr (.of "nop" []))))
      {})) {}

/-- The loop as the body of a function that saves all registers. -/
def FuncDecl.countdown : FuncDecl := { name := "countdown", body := Code.countdown.stmts }

/-- A machine of the accumulator, `b` and the zero flag. -/
def Machine.counter : Machine (UInt8 × UInt8 × Bool) where
  exec
    | .aluImm .cp n, (a, b, _) => (a, b, a == n)
    | .dec8 (.reg .b), (a, b, _) => (a, b - 1, b - 1 == 0)
    | .ld .a .b, (_, b, z) => (b, b, z)
    | _, s => s
  flags s := { zero := s.2.2, carry := false, parity := false, sign := false }
  acc s := s.1
  zero_cp _ _ := rfl
  acc_cp _ _ := rfl

/-- Counting down from 7 takes two turns and ends with a return. -/
theorem FuncDecl.countdown_run_iff_exec :
    Code.countdown.WellFormed (countdown.entry .empty {} 0).1 ∧
    (countdown.lower .empty {} { counter := 0 }).2.2.Clean ∧
    (∃ fuel, Machine.counter.run (countdown.entry .empty {} 0).1.epilogue
      (countdown.bodyLines .empty {} 0) fuel (.running (countdown.bodyLines .empty {} 0)
        (0, 7, false)) = some (.returned (5, 5, true))) ∧
    Code.countdown.Exec Machine.counter .empty (0, 7, false) (.returned (5, 5, true)) := by
  have hdec : (countdown.entry .empty {} 0).1.IsBasic (.of "dec" [.ofReg "b"]) :=
    ⟨by decide, by decide, by decide, _, rfl⟩
  have hret : (countdown.entry .empty {} 0).1.IsBasic (.of "ret" []) :=
    ⟨by decide, by decide, by decide, _, rfl⟩
  have hnop : (countdown.entry .empty {} 0).1.IsBasic (.of "nop" []) :=
    ⟨by decide, by decide, by decide, _, rfl⟩
  have hwf : Code.countdown.WellFormed (countdown.entry .empty {} 0).1 :=
    ⟨by decide, hdec, by decide, by decide, by decide, hret, hnop⟩
  have hclean : (countdown.lower .empty {} { counter := 0 }).2.2.Clean :=
    List.isEmpty_iff.mp (by decide +kernel)
  have hrun : ∃ fuel, Machine.counter.run (countdown.entry .empty {} 0).1.epilogue
      (countdown.bodyLines .empty {} 0) fuel (.running (countdown.bodyLines .empty {} 0)
        (0, 7, false)) = some (.returned (5, 5, true)) := ⟨30, by decide +kernel⟩
  exact ⟨hwf, hclean, hrun,
    ((run_bodyLines_iff_exec countdown .empty {} 0 Code.countdown rfl hwf
      (fun _ _ => rfl) hclean).2
      _ Machine.counter _ _).mp hrun⟩

/-- One conditional. -/
def Code.captured : Code .body := .ifThen "z" {} (.instr (.of "inc" [.ofReg "b"])) {}

/-- The conditional as the body of a function that saves nothing. -/
def FuncDecl.captured : FuncDecl where
  name := "main"
  returns := ["af", "bc", "de", "hl"]
  body := Code.captured.stmts

/-- One constant, named like the label behind the first arm. -/
def Resolver.capturing : Resolver where
  value? name := if name = Label.make "if_else" 1 then some 0x1234 else none
  layout? _ := none

/-- The jump over the arm goes to the number that the constant stands for: the
    conditional ends where its condition fails, and no run of its lines does. -/
theorem FuncDecl.captured_leaves :
    Code.captured.WellFormed (captured.entry .capturing {} 0).1 ∧
    (captured.lower .capturing {} { counter := 0 }).2.2.Clean ∧
    Code.captured.Exec Machine.counter .capturing (0, 7, false) (.fell (0, 7, false)) ∧
    ∀ fuel, Machine.counter.run (captured.entry .capturing {} 0).1.epilogue
      (captured.bodyLines .capturing {} 0) fuel
        (.running (captured.bodyLines .capturing {} 0) (0, 7, false)) = none := by
  have hinc : (captured.entry .capturing {} 0).1.IsBasic (.of "inc" [.ofReg "b"]) :=
    ⟨by decide, by decide, by decide, _, rfl⟩
  have hclean : (captured.lower .capturing {} { counter := 0 }).2.2.Clean :=
    List.isEmpty_iff.mp (by decide +kernel)
  have hnext : (Machine.counter.next (captured.entry .capturing {} 0).1.epilogue
      (captured.bodyLines .capturing {} 0)
        (.running (captured.bodyLines .capturing {} 0) (0, 7, false))).isNone = true := by
    decide +kernel
  refine ⟨⟨by decide, hinc⟩, hclean,
    .ifSkip (show Condition.ofWord? "z" = some .z by decide) rfl, fun fuel => ?_⟩
  cases fuel with
  | zero => rfl
  | succ fuel => rw [Machine.run, Option.isNone_iff_eq_none.mp hnext]

end Z80Backend
