import Z80Backend.Proofs.Function.Outline
import Z80Backend.Proofs.Marks.Steps
import Z80Backend.Proofs.Stack.Paths

/-! # Depths and statements

    Depths are marks: the paths that join at a point come with the same one
    (`Depth.marking`).  They fit the lines of the statements that leave the open
    blocks alone: plain instructions, accesses to typed storage, calls with
    arguments, and returns, which come with depth 0. -/

namespace Z80Backend

/-! ## Depths as marks -/

/-- Depths as marks, in a function that leaves at the label `exit` with depth 0
    and that has no labels of its own. -/
abbrev Depth.marking (exit : Option String) (undo : List Line) : Marking Depth where
  ofDepth := id
  Within p d := d.Within (2 * p)
  bare := True
  User _ := True
  Fits Λ := ∀ e, exit = some e → Λ e = some (.known 0)
  Flow Λ p m ls m' := StackFlow Λ undo p m ls m'
  within_mono h hpq := h.mono (by omega)
  nil := .nil
  append := .append
  label hin hwithin := .cons (.label hin hwithin) (.nil fun _ hd => hd)
  jump hin := .cons (.jump rfl fun x hx d hd => Resolver.eq_of_label?_wordOf hx ▸ hin d hd)
    (.nil fun _ hd => hd)
  branch _ hin := .cons (.branch rfl fun x hx d hd => Resolver.eq_of_label?_wordOf hx ▸ hin d hd)
    (.nil fun _ hd => hd)
  compare {Λ p m span v} := by
    have hstep : Line.Passes Λ p m (.compare span v) (m.map (·.move (some 0))) :=
      .step (Line.flow_compare span v)
    refine .cons hstep (.nil fun d hd => ?_)
    simpa [Depth.move] using hd

/-- The depth that control comes with, if it comes at all. -/
def Tracker.mark (t : Tracker) : Option Depth := if t.live then some t.depth else none

theorem Tracker.depth_of_mark {t : Tracker} {d : Depth} (h : t.mark = some d) : t.depth = d := by
  unfold mark at h
  split at h
  · cases h
    rfl
  · cases h

theorem Tracker.live_of_mark {t : Tracker} {d : Depth} (h : t.mark = some d) : t.live = true := by
  unfold mark at h
  split at h
  · assumption
  · cases h

/-! ## Straight code -/

namespace FnState.Moves

variable {exit : Option String} {undo : List Line} {r : Resolver} {span : Span} {s : FnState}

theorem of_line {s' : FnState} {l : Line} (hlines : s'.lines = s.lines ++ [l])
    (hname : l.labelName? = none) (hcounter : s'.counter = s.counter)
    (hlive : s'.tracker.live = true → s.tracker.live = true)
    (hbounds : s.InBounds (Depth.marking exit undo) → s'.InBounds (Depth.marking exit undo))
    (hpass : ∀ Λ, (∀ e, exit = some e → Λ e = some (.known 0)) →
      Line.Passes Λ s.lines.length s.tracker.mark l s'.tracker.mark) :
    Moves (Depth.marking exit undo) s s' := by
  refine of_lines hlines (fun _ => Int.le_of_eq hcounter.symm)
    (by simp [Line.labelNames, hname]) (fun _ => hlive) hbounds fun Λ hexit => ?_
  exact .cons (hpass Λ hexit) (.nil fun _ hd => hd)

/-- An instruction that passes control on. -/
theorem emit {i : Instruction} (hi : i.IsStraight) (h : (s.emit r i).Clean) :
    Moves (Depth.marking exit undo) s (s.emit r i) := by
  obtain ⟨code, hcode, heq⟩ := emit_of_clean h
  have hflow : (Line.instr i code).flow = .step code :=
    MachineInstr.flow_of_assemble hcode hi
  have hmark : (s.tracker.apply i).mark = s.tracker.mark.map (·.move code.spDelta) := by
    rw [Tracker.apply_of_assemble _ hcode hi]
    unfold Tracker.mark
    cases s.tracker.live <;> rfl
  rw [heq]
  refine of_line rfl rfl rfl ?_ (fun hs d hd => ?_) fun Λ _ => ?_
  · rw [Tracker.apply_of_assemble _ hcode hi]
    exact id
  · obtain ⟨d', hd', rfl⟩ := Option.map_eq_some_iff.mp (hmark.symm.trans hd)
    refine ((hs d' hd').move code).mono ?_
    simp only [List.length_append, List.length_singleton]
    omega
  · rw [hmark]
    exact .step hflow

theorem emitAll {is : List Instruction} (his : ∀ i ∈ is, i.IsStraight)
    (h : (s.emitAll r span is).Clean) :
    Moves (Depth.marking exit undo) s (s.emitAll r span is) := by
  induction is generalizing s with
  | nil => exact refl s
  | cons i is ih =>
    obtain ⟨hi, his⟩ := List.forall_mem_cons.mp his
    have hfirst : (s.emit r { i with span }).Clean :=
      ((s.emit r { i with span }).extends_emitAll r span is).clean h
    have hmoves : Moves (Depth.marking exit undo) s (s.emit r { i with span }) := emit hi hfirst
    exact hmoves.trans (ih his h)

end FnState.Moves

namespace FnContext

variable {ctx : FnContext} {exit : Option String} {undo : List Line} {s : FnState} {span : Span}

theorem moves_lowerTyped {i : Instruction} (h : (ctx.lowerTyped i s).Clean) :
    s.Moves (Depth.marking exit undo) (ctx.lowerTyped i s) := by
  unfold lowerTyped at h ⊢
  split at h
  · exact absurd h (s.not_clean_report _ _)
  · exact (FnState.Moves.note _).trans (.emitAll Step.isStraight_map h)

theorem moves_pushArgs {callee : String} {args : List (Operand × Nat)}
    (h : (ctx.pushArgs callee span args s).2.Clean) :
    s.Moves (Depth.marking exit undo) (ctx.pushArgs callee span args s).2 := by
  induction args with
  | nil => exact .refl s
  | cons x rest ih =>
    obtain ⟨arg, i⟩ := x
    rw [pushArgs] at h ⊢
    generalize hrest : ctx.pushArgs callee span rest s = p at h ih ⊢
    obtain ⟨ok, s'⟩ := p
    cases ok with
    | false => exact ih h
    | true =>
      dsimp only at h ih ⊢
      split at h
      · exact absurd h (s'.not_clean_report _ _)
      · rename_i code hcode
        have hs' := (s'.extends_emitAll ctx.resolver span code).clean h
        exact (ih hs').trans (.emitAll (isStraight_pushArg hcode) h)

theorem moves_lowerCall {callee : String} {args : List Operand}
    (h : (ctx.lowerCall callee args span s).Clean) :
    s.Moves (Depth.marking exit undo) (ctx.lowerCall callee args span s) := by
  unfold lowerCall at h ⊢
  split at h
  · exact absurd h (s.not_clean_report _ _)
  · split at h
    · exact absurd h (s.not_clean_report _ _)
    · rename_i hlen
      rw [if_neg hlen]
      have hargs : (ctx.pushArgs callee span args.zipIdx s).2.Clean →
          s.Moves (Depth.marking exit undo) (ctx.pushArgs callee span args.zipIdx s).2 :=
        moves_pushArgs
      generalize ctx.pushArgs callee span args.zipIdx s = p at h hargs ⊢
      obtain ⟨ok, s'⟩ := p
      cases ok with
      | false => exact hargs h
      | true =>
        have hcall := (FnState.extends_note _ _).clean h
        have hs' := (s'.extends_emitAll ctx.resolver span _).clean hcall
        exact ((hargs hs').trans (.emitAll isStraight_callCode hcall)).trans (.note _)

end FnContext

/-! ## Returns -/

/-- A return that is in order comes with depth 0. -/
theorem Depth.eq_zero_of_returnError? {d : Depth} (h : d.returnError? = none) : d = .known 0 := by
  cases d with
  | known n =>
    rw [returnError?] at h
    split at h
    · rename_i hn
      rw [hn]
    · cases h
  | unknown => cases h
  | untracked => cases h

namespace FnState.Moves

variable {exit : Option String} {undo : List Line} {r : Resolver} {s : FnState} {i : Instruction}

/-- One line that control passes over, the depth staying as it is. -/
theorem of_stay {s' : FnState} {l : Line} (hlines : s'.lines = s.lines ++ [l])
    (hname : l.labelName? = none) (hcounter : s'.counter = s.counter)
    (htracker : s'.tracker = s.tracker)
    (hpass : ∀ Λ, (∀ e, exit = some e → Λ e = some (.known 0)) →
      Line.Passes Λ s.lines.length s.tracker.mark l s.tracker.mark) :
    Moves (Depth.marking exit undo) s s' := by
  refine of_line hlines hname hcounter (fun h => htracker ▸ h) ?_ (htracker.symm ▸ hpass)
  intro hs d hd
  refine (hs d (htracker ▸ hd)).mono ?_
  rw [hlines, List.length_append]
  omega

/-- Lines that control does not pass. -/
theorem of_stop {s' : FnState} {ls : List Line} (hlines : s'.lines = s.lines ++ ls)
    (hnames : Line.labelNames ls = []) (hcounter : s'.counter = s.counter)
    (hlive : s'.tracker.live = false)
    (hflow : ∀ Λ, (∀ e, exit = some e → Λ e = some (.known 0)) →
      StackFlow Λ undo s.lines.length s.tracker.mark ls none) :
    Moves (Depth.marking exit undo) s s' := by
  have hmark : s'.tracker.mark = none := by rw [Tracker.mark, hlive, if_neg Bool.false_ne_true]
  refine of_lines hlines (fun _ => Int.le_of_eq hcounter.symm) hnames ?_ ?_ fun Λ hΛ => ?_
  · rw [hlive]
    exact nofun
  · intro _ d hd
    cases hmark.symm.trans hd
  · show StackFlow Λ undo _ s.tracker.mark ls s'.tracker.mark
    rw [hmark]
    exact hflow Λ hΛ

/-- A return of a function that has nothing to undo. -/
theorem emit_ret (hhead : Text.lower i.head = "ret") (hzero : s.tracker.depth = .known 0)
    (h : (s.emit r i).Clean) : Moves (Depth.marking exit undo) s (s.emit r i) := by
  obtain ⟨code, hcode, heq⟩ := emit_of_clean h
  have hof : StackEffect.of i = { returns := true, terminates := i.operands.isEmpty } := by
    simp [StackEffect.of, hhead]
  rw [heq]
  rcases assemble_ret hhead hcode with ⟨hos, rfl⟩ | ⟨_, _, cc, hos, _, rfl⟩
  · refine of_stop rfl rfl rfl (by simp [Tracker.apply, hof, hos]) fun Λ _ => ?_
    exact .cons (.ret rfl fun d hd => (Tracker.depth_of_mark hd).symm.trans hzero)
      (.nil fun _ hd => hd)
  · refine of_stay rfl rfl rfl (by simp [Tracker.apply, hof, hos]) fun Λ _ => ?_
    exact .retIf rfl fun d hd => (Tracker.depth_of_mark hd).symm.trans hzero

/-- A return of a function that has something to undo. -/
theorem emit_exit {e : String} {os : List Operand} {span : Span} (hexit : exit = some e)
    (hzero : s.tracker.depth = .known 0)
    (h : (s.emit r { head := "jp", operands := os.take 1 ++ [Operand.ofName e], span }).Clean) :
    Moves (Depth.marking exit undo) s
      (s.emit r { head := "jp", operands := os.take 1 ++ [Operand.ofName e], span }) := by
  have hin : ∀ Λ : String → Option Depth, (∀ e, exit = some e → Λ e = some (.known 0)) →
      ∀ x ∈ (r.wordOf e).label?, ∀ d, s.tracker.mark = some d → Λ x = some d := by
    intro Λ hΛ x hx d hd
    rw [Resolver.eq_of_label?_wordOf hx, hΛ e hexit, ← Tracker.depth_of_mark hd, hzero]
  cases os with
  | nil =>
    change Moves (Depth.marking exit undo) s (FnState.jump r span [.ofName e] s)
    rw [FnState.jump_of_clean h]
    exact of_stop rfl rfl rfl rfl fun Λ hΛ => .cons (.jump rfl (hin Λ hΛ)) (.nil fun _ hd => hd)
  | cons o os =>
    have hops : (o :: os).take 1 ++ [Operand.ofName e] = [o, .ofName e] := rfl
    rw [hops] at h ⊢
    obtain ⟨code, hcode, heq⟩ := emit_of_clean h
    obtain ⟨cc, _, rfl, _⟩ := assemble_branch hcode
    rw [heq]
    exact of_stay rfl rfl rfl (s.tracker.apply_branch _ _ _) fun Λ hΛ => .branch rfl (hin Λ hΛ)

/-- A return from an interrupt, behind the lines that undo the beginning. -/
theorem emit_interrupt (hhead : Text.lower i.head = "reti" ∨ Text.lower i.head = "retn")
    (hzero : s.tracker.depth = .known 0) (hundo : Line.labelNames undo = [])
    (h : ({ s with lines := s.lines ++ undo }.emit r i).Clean) :
    Moves (Depth.marking exit undo) s ({ s with lines := s.lines ++ undo }.emit r i) := by
  obtain ⟨code, hcode, heq⟩ := emit_of_clean h
  rw [heq]
  refine of_stop (List.append_assoc ..) ?_ rfl ?_ fun Λ _ => ?_
  · rw [Line.labelNames_append, hundo]
    rfl
  · have hof : (StackEffect.of i).terminates = true := by
      rcases hhead with hhead | hhead <;> simp [StackEffect.of, hhead]
    simp [Tracker.apply, hof]
  · exact .leave (MachineInstr.interruptReturn_of_assemble hcode hhead)
      (fun d hd => (Tracker.depth_of_mark hd).symm.trans hzero) (.nil fun _ hd => hd)

end FnState.Moves

namespace FnContext

variable {ctx : FnContext} {undo : List Line} {i : Instruction} {s : FnState}

/-- Without an epilogue there is nothing to undo in place either. -/
theorem lowerRet_of_ne (hnone : ctx.epilogue = none → ctx.cleanup = [])
    (hhead : Text.lower i.head ≠ "ret") :
    ctx.lowerRet i s =
      (ctx.emitAround ctx.cleanup ({ s with returns := s.returns + 1 }.check
        s.tracker.depth.returnError? i.span)).emit ctx.resolver i := by
  unfold lowerRet
  dsimp only
  split
  · rename_i hexit
    rw [hnone hexit]
    rfl
  · rw [if_pos hhead]

/-- A return that is counted cleanly comes with depth 0. -/
theorem counted_of_clean {exit : Option String} {n : Int64} {span : Span}
    (h : ({ s with returns := n }.check s.tracker.depth.returnError? span).Clean) :
    ({ s with returns := n }.check s.tracker.depth.returnError? span).tracker.depth = .known 0 ∧
      s.Moves (Depth.marking exit undo)
        ({ s with returns := n }.check s.tracker.depth.returnError? span) := by
  obtain ⟨herror, heq⟩ := FnState.check_of_clean h
  rw [heq]
  exact ⟨Depth.eq_zero_of_returnError? herror, .of_eq rfl rfl fun _ => Int.le_refl _⟩

/-- A return leads to the exit, or stands behind the lines that undo the
    beginning, and comes with depth 0. -/
theorem moves_lowerRet (hundo : Line.Assembles ctx.resolver ctx.cleanup undo)
    (hnone : ctx.epilogue = none → ctx.cleanup = [])
    (hhead : Text.lower i.head ∈ ["ret", "reti", "retn"]) (h : (ctx.lowerRet i s).Clean) :
    s.Moves (Depth.marking ctx.epilogue undo) (ctx.lowerRet i s) := by
  by_cases hret : Text.lower i.head = "ret"
  · unfold lowerRet at h ⊢
    dsimp only at h ⊢
    cases hexit : ctx.epilogue with
    | none =>
      rw [hexit] at h
      dsimp only at h ⊢
      obtain ⟨hzero, hmoves⟩ := counted_of_clean ((FnState.extends_emit _ _ _).clean h)
      exact hmoves.trans (.emit_ret hret hzero h)
    | some e =>
      simp only [hexit, hret, ne_eq, not_true_eq_false, if_false] at h ⊢
      obtain ⟨hzero, hmoves⟩ := counted_of_clean ((FnState.extends_emit _ _ _).clean h)
      exact hmoves.trans (.emit_exit rfl hzero h)
  · rw [lowerRet_of_ne hnone hret] at h ⊢
    have hcleanup := (FnState.extends_emit _ _ _).clean h
    obtain ⟨hzero, hmoves⟩ := counted_of_clean ((ctx.extends_emitAround _ _).clean hcleanup)
    rw [hundo.emitAround] at h ⊢
    refine hmoves.trans (.emit_interrupt ?_ hzero hundo.labelNames h)
    simpa [hret] using hhead

end FnContext

end Z80Backend
