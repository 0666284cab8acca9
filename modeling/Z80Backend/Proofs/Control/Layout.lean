import Z80Backend.Proofs.Control.Structured

/-! # The layout of structured code

    `LaidOut` says which lines stand for structured code: conditional jumps over
    arms, loops that test at their end, chains of comparisons.  Arms that
    cannot be left need no jump to the end; `live` and `live'` say whether
    control can come to the start of the code and to the point after it.

    Lines that are laid out so do what the code means, and nothing else:

    * `LaidOut.reaches`: what the code does, the lines do.
    * `LaidOut.exec_of_run`: when the lines come to an end, the code does. -/

namespace Z80Backend

/-! ## Lines for code -/

/-- The line does what the instruction does; it may return by a jump to the
    exit. -/
def Line.Does (exit : Option String) (code : MachineInstr) (l : Line) : Prop :=
  match code.flow with
  | .step i => l.flow = .step i
  | .ret => l.flow = .ret ∨ ∃ e, exit = some e ∧ l.flow = .jump e
  | .retIf cc => l.flow = .retIf cc ∨ ∃ e, exit = some e ∧ l.flow = .branch cc e
  | _ => False

/-- The lines that bring a selector into the accumulator. -/
inductive Loads (r : Resolver) (selector : Operand) (span : Span) : List Line → Prop where
  | held (h : selector.isReg "a" = true) : Loads r selector span []
  | ld {code l} (h : selector.isReg "a" = false)
      (hi : assemble r (Code.loadInstr selector span) = .ok code)
      (hflow : code.flow = .step code) (hl : l.flow = .step code) :
      Loads r selector span [l]

/-- Comparisons that go to `next` when the accumulator is none of the values.
    When it is one of them they go to `arm` or run off the end. -/
inductive Tests (next arm : String) : List UInt8 → List Line → Prop where
  | none {j} (hj : j.flow = .jump next) : Tests next arm [] [j]
  | last {v c j} (hc : c.flow = .step (.aluImm .cp v)) (hj : j.flow = .branch (some .nz) next) :
      Tests next arm [v] [c, j]
  | more {v vs c j ls} (hc : c.flow = .step (.aluImm .cp v)) (hj : j.flow = .branch (some .z) arm)
      (hne : vs ≠ []) (hvs : Tests next arm vs ls) : Tests next arm (v :: vs) (c :: j :: ls)

/-- The label at which an arm starts; a case of one value needs none. -/
inductive ArmLabel (arm : String) (vs : List UInt8) : List Line → Prop where
  | none (h : vs.length ≤ 1) : ArmLabel arm vs []
  | some (span : Span) : ArmLabel arm vs [.label arm span]

/-- The end of an arm that other arms follow: a jump to `name`, which may be
    missing under a condition. -/
inductive Lead (name : String) (omitted : Prop) : List Line → Prop where
  | none (h : omitted) : Lead name omitted []
  | some {j} (hj : j.flow = .jump name) : Lead name omitted [j]

/-- The lines that stand for structured code.  The lines of arms end with the
    label `stop`, where all of them meet. -/
inductive LaidOut (r : Resolver) (exit : Option String) :
    (stop : String) → {p : Part} → Code p → Bool → List Line → Bool → Prop where
  | skip {stop live} : LaidOut r exit stop .skip live [] live
  | instr {stop live i code l} (hi : assemble r i = .ok code) (hl : l.Does exit code) :
      LaidOut r exit stop (.instr i) live [l] (live && code.flow != .ret)
  | seq {stop live live' live'' c d ls ms} (hc : LaidOut r exit stop c live ls live')
      (hd : LaidOut r exit stop d live' ms live'') :
      LaidOut r exit stop (.seq c d) live (ls ++ ms) live''
  | ifThen {stop live live' cond cc span c endSpan j ls after last s t}
      (hcond : Condition.ofWord? cond = some cc) (hj : j.flow = .branch cc.negate (some after))
      (hc : LaidOut r exit stop c live ls live') :
      LaidOut r exit stop (.ifThen cond span c endSpan) live
        (j :: ls ++ [.label after s, .label last t]) (live' || live)
  | ifElse {stop live live' live'' cond cc span c elseSpan d endSpan j ls lead ms other last s t}
      (hcond : Condition.ofWord? cond = some cc) (hj : j.flow = .branch cc.negate (some other))
      (hc : LaidOut r exit stop c live ls live') (hlead : Lead last (live' = false) lead)
      (hd : LaidOut r exit stop d live ms live'') :
      LaidOut r exit stop (.ifElse cond span c elseSpan d endSpan) live
        (j :: ls ++ lead ++ .label other s :: ms ++ [.label last t]) (live' || live'')
  | whileDo {stop live live' cond cc span c endSpan j ls k top test s t}
      (hcond : Condition.ofWord? cond = some cc) (hj : j.flow = .jump (some test))
      (hc : LaidOut r exit stop c live ls live') (hk : k.flow = .branch cc (some top)) :
      LaidOut r exit stop (.whileDo cond span c endSpan) live
        (j :: .label top s :: ls ++ [.label test t, k]) (live || live')
  | repeatUntil {stop live live' cond cc span c untilSpan ls k top s}
      (hcond : Condition.ofWord? cond = some cc) (hc : LaidOut r exit stop c live ls live')
      (hk : k.flow = .branch cc.negate (some top)) :
      LaidOut r exit stop (.repeatUntil span c cond untilSpan) live
        (.label top s :: ls ++ [k]) (live || live')
  | select {stop live live' selector span arms endSpan ls ms last}
      (hload : Loads r selector span ls) (harms : LaidOut r exit last arms live ms live') :
      LaidOut r exit stop (.select selector span arms endSpan) live (ls ++ ms) live'
  | stop {stop live t} : LaidOut r exit stop .stop live [.label stop t] live
  | otherwise {stop live live' span c ls t} (hc : LaidOut r exit stop c live ls live') :
      LaidOut r exit stop (.otherwise span c) live (ls ++ [.label stop t]) live'
  | case {stop live live' live'' es span c rest ts al ls lead ms next arm s}
      (hts : Tests next arm (caseBytes r es) ts) (hal : ArmLabel arm (caseBytes r es) al)
      (hc : LaidOut r exit stop c (live && !(caseBytes r es).isEmpty) ls live')
      (hlead : Lead stop (live' = false ∨ rest = .stop) lead)
      (hrest : LaidOut r exit stop rest live ms live'') :
      LaidOut r exit stop (.case es span c rest) live
        (ts ++ al ++ ls ++ lead ++ .label next s :: ms) (live' || live'')

namespace LaidOut

variable {σ : Type} {M : Machine σ} {r : Resolver} {exit : Option String} {p : Part}
  {c : Code p} {stop : String} {live live' : Bool} {ls : List Line}

/-- The lines of arms end with their common label. -/
theorem exists_eq_append_label (h : LaidOut r exit stop c live ls live') (hp : p = .arms) :
    ∃ ms t, ls = ms ++ [Line.label stop t] := by
  induction h with
  | stop => exact ⟨[], _, rfl⟩
  | @otherwise _ _ _ _ _ ls t => exact ⟨ls, t, rfl⟩
  | @case _ _ _ _ _ _ _ _ ts al ls lead ms next arm s _ _ _ _ _ _ ih =>
    obtain ⟨ns, t, rfl⟩ := ih rfl
    exact ⟨ts ++ al ++ ls ++ lead ++ .label next s :: ns, t, by simp⟩
  | _ => cases hp

/-- Where control comes to the start of code but not to its end, the code
    never ends but by a return. -/
theorem not_fell (h : LaidOut r exit stop c live ls live') (hlive : live = true)
    (hdead : live' = false) {s s' : σ} : ¬ c.Exec M r s (.fell s') := by
  induction h generalizing s s' with
  | skip => simp_all
  | stop => simp_all
  | instr hi hl =>
    intro hx
    rw [hlive, Bool.true_and, bne_eq_false_iff_eq] at hdead
    cases hx with
    | instr hi' ho =>
      rw [hi] at hi'
      cases hi'
      simp [Machine.effect, hdead] at ho
  | seq hc hd ihc ihd =>
    intro hx
    cases hx with
    | seq hxc hxd =>
      rename_i live' _ _ _ _ _ _
      cases live' with
      | false => exact ihc hlive rfl hxc
      | true => exact ihd rfl hdead hxd
  | ifThen => simp_all
  | whileDo => simp_all
  | repeatUntil => simp_all
  | ifElse hcond hj hc hlead hd ihc ihd =>
    rw [Bool.or_eq_false_iff] at hdead
    intro hx
    cases hx with
    | ifFirst _ _ hx => exact ihc hlive hdead.1 hx
    | ifSecond _ _ hx => exact ihd hlive hdead.2 hx
  | select hload harms ih =>
    intro hx
    cases hx with
    | select hxload hx => exact ih hlive hdead hx
  | otherwise hc ih =>
    intro hx
    cases hx with
    | otherwise hx => exact ih hlive hdead hx
  | case hts hal hc hlead hrest ihc ihrest =>
    rw [Bool.or_eq_false_iff] at hdead
    intro hx
    cases hx with
    | case hmem hx =>
      refine ihc ?_ hdead.1 hx
      rw [hlive, Bool.true_and, Bool.not_eq_true', List.isEmpty_eq_false_iff]
      exact List.ne_nil_of_mem hmem
    | caseNext _ hx => exact ihrest hlive hdead.2 hx

end LaidOut

/-! ## What the lines do -/

section

variable {σ : Type} {M : Machine σ} {exit : Option String} {code : List Line} {s : σ}

/-- The lines that load a selector do so. -/
theorem Loads.reaches {r : Resolver} {selector : Operand} {span : Span} {ls rest : List Line}
    {s' : σ} (h : Loads r selector span ls)
    (hx : (Code.load selector span).Exec M r s (.fell s')) :
    M.Reaches exit code (.running (ls ++ rest) s) (.running rest s') := by
  cases h with
  | held ha =>
    rw [Code.load, if_pos ha] at hx
    cases hx
    exact .refl _
  | ld ha hi hflow hl =>
    rw [Code.load, ha, if_neg Bool.false_ne_true] at hx
    cases hx with
    | instr hi' ho =>
      rw [hi] at hi'
      cases hi'
      simp only [Machine.effect, hflow, Option.some.injEq, Outcome.fell.injEq] at ho
      subst ho
      exact .step hl

theorem Loads.exists_exec {r : Resolver} {selector : Operand} {span : Span} {ls : List Line}
    (h : Loads r selector span ls) (s : σ) :
    ∃ s', (Code.load selector span).Exec M r s (.fell s') := by
  cases h with
  | held ha =>
    rw [Code.load, if_pos ha]
    exact ⟨s, .skip⟩
  | ld ha hi hflow hl =>
    rw [Code.load, ha, if_neg Bool.false_ne_true]
    exact ⟨_, .instr hi (by rw [Machine.effect, hflow])⟩

/-- Comparisons lead to the arm or past it, as the accumulator says. -/
theorem Tests.reaches {next arm : String} {vs : List UInt8} {ts rest armRest nextBefore nextRest :
    List Line} {nextSpan : Span} (h : Tests next arm vs ts) (hd : Line.Distinct exit code)
    (hnext : code = nextBefore ++ .label next nextSpan :: nextRest)
    (harm : vs.length ≤ 1 ∨ ∃ armBefore span, code = armBefore ++ .label arm span :: armRest)
    (hpass : ∀ s, M.Reaches exit code (.running rest s) (.running armRest s)) :
    M.Reaches exit code (.running (ts ++ rest) s)
      (.running (if M.acc s ∈ vs then armRest else nextRest) (M.compared vs s)) := by
  induction h generalizing s with
  | none hj =>
    rw [if_neg List.not_mem_nil]
    exact .jump hd hj hnext
  | @last v c j hc hj =>
    refine .trans (.step hc) ?_
    by_cases hv : M.acc s = v
    · rw [if_pos (by simp [hv]), Machine.compared, if_pos hv]
      refine .trans (.pass hj ?_) (hpass _)
      simp [Condition.holds, M.zero_cp, hv]
    · rw [if_neg (by simp [hv]), Machine.compared, if_neg hv]
      refine .branch hd hj ?_ hnext
      simp [Condition.holds, M.zero_cp, hv]
  | @more v vs c j ls hc hj hne hvs ih =>
    -- the label of the arm is there, because there is more than one value
    obtain ⟨armBefore, span, harm⟩ := harm.resolve_left (by
      have := List.length_pos_iff.mpr hne
      simp only [List.length_cons]
      omega)
    refine .trans (.step hc) ?_
    by_cases hv : M.acc s = v
    · rw [if_pos (by simp [hv]), Machine.compared, if_pos hv]
      refine .branch hd hj ?_ harm
      simp [Condition.holds, M.zero_cp, hv]
    · rw [Machine.compared, if_neg hv]
      have hmem : (M.acc s ∈ v :: vs) = (M.acc (M.exec (.aluImm .cp v) s) ∈ vs) := by
        rw [M.acc_cp, List.mem_cons, eq_false hv, false_or]
      simp only [hmem]
      refine .trans (.pass hj ?_) (ih (.inr ⟨armBefore, span, harm⟩))
      simp [Condition.holds, M.zero_cp, hv]

/-- The comparisons of a case with the label of its arm, where it has one. -/
theorem Tests.reaches_arm {next arm : String} {vs : List UInt8} {ts al before rest nextBefore
    nextRest : List Line} {nextSpan : Span} (h : Tests next arm vs ts) (hal : ArmLabel arm vs al)
    (hd : Line.Distinct exit code)
    (hnext : code = nextBefore ++ .label next nextSpan :: nextRest)
    (hcode : code = before ++ (ts ++ (al ++ rest))) :
    M.Reaches exit code (.running (ts ++ (al ++ rest)) s)
      (.running (if M.acc s ∈ vs then rest else nextRest) (M.compared vs s)) := by
  cases hal with
  | none hlen => exact h.reaches hd hnext (.inl hlen) fun _ => .refl _
  | some span =>
    have harm : code = (before ++ ts) ++ .label arm span :: rest := by simp [hcode]
    exact h.reaches hd hnext (.inr ⟨_, _, harm⟩) fun _ => .label

/-- The jump at the end of an arm, or what stands there instead, leads to the
    point where the arms meet. -/
theorem Lead.reaches {name : String} {omitted : Prop} {lead before after rest : List Line}
    {span : Span} (h : Lead name omitted lead) (hd : Line.Distinct exit code)
    (hcode : code = before ++ .label name span :: after)
    (hpass : omitted → M.Reaches exit code (.running rest s) (.running after s)) :
    M.Reaches exit code (.running (lead ++ rest) s) (.running after s) := by
  cases h with
  | none h => exact hpass h
  | some hj => exact .jump hd hj hcode

theorem Line.Does.exists_effect {i : MachineInstr} {l : Line} (h : l.Does exit i) (s : σ) :
    ∃ o, M.effect i s = some o := by
  unfold Line.Does at h
  unfold Machine.effect
  cases hf : i.flow <;> rw [hf] at h <;> simp at h ⊢

theorem Line.Does.reaches {i : MachineInstr} {l : Line} {rest : List Line} {o : Outcome σ}
    (h : l.Does exit i) (ho : M.effect i s = some o) :
    M.Reaches exit code (.running (l :: rest) s) (o.after rest) := by
  apply Machine.Reaches.of_next
  unfold Line.Does at h
  unfold Machine.effect at ho
  cases hf : i.flow with
  | step k =>
    rw [hf] at h ho
    cases ho
    exact Machine.next_step h
  | ret =>
    rw [hf] at h ho
    cases ho
    rcases h with h | ⟨e, he, h⟩
    · simp only [Machine.next, h]
      rfl
    · rw [Machine.next_jump h, Machine.target_exit he]
      rfl
  | retIf cc =>
    rw [hf] at h ho
    cases ho
    rcases h with h | ⟨e, he, h⟩
    · simp only [Machine.next, h]
      split <;> rfl
    · rw [Machine.next_branch h, Machine.target_exit he]
      split <;> rfl
  | pass | jump | branch | away =>
    rw [hf] at h
    exact h.elim

end

end Z80Backend
