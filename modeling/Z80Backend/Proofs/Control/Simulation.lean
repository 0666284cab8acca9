import Z80Backend.Proofs.Control.Layout

/-! # Lines do what structured code means

    Both directions go by induction on the layout.  Loops need a second
    induction: on the execution of the loop where the lines follow the code,
    and on the length of the run where the code follows the lines. -/

namespace Z80Backend.LaidOut

variable {σ : Type} {M : Machine σ} {r : Resolver} {exit : Option String} {p : Part}
  {c : Code p} {stop : String} {live live' : Bool} {ls code : List Line} {s : σ}

/-! ## From code to lines -/

/-- What the code does, the lines do: control comes to what follows them, or
    the function returns. -/
theorem reaches (hd : Line.Distinct exit code) (h : LaidOut r exit stop c live ls live')
    (hlive : live = true) (before after : List Line) (hcode : code = before ++ (ls ++ after))
    {o : Outcome σ} (hx : c.Exec M r s o) :
    M.Reaches exit code (.running (ls ++ after) s) (o.after after) := by
  induction h generalizing before after s o with
  | skip =>
    cases hx
    exact .refl _
  | instr hi hl =>
    cases hx with
    | instr hi' ho =>
      rw [hi] at hi'
      cases hi'
      exact hl.reaches ho
  | @seq _ _ mid _ _ _ ls ms hc hd' ihc ihd =>
    rw [List.append_assoc] at hcode ⊢
    cases hx with
    | seq hxc hxd =>
      have hmid : mid = true := by
        cases mid
        · exact absurd hxc (hc.not_fell hlive rfl)
        · rfl
      refine .trans (ihc hlive before (ms ++ after) hcode hxc) ?_
      exact ihd hmid (before ++ ls) after (by simp [hcode]) hxd
    | seqReturn hxc => exact ihc hlive before (ms ++ after) hcode hxc
  | @ifThen _ _ _ _ cc _ _ _ j ls skip last t u hcond hj hc ih =>
    simp only [List.append_assoc, List.cons_append, List.nil_append] at hcode ⊢
    have hskip : code = (before ++ j :: ls) ++ .label skip t :: .label last u :: after := by
      simp [hcode]
    cases hx with
    | ifThen hcond' htest hx =>
      obtain rfl := Option.some.inj (hcond.symm.trans hcond')
      refine .trans (.pass hj (by simp [htest])) ?_
      refine .trans (ih hlive (before ++ [j]) _ (by simp [hcode]) hx) ?_
      cases o with
      | fell s' => exact .trans .label .label
      | returned s' => exact .refl _
    | ifSkip hcond' htest =>
      obtain rfl := Option.some.inj (hcond.symm.trans hcond')
      exact .trans (.branch hd hj (by simp [htest]) hskip) .label
  | @ifElse _ _ mid _ _ cc _ _ _ _ _ j ls lead ms other last t u hcond hj hc hlead hd' ihc ihd =>
    simp only [List.append_assoc, List.cons_append, List.nil_append] at hcode ⊢
    have hother : code = (before ++ j :: (ls ++ lead)) ++
        .label other t :: (ms ++ .label last u :: after) := by simp [hcode]
    have hlast : code = (before ++ j :: (ls ++ lead ++ .label other t :: ms)) ++
        .label last u :: after := by simp [hcode]
    cases hx with
    | ifFirst hcond' htest hx =>
      obtain rfl := Option.some.inj (hcond.symm.trans hcond')
      refine .trans (.pass hj (by simp [htest])) ?_
      refine .trans (ihc hlive (before ++ [j]) _ (by simp [hcode]) hx) ?_
      cases o with
      | returned s' => exact .refl _
      | fell s' =>
        -- the jump is missing only where the arm cannot be left
        refine hlead.reaches hd hlast fun hdead => ?_
        exact absurd hx (hc.not_fell hlive hdead)
    | ifSecond hcond' htest hx =>
      obtain rfl := Option.some.inj (hcond.symm.trans hcond')
      refine .trans (.branch hd hj (by simp [htest]) hother) ?_
      refine .trans (ihd hlive (before ++ j :: (ls ++ lead ++ [Line.label other t])) _
        (by simp [hcode]) hx) ?_
      cases o with
      | fell s' => exact .label
      | returned s' => exact .refl _
  | @whileDo _ _ _ _ cc _ _ _ j ls k top test t u hcond hj hc hk ih =>
    simp only [List.append_assoc, List.cons_append, List.nil_append] at hcode ⊢
    have htop : code = (before ++ [j]) ++ .label top t :: (ls ++ .label test u :: k :: after) := by
      simp [hcode]
    have htest : code = (before ++ j :: .label top t :: ls) ++ .label test u :: k :: after := by
      simp [hcode]
    refine .trans (.jump hd hj htest) ?_
    -- each turn starts at the test
    refine hx.while_induct (motive := fun s o =>
      M.Reaches exit code (.running (k :: after) s) (o.after after)) hcond ?_ ?_ ?_
    · intro s hcc
      exact .pass hk hcc
    · intro s s' o hcc hx ihturn
      refine .trans (.branch hd hk hcc htop) ?_
      refine .trans (ih hlive (before ++ [j, .label top t]) _ (by simp [hcode]) hx) ?_
      exact .trans .label ihturn
    · intro s s' hcc hx
      refine .trans (.branch hd hk hcc htop) ?_
      exact ih hlive (before ++ [j, .label top t]) _ (by simp [hcode]) hx
  | @repeatUntil _ _ _ _ cc _ _ _ ls k top t hcond hc hk ih =>
    simp only [List.append_assoc, List.cons_append, List.nil_append] at hcode ⊢
    have htop : code = before ++ .label top t :: (ls ++ k :: after) := by simp [hcode]
    refine .trans .label ?_
    -- each turn starts after the label at the top
    refine hx.repeat_induct (motive := fun s o =>
      M.Reaches exit code (.running (ls ++ k :: after) s) (o.after after)) hcond ?_ ?_ ?_
    · intro s s' hx hcc
      refine .trans (ih hlive (before ++ [Line.label top t]) _ (by simp [hcode]) hx) ?_
      exact .pass hk (by simp [hcc])
    · intro s s' o hx hcc ihturn
      refine .trans (ih hlive (before ++ [Line.label top t]) _ (by simp [hcode]) hx) ?_
      exact .trans (.branch hd hk (by simp [hcc]) htop) ihturn
    · intro s s' hx
      exact ih hlive (before ++ [Line.label top t]) _ (by simp [hcode]) hx
  | @select _ _ _ _ _ _ _ ls _ _ hload harms ih =>
    rw [List.append_assoc] at hcode ⊢
    cases hx with
    | select hxload hx =>
      refine .trans (hload.reaches hxload) ?_
      exact ih hlive (before ++ ls) after (by simp [hcode]) hx
  | stop =>
    cases hx
    exact .label
  | @otherwise _ _ _ _ _ ls t hc ih =>
    simp only [List.append_assoc, List.cons_append, List.nil_append] at hcode ⊢
    cases hx with
    | otherwise hx =>
      refine .trans (ih hlive before _ hcode hx) ?_
      cases o with
      | fell s' => exact .label
      | returned s' => exact .refl _
  | @case stop live _ _ es _ _ rest ts al ls lead ms next arm t hts hal hc hlead hrest ihc ihrest =>
    simp only [List.append_assoc, List.cons_append] at hcode ⊢
    have hnext : code = (before ++ (ts ++ (al ++ (ls ++ lead)))) ++
        .label next t :: (ms ++ after) := by simp [hcode]
    have htests := hts.reaches_arm (M := M) (s := s) hal hd hnext hcode
    cases hx with
    | case hmem hx =>
      have hlive' : (live && !(caseBytes r es).isEmpty) = true := by
        rw [hlive, Bool.true_and, Bool.not_eq_true', List.isEmpty_eq_false_iff]
        exact List.ne_nil_of_mem hmem
      rw [if_pos hmem] at htests
      refine .trans htests ?_
      refine .trans (ihc hlive' (before ++ (ts ++ al)) _ (by simp [hcode]) hx) ?_
      cases o with
      | returned s' => exact .refl _
      | fell s' =>
        obtain ⟨ns, u, hms⟩ := hrest.exists_eq_append_label rfl
        have hstop : code = (before ++ (ts ++ (al ++ (ls ++ (lead ++ .label next t :: ns))))) ++
            .label stop u :: after := by simp [hcode, hms]
        -- the jump is missing where the arm cannot be left or is the last one
        refine hlead.reaches hd hstop ?_
        rintro (hdead | rfl)
        · exact absurd hx (hc.not_fell hlive' hdead)
        · cases hrest
          exact .trans .label .label
    | caseNext hmem hx =>
      rw [if_neg hmem] at htests
      refine .trans htests ?_
      exact ihrest hlive (before ++ (ts ++ (al ++ (ls ++ (lead ++ [Line.label next t]))))) after
        (by simp [hcode]) hx

/-! ## From lines to code -/

/-- When the lines come to an end, so does the code. -/
theorem exec_of_run (hd : Line.Distinct exit code) (h : LaidOut r exit stop c live ls live')
    (hlive : live = true) (before after : List Line) (hcode : code = before ++ (ls ++ after))
    {n : Nat} {o : Outcome σ} (hrun : M.run exit code n (.running (ls ++ after) s) = some o) :
    ∃ o', c.Exec M r s o' := by
  induction h generalizing before after s n with
  | skip => exact ⟨_, .skip⟩
  | instr hi hl =>
    obtain ⟨o', ho'⟩ := hl.exists_effect (M := M) s
    exact ⟨o', .instr hi ho'⟩
  | @seq _ _ mid _ _ _ ls ms hc hd' ihc ihd =>
    rw [List.append_assoc] at hcode hrun
    obtain ⟨oc, hxc⟩ := ihc hlive before _ hcode hrun
    have hrun' := (hc.reaches hd hlive before _ hcode hxc).run_of_run hrun
    cases oc with
    | returned s' => exact ⟨_, .seqReturn hxc⟩
    | fell s' =>
      have hmid : mid = true := by
        cases mid
        · exact absurd hxc (hc.not_fell hlive rfl)
        · rfl
      obtain ⟨od, hxd⟩ := ihd hmid (before ++ ls) after (by simp [hcode]) hrun'
      exact ⟨od, .seq hxc hxd⟩
  | @ifThen _ _ _ _ cc _ _ _ j ls skip last t u hcond hj hc ih =>
    simp only [List.append_assoc, List.cons_append, List.nil_append] at hcode hrun
    cases htest : cc.holds (M.flags s) with
    | false => exact ⟨_, .ifSkip hcond htest⟩
    | true =>
      have hrun' := (Machine.Reaches.pass hj (by simp [htest])).run_of_run hrun
      obtain ⟨o', hx⟩ := ih hlive (before ++ [j]) _ (by simp [hcode]) hrun'
      exact ⟨o', .ifThen hcond htest hx⟩
  | @ifElse _ _ _ _ _ cc _ _ _ _ _ j ls lead ms other last t u hcond hj hc hlead hd' ihc ihd =>
    simp only [List.append_assoc, List.cons_append, List.nil_append] at hcode hrun
    cases htest : cc.holds (M.flags s) with
    | false =>
      have hother : code = (before ++ j :: (ls ++ lead)) ++
          .label other t :: (ms ++ .label last u :: after) := by simp [hcode]
      have hrun' := (Machine.Reaches.branch hd hj (by simp [htest]) hother).run_of_run hrun
      obtain ⟨o', hx⟩ := ihd hlive (before ++ j :: (ls ++ lead ++ [Line.label other t])) _
        (by simp [hcode]) hrun'
      exact ⟨o', .ifSecond hcond htest hx⟩
    | true =>
      have hrun' := (Machine.Reaches.pass hj (by simp [htest])).run_of_run hrun
      obtain ⟨o', hx⟩ := ihc hlive (before ++ [j]) _ (by simp [hcode]) hrun'
      exact ⟨o', .ifFirst hcond htest hx⟩
  | @whileDo _ _ _ _ cc _ _ _ j ls k top test t u hcond hj hc hk ih =>
    simp only [List.append_assoc, List.cons_append, List.nil_append] at hcode hrun
    have htop : code = (before ++ [j]) ++ .label top t :: (ls ++ .label test u :: k :: after) := by
      simp [hcode]
    have htest : code = (before ++ j :: .label top t :: ls) ++ .label test u :: k :: after := by
      simp [hcode]
    replace hrun := (Machine.Reaches.jump hd hj htest).run_of_run hrun
    -- a turn is shorter than the run from its test on
    induction n generalizing s with
    | zero => cases hrun
    | succ n ihn =>
      cases hcc : cc.holds (M.flags s) with
      | false => exact ⟨_, .whileStop hcond hcc⟩
      | true =>
        rw [Machine.run_succ (by
          rw [Machine.next_branch hk, if_pos hcc, Machine.target_label hd htop])] at hrun
        have hbody : code = (before ++ [j, .label top t]) ++
            (ls ++ .label test u :: k :: after) := by simp [hcode]
        obtain ⟨oc, hxc⟩ := ih hlive _ _ hbody hrun
        cases oc with
        | returned s' => exact ⟨_, .whileReturn hcond hcc hxc⟩
        | fell s' =>
          have hrun' := (hc.reaches hd hlive _ _ hbody hxc).run_of_run hrun
          obtain ⟨o', hx⟩ := ihn (Machine.Reaches.label.run_of_run hrun')
          exact ⟨o', .whileTurn hcond hcc hxc hx⟩
  | @repeatUntil _ _ _ _ cc _ _ _ ls k top t hcond hc hk ih =>
    simp only [List.append_assoc, List.cons_append, List.nil_append] at hcode hrun
    have htop : code = before ++ .label top t :: (ls ++ k :: after) := by simp [hcode]
    have hbody : code = (before ++ [Line.label top t]) ++ (ls ++ k :: after) := by simp [hcode]
    replace hrun := Machine.Reaches.label.run_of_run hrun
    -- the run from the test to the next turn takes a step
    induction n generalizing s with
    | zero =>
      obtain ⟨oc, hxc⟩ := ih hlive _ _ hbody hrun
      cases oc with
      | returned s' => exact ⟨_, .repeatReturn hxc⟩
      | fell s' => cases (hc.reaches hd hlive _ _ hbody hxc).run_of_run hrun
    | succ n ihn =>
      obtain ⟨oc, hxc⟩ := ih hlive _ _ hbody hrun
      cases oc with
      | returned s' => exact ⟨_, .repeatReturn hxc⟩
      | fell s' =>
        have hrun' := (hc.reaches hd hlive _ _ hbody hxc).run_of_run hrun
        cases hcc : cc.holds (M.flags s') with
        | true => exact ⟨_, .repeatStop hcond hxc hcc⟩
        | false =>
          have hneg : cc.negate.holds (M.flags s') = true := by simp [hcc]
          rw [Outcome.after, Machine.run_succ (by
            rw [Machine.next_branch hk, if_pos hneg, Machine.target_label hd htop])] at hrun'
          obtain ⟨o', hx⟩ := ihn hrun'
          exact ⟨o', .repeatTurn hcond hxc hcc hx⟩
  | @select _ _ _ _ _ _ _ ls _ _ hload harms ih =>
    rw [List.append_assoc] at hcode hrun
    obtain ⟨s', hxload⟩ := hload.exists_exec (M := M) s
    have hrun' := (hload.reaches hxload).run_of_run hrun
    obtain ⟨o', hx⟩ := ih hlive (before ++ ls) after (by simp [hcode]) hrun'
    exact ⟨o', .select hxload hx⟩
  | stop => exact ⟨_, .stop⟩
  | @otherwise _ _ _ _ _ ls t hc ih =>
    simp only [List.append_assoc, List.cons_append, List.nil_append] at hcode hrun
    obtain ⟨o', hx⟩ := ih hlive before _ hcode hrun
    exact ⟨o', .otherwise hx⟩
  | @case stop live _ _ es _ _ rest ts al ls lead ms next arm t hts hal hc hlead hrest ihc ihrest =>
    simp only [List.append_assoc, List.cons_append] at hcode hrun
    have hnext : code = (before ++ (ts ++ (al ++ (ls ++ lead)))) ++
        .label next t :: (ms ++ after) := by simp [hcode]
    have hrun' := (hts.reaches_arm (M := M) (s := s) hal hd hnext hcode).run_of_run hrun
    by_cases hmem : M.acc s ∈ caseBytes r es
    · rw [if_pos hmem] at hrun'
      have hlive' : (live && !(caseBytes r es).isEmpty) = true := by
        rw [hlive, Bool.true_and, Bool.not_eq_true', List.isEmpty_eq_false_iff]
        exact List.ne_nil_of_mem hmem
      obtain ⟨o', hx⟩ := ihc hlive' (before ++ (ts ++ al)) _ (by simp [hcode]) hrun'
      exact ⟨o', .case hmem hx⟩
    · rw [if_neg hmem] at hrun'
      obtain ⟨o', hx⟩ := ihrest hlive
        (before ++ (ts ++ (al ++ (ls ++ (lead ++ [Line.label next t]))))) after (by simp [hcode])
        hrun'
      exact ⟨o', .caseNext hmem hx⟩

/-! ## Both directions -/

/-- Lines and code end in the same ways. -/
theorem run_iff_exec (hd : Line.Distinct exit ls) (h : LaidOut r exit stop c true ls live')
    (s : σ) (o : Outcome σ) :
    (∃ n, M.run exit ls n (.running ls s) = some o) ↔ c.Exec M r s o := by
  have hcode : ls = [] ++ (ls ++ []) := by simp
  have hreach : ∀ {o}, c.Exec M r s o → M.Reaches exit ls (.running ls s) (o.after []) := by
    intro o hx
    simpa using h.reaches hd rfl [] [] hcode hx
  constructor
  · rintro ⟨n, hrun⟩
    obtain ⟨o', hx⟩ := h.exec_of_run hd rfl [] [] hcode (by simpa using hrun)
    -- a run has one end
    have hrun' := (hreach hx).run_of_run hrun
    have heq : o' = o := by
      cases o' with
      | returned s' => simpa [Outcome.after] using hrun'
      | fell s' =>
        cases n with
        | zero => cases hrun'
        | succ n => simpa [Outcome.after, Machine.run, Machine.next] using hrun'
    exact heq ▸ hx
  · intro hx
    obtain ⟨j, hj⟩ := hreach hx
    refine ⟨1 + j, ?_⟩
    rw [hj]
    cases o with
    | returned s' => rfl
    | fell s' => rfl

end Z80Backend.LaidOut
