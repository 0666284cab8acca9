import Z80Backend.Proofs.Function.Growth

/-! # Lowering does not look back

    Lowering writes to the journal and never reads it.  So a run commutes with
    putting earlier events before those of the state (`FnState.behind`): what it
    appends, and all else that it does, is the same after any history.

    The mark that op calls nest too deeply is never taken back. -/

namespace Z80Backend

namespace FnState

/-- The state with earlier events before its own, marked as out of nesting if
    `spent`. -/
def behind (j : Journal) (spent : Bool) (s : FnState) : FnState :=
  { s with journal := j ++ s.journal, exhausted := spent || s.exhausted }

section

variable (j : Journal) (x : Bool) (s : FnState)

@[simp] theorem behind_tracker : (s.behind j x).tracker = s.tracker := rfl

@[simp] theorem behind_journal : (s.behind j x).journal = j ++ s.journal := rfl

end

end FnState

/-- A state and the same state after more events stay so. -/
theorem follows_behind (j : Journal) : Comparison.Follows fun s s' => s' = s.behind j false where
  tracker h := by rw [h]; rfl
  counter h := by rw [h]; rfl
  userLabels h := by rw [h]; rfl
  exhausted h := by rw [h]; rfl
  labels h _ := by rw [h]; rfl
  note h e := by rw [h]; simp [FnState.note, FnState.behind]
  line h _ _ := by rw [h]; rfl
  issue h _ := by rw [h]; rfl
  count h := by rw [h]; rfl
  track h _ := by rw [h]; rfl
  define h _ := by rw [h]; rfl
  renumber h _ _ := by rw [h]; rfl
  exhaust h := by rw [h]; rfl

/-- A marked state stays marked. -/
theorem follows_exhausted : Comparison.Follows fun s s' => s' = s ∧ s.exhausted = true :=
  Comparison.follows_of_invariant (fun _ h => h) (fun _ h => h) (fun _ _ _ _ h => h)
    (fun _ h => h) (fun _ => rfl)

/-! ## Earlier events -/

section

variable {j : Journal} (s : FnState)

theorem FnState.note_behind (e : Event) :
    (s.behind j false).note e = (s.note e).behind j false :=
  (follows_behind j).note rfl e

end

namespace Body

/-- The body with earlier events before those of its function. -/
def behind (j : Journal) (x : Bool) (b : Body) : Body := { b with fn := b.fn.behind j x }

variable {j : Journal} (b : Body)

@[simp] theorem behind_fn {x : Bool} : (b.behind j x).fn = b.fn.behind j x := rfl

theorem mk_behind {x : Bool} (s : FnState) (bs : List Block) :
    ({ fn := s.behind j x, blocks := bs } : Body) = ({ fn := s, blocks := bs } : Body).behind j x :=
  rfl

/-- The same body after more events. -/
theorem body_behind :
    (Comparison.ofRelation fun s s' => s' = s.behind j false).body b (b.behind j false) :=
  ⟨rfl, by simp [Comparison.ofRelation, Block.relabel_id, behind]⟩

variable {b} in
theorem eq_behind {b' : Body}
    (h : (Comparison.ofRelation fun s s' => s' = s.behind j false).body b b') :
    b' = b.behind j false := by
  obtain ⟨s', blocks'⟩ := b'
  obtain ⟨hfn, hblocks⟩ := h
  simp only [Comparison.ofRelation, Block.relabel_id, List.map_id] at hfn hblocks
  rw [hfn, hblocks]
  rfl

theorem close_behind : (b.behind j false).close = b.close.behind j false :=
  ((follows_behind j).isKept .empty).close b.body_behind

variable {b} in
theorem exhausted_close (hb : b.fn.exhausted = true) : b.close.exhausted = true :=
  ((follows_exhausted.isKept .empty).close (b := b) ⟨⟨rfl, hb⟩, b.self.blocks⟩).2

end Body

namespace FnContext

variable (ctx : FnContext) {j : Journal}

/-- Op calls do not read the journal, however deeply they nest. -/
theorem lowerOp_behind (depth : Nat) (call : Instruction) (s : FnState) :
    ctx.lowerOp depth call (s.behind j false) = (ctx.lowerOp depth call s).behind j false :=
  ((follows_behind j).keeps ctx).lowerOp depth call trivial rfl

theorem lowerAll_behind {lowerOp : Instruction → FnState → FnState}
    (hop : ∀ i (s : FnState), lowerOp i (s.behind j false) = (lowerOp i s).behind j false)
    (sts : List Stmt) (b : Body) :
    ctx.lowerAll lowerOp sts (b.behind j false) = (ctx.lowerAll lowerOp sts b).behind j false := by
  have hcalls : (Comparison.ofRelation fun s s' => s' = s.behind j false).KeepsCalls
      (fun _ => True) lowerOp lowerOp := by
    rintro s _ i - rfl
    exact hop i s
  have hrun := ((follows_behind j).keeps ctx).lowerAll hcalls b.body_behind sts fun _ _ => trivial
  rw [Comparison.stmt_ofRelation, List.map_id] at hrun
  exact Body.eq_behind hrun

/-! ## The mark stays -/

/-- An op call that starts marked does nothing or marks the state itself. -/
theorem exhausted_lowerOp (depth : Nat) (call : Instruction) (s : FnState)
    (hs : s.exhausted = true) : (ctx.lowerOp depth call s).exhausted = true :=
  ((follows_exhausted.keeps ctx).lowerOp depth call trivial ⟨rfl, hs⟩).2

section

variable {lowerOp : Instruction → FnState → FnState}
  (hop : ∀ i (s : FnState), s.exhausted = true → (lowerOp i s).exhausted = true)

include hop

theorem keepsCalls_of_exhausted :
    (Comparison.ofRelation fun s s' => s' = s ∧ s.exhausted = true).KeepsCalls (fun _ => True)
      lowerOp lowerOp :=
  fun i _ h => ⟨congrArg (lowerOp i) h.1, hop i _ h.2⟩

theorem exhausted_lowerAll (sts : List Stmt) {b : Body} (hb : b.fn.exhausted = true) :
    (ctx.lowerAll lowerOp sts b).fn.exhausted = true :=
  ((follows_exhausted.keeps ctx).lowerAll (keepsCalls_of_exhausted hop)
    ⟨⟨rfl, hb⟩, b.self.blocks⟩ sts fun _ _ => trivial).fn.2

theorem exhausted_lowerNodes (ns : List Node) (b : Body) (hb : b.fn.exhausted = true) :
    (ctx.lowerNodes lowerOp ns b).fn.exhausted = true :=
  ((follows_exhausted.keeps ctx).lowerNodes (keepsCalls_of_exhausted hop) ns (fun _ _ => trivial)
    ⟨⟨rfl, hb⟩, b.self.blocks⟩).fn.2

end

end FnContext

end Z80Backend
