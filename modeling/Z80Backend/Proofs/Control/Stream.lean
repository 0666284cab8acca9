import Z80Backend.Proofs.Assembly.Flow
import Z80Backend.Proofs.Control.Labels

/-! # Running emitted code

    The code of a function is a stream of instructions and labels.  A machine
    is given by what its instructions do to a state; which line comes next is
    decided here, from the instruction and the flags.

    Running starts at some line of a body and ends where control runs off the
    body or where the function returns.  Where returns have something to undo
    they branch to the label `exit`, so that a jump there counts as a return.
    A run does not end where it leaves for a place that the lines do not tell.

    * `Machine.run`: a run of bounded length.
    * `Machine.Reaches`: one point of a run is passed on the way from
      another; what is after it decides the rest of the run. -/

namespace Z80Backend

/-- The names in the code are defined once, and the exit is not one of them. -/
structure Line.Distinct (exit : Option String) (code : List Line) : Prop where
  nodup : (labelNames code).Nodup
  exit_not_mem : ∀ e, exit = some e → e ∉ labelNames code

/-! ## Machines -/

/-- The flags that conditions test. -/
structure Flags where
  zero : Bool
  carry : Bool
  parity : Bool
  sign : Bool
  deriving DecidableEq, Repr

/-- Does the condition hold? -/
def Condition.holds (f : Flags) : Condition → Bool
  | .nz => !f.zero
  | .z  => f.zero
  | .nc => !f.carry
  | .c  => f.carry
  | .po => !f.parity
  | .pe => f.parity
  | .p  => !f.sign
  | .m  => f.sign

@[simp] theorem Condition.holds_negate (f : Flags) (cc : Condition) :
    cc.negate.holds f = !cc.holds f := by
  cases cc <;> simp [negate, holds]

/-- What instructions do to states.  Nothing is asked of them but that a
    comparison with a number sets the zero flag exactly when the accumulator
    equals it, and keeps the accumulator. -/
structure Machine (σ : Type) where
  exec : MachineInstr → σ → σ
  flags : σ → Flags
  acc : σ → UInt8
  zero_cp : ∀ n s, (flags (exec (.aluImm .cp n) s)).zero = (acc s == n)
  acc_cp : ∀ n s, acc (exec (.aluImm .cp n) s) = acc s

/-- How a run of a body ends. -/
inductive Outcome (σ : Type) where
  /-- Control ran off the end. -/
  | fell (s : σ)
  /-- The function returned. -/
  | returned (s : σ)
  deriving DecidableEq, Repr

/-- A point of a run: the code ahead and the state, or the end. -/
inductive Point (σ : Type) where
  | running (rest : List Line) (s : σ)
  | done (o : Outcome σ)

/-- The point after code that ended in some way, when `rest` follows it. -/
def Outcome.after {σ : Type} (rest : List Line) : Outcome σ → Point σ
  | .fell s => .running rest s
  | .returned s => .done (.returned s)

namespace Machine

variable {σ : Type} (M : Machine σ) (exit : Option String) (code : List Line)

/-- The point that a jump leads to, if there is one. -/
def target (name : String) (s : σ) : Option (Point σ) :=
  if exit = some name then some (.done (.returned s))
  else (Line.seek name code).map (.running · s)

/-- The next point of a run. -/
def next : Point σ → Option (Point σ)
  | .done o => some (.done o)
  | .running [] s => some (.done (.fell s))
  | .running (l :: rest) s =>
    match l.flow with
    | .step i => some (.running rest (M.exec i s))
    | .pass => some (.running rest s)
    | .jump (some name) => target exit code name s
    | .branch (some cc) dest =>
      if cc.holds (M.flags s) then dest.bind (target exit code · s) else some (.running rest s)
    | .ret => some (.done (.returned s))
    | .retIf cc =>
      some (if cc.holds (M.flags s) then .done (.returned s) else .running rest s)
    | .jump none | .branch none _ | .away => none

/-- How a run of at most `n` steps ends, if it does. -/
def run : Nat → Point σ → Option (Outcome σ)
  | _, .done o => some o
  | 0, .running _ _ => none
  | n + 1, .running rest s =>
    match M.next exit code (.running rest s) with
    | some p => run n p
    | none => none

variable {M exit code}

@[simp] theorem run_done (n : Nat) (o : Outcome σ) : M.run exit code n (.done o) = some o := by
  cases n <;> rfl

@[simp] theorem run_zero (rest : List Line) (s : σ) :
    M.run exit code 0 (.running rest s) = none := rfl

theorem run_succ {rest : List Line} {s : σ} {p : Point σ}
    (h : M.next exit code (.running rest s) = some p) (n : Nat) :
    M.run exit code (n + 1) (.running rest s) = M.run exit code n p := by
  rw [run, h]

/-- A run that ends also ends when it may take longer. -/
theorem run_mono {n m : Nat} {p : Point σ} {o : Outcome σ} (h : M.run exit code n p = some o)
    (hnm : n ≤ m) : M.run exit code m p = some o := by
  induction n generalizing m p with
  | zero =>
    cases p with
    | done o' => rw [run_done] at h ⊢; exact h
    | running rest s => simp at h
  | succ n ih =>
    cases p with
    | done o' => rw [run_done] at h ⊢; exact h
    | running rest s =>
      obtain ⟨m, rfl⟩ : ∃ m', m = m' + 1 := ⟨m - 1, by omega⟩
      rw [run] at h ⊢
      cases hnext : M.next exit code (.running rest s) with
      | none => rw [hnext] at h; simp at h
      | some q =>
        rw [hnext] at h
        exact ih h (by omega)

/-! ## Steps by flow -/

section

variable {l : Line} {before rest after : List Line} {s : σ} {name : String} {span : Span}
  {cc : Condition}

theorem next_step {i : MachineInstr} (h : l.flow = .step i) :
    M.next exit code (.running (l :: rest) s) = some (.running rest (M.exec i s)) := by
  simp only [next, h]

theorem next_jump (h : l.flow = .jump name) :
    M.next exit code (.running (l :: rest) s) = target exit code name s := by
  simp only [next, h]

theorem next_branch (h : l.flow = .branch cc name) :
    M.next exit code (.running (l :: rest) s) =
      if cc.holds (M.flags s) then target exit code name s else some (.running rest s) := by
  simp only [next, h, Option.bind_some]

/-- A jump to the exit returns. -/
theorem target_exit (h : exit = some name) :
    target exit code name s = some (.done (.returned s)) := by
  rw [target, if_pos h]

/-- A jump to a label of the code leads to the line after it. -/
theorem target_label (hd : Line.Distinct exit code)
    (hcode : code = before ++ .label name span :: after) :
    target exit code name s = some (.running after s) := by
  have hmem : name ∈ Line.labelNames code := by simp [hcode]
  have hne : exit ≠ some name := fun he => hd.exit_not_mem name he hmem
  have hnodup := hd.nodup
  rw [target, if_neg hne]
  subst hcode
  rw [Line.seek_of_nodup hnodup]
  rfl

end

/-! ## Reaching points -/

variable (M exit code) in
/-- Every run from `p` goes through `q`. -/
def Reaches (p q : Point σ) : Prop := ∃ j, ∀ n, M.run exit code (n + j) p = M.run exit code n q

namespace Reaches

variable {p q t : Point σ}

theorem refl (p : Point σ) : M.Reaches exit code p p := ⟨0, fun _ => rfl⟩

theorem trans (h : M.Reaches exit code p q) (h' : M.Reaches exit code q t) :
    M.Reaches exit code p t := by
  obtain ⟨j, hj⟩ := h
  obtain ⟨k, hk⟩ := h'
  refine ⟨k + j, fun n => ?_⟩
  rw [← Nat.add_assoc, hj, hk]

theorem of_next {rest : List Line} {s : σ} (h : M.next exit code (.running rest s) = some q) :
    M.Reaches exit code (.running rest s) q :=
  ⟨1, run_succ h⟩

/-- What a run from the earlier point ends in, one from the later point ends
    in as well, and no later. -/
theorem run_of_run {n : Nat} {o : Outcome σ} (h : M.Reaches exit code p q)
    (hrun : M.run exit code n p = some o) : M.run exit code n q = some o := by
  obtain ⟨j, hj⟩ := h
  rw [← hj]
  exact run_mono hrun (Nat.le_add_right n j)

variable {l : Line} {before rest after : List Line} {s : σ} {name : String} {span : Span}
  {cc : Condition}

theorem step {i : MachineInstr} (h : l.flow = .step i) :
    M.Reaches exit code (.running (l :: rest) s) (.running rest (M.exec i s)) :=
  of_next (next_step h)

theorem label : M.Reaches exit code (.running (.label name span :: rest) s) (.running rest s) :=
  of_next rfl

theorem jump (hd : Line.Distinct exit code) (h : l.flow = .jump name)
    (hcode : code = before ++ .label name span :: after) :
    M.Reaches exit code (.running (l :: rest) s) (.running after s) :=
  of_next (by rw [next_jump h, target_label hd hcode])

theorem branch (hd : Line.Distinct exit code) (h : l.flow = .branch cc name)
    (htest : cc.holds (M.flags s) = true)
    (hcode : code = before ++ .label name span :: after) :
    M.Reaches exit code (.running (l :: rest) s) (.running after s) :=
  of_next (by rw [next_branch h, if_pos htest, target_label hd hcode])

theorem pass (h : l.flow = .branch cc name) (htest : cc.holds (M.flags s) = false) :
    M.Reaches exit code (.running (l :: rest) s) (.running rest s) :=
  of_next (by rw [next_branch h, htest]; rfl)

end Reaches

end Machine

end Z80Backend
