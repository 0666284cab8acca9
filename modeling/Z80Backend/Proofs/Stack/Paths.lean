import Mathlib.Algebra.Group.Int.Defs
import Mathlib.Algebra.Group.Nat.Defs
import Z80Backend.Proofs.Stack.Effect

/-! # Paths and the stack

    A path through lines goes either way at a branch and any number of times
    round a loop.  `StackFlow` gives lines a depth at each point that control
    comes to, from an assignment of depths to labels: what falls into a label
    or jumps to it comes with the depth of the label, and what returns comes
    with depth 0.  Along a path the depths add up: it comes to the places where
    the function returns with depth 0 (`StackFlow.balanced`), and it falls into
    each other place with the depth there (`StackFlow.tells_of_fallsIn`).

    A depth is a 64-bit number and says what a path does to `sp` up to
    multiples of 2⁶⁴.  The depth at a position is also bounded by twice the
    position, so that it says it exactly unless the code is longer than any
    that exists. -/

namespace Z80Backend

/-! ## Paths -/

/-- What going on to the next line adds to `sp`, and whether it loads `sp`. -/
def Flow.onward? : Flow → Option (Int × Bool)
  | step code => some (code.spDelta.getD 0, code.spDelta.isNone)
  | pass | branch _ _ | retIf _ => some (0, false)
  | jump _ | ret | away => none

/-- A path from the first line to the one at a position goes on to the next line
    or to a label.  The number is the sum of what its instructions add to `sp`,
    and `loaded` tells whether one of them loads `sp`. -/
inductive Line.Path (ls : List Line) : Nat → Int → Bool → Prop where
  | start : Path ls 0 0 false
  | onward {p n loaded l δ loads} (h : Path ls p n loaded) (hl : ls[p]? = some l)
      (honward : l.flow.onward? = some (δ, loads)) : Path ls (p + 1) (n + δ) (loaded || loads)
  | goes {p q n loaded l name span} (h : Path ls p n loaded) (hl : ls[p]? = some l)
      (hto : l.flow.to? = some (some name)) (hq : ls[q]? = some (.label name span)) :
      Path ls q n loaded

/-- A path that falls into a line: it starts there, or it comes from the line
    before. -/
inductive Line.FallsIn (ls : List Line) : Nat → Int → Bool → Prop where
  | start : FallsIn ls 0 0 false
  | next {p n loaded l δ loads} (h : Path ls p n loaded) (hl : ls[p]? = some l)
      (honward : l.flow.onward? = some (δ, loads)) : FallsIn ls (p + 1) (n + δ) (loaded || loads)

theorem Line.FallsIn.path {ls : List Line} {p : Nat} {n : Int} {loaded : Bool}
    (h : FallsIn ls p n loaded) : Path ls p n loaded := by
  cases h with
  | start => exact .start
  | next h hl honward => exact h.onward hl honward

theorem Line.FallsIn.onward {ls : List Line} {p : Nat} {n δ : Int} {loaded loads : Bool}
    (h : FallsIn ls p n loaded) (honward : ls[p]?.bind (·.flow.onward?) = some (δ, loads)) :
    FallsIn ls (p + 1) (n + δ) (loaded || loads) := by
  obtain ⟨l, hl, honward⟩ := Option.bind_eq_some_iff.mp honward
  exact .next h.path hl honward

/-- The instruction returns from an interrupt. -/
def MachineInstr.IsInterruptReturn (code : MachineInstr) : Prop :=
  code = .plain .reti ∨ code = .plain .retn

theorem MachineInstr.IsInterruptReturn.flow {code : MachineInstr} (h : code.IsInterruptReturn)
    (i : Instruction) : (Line.instr i code).flow = .away := by
  rcases h with rfl | rfl <;> rfl

/-- The places where a function returns: returns, branches to the exit, and the
    start of the `k` lines that undo the beginning of the function in front of
    a return from an interrupt. -/
inductive Line.Returns (exit : Option String) (k : Nat) (ls : List Line) (p : Nat) : Prop where
  | ret {l} (hl : ls[p]? = some l) (hflow : l.flow = .ret)
  | retIf {l cc} (hl : ls[p]? = some l) (hflow : l.flow = .retIf cc)
  | jump {l name} (hl : ls[p]? = some l) (hto : l.flow.to? = some (some name))
      (hexit : exit = some name)
  | interrupt {i code} (hl : ls[p + k]? = some (.instr i code)) (hcode : code.IsInterruptReturn)

/-! ## Bounds -/

/-- A known depth is at most `k` bytes away from the start. -/
def Depth.Within (k : Nat) : Depth → Prop
  | .known n => n.toInt.natAbs ≤ k
  | _ => True

theorem Depth.Within.mono {k k' : Nat} {d : Depth} (h : d.Within k) (hk : k ≤ k') :
    d.Within k' := by
  cases d with
  | known n => exact Nat.le_trans h hk
  | unknown => exact h
  | untracked => exact h

theorem natAbs_bmod_le (x : Int) : (x.bmod (2 ^ 64)).natAbs ≤ x.natAbs := by
  rw [Int.bmod_def]
  split <;> omega

theorem MachineInstr.natAbs_spDelta_le {code : MachineInstr} {n : Int}
    (h : code.spDelta = some n) : n.natAbs ≤ 2 := by
  unfold spDelta at h
  split at h <;> cases h <;> decide

/-- An instruction moves the depth by at most two bytes. -/
theorem Depth.Within.move {k : Nat} {d : Depth} (h : d.Within k) (code : MachineInstr) :
    (d.move code.spDelta).Within (k + 2) := by
  cases hδ : code.spDelta with
  | none => trivial
  | some n =>
    have hn := MachineInstr.natAbs_spDelta_le hδ
    cases d with
    | unknown => trivial
    | untracked => trivial
    | known v =>
      have hv : v.toInt.natAbs ≤ k := h
      show (v + Int64.ofInt n).toInt.natAbs ≤ k + 2
      rw [Int64.toInt_add, Int64.toInt_ofInt]
      have h₁ := natAbs_bmod_le (v.toInt + n.bmod Int64.size)
      have h₂ := natAbs_bmod_le n
      have h₃ : (n.bmod Int64.size).natAbs = (n.bmod (2 ^ 64)).natAbs := rfl
      omega

/-- What a depth says of a path: `sp` was loaded, or the sum is the depth up to
    multiples of 2⁶⁴, and exactly in code that is `small`. -/
inductive Depth.Tells (small : Prop) : Depth → Int → Bool → Prop where
  | loaded {n} : Tells small .untracked n true
  | moved {v n} (hmod : v = Int64.ofInt n) (hexact : small → v.toInt = n) :
      Tells small (.known v) n false

theorem Depth.Tells.move {small : Prop} {k : Nat} {d : Depth} {n : Int} {loaded : Bool}
    (h : d.Tells small n loaded) (hk : d.Within k) (hsmall : small → k + 2 < 2 ^ 63)
    (code : MachineInstr) :
    (d.move code.spDelta).Tells small (n + code.spDelta.getD 0)
      (loaded || code.spDelta.isNone) := by
  cases hδ : code.spDelta with
  | none =>
    rw [Option.isNone_none, Bool.or_true]
    exact .loaded
  | some δ =>
    rw [Option.isNone_some, Bool.or_false, Option.getD_some]
    cases h with
    | loaded => exact .loaded
    | @moved v _ hmod hexact =>
      refine .moved (by rw [hmod, Int64.ofInt_add]) fun hs => ?_
      have hv : v.toInt.natAbs ≤ k := hk
      have hn := hexact hs
      have hbound := hsmall hs
      have habs := MachineInstr.natAbs_spDelta_le hδ
      rw [Int64.toInt_add, Int64.toInt_ofInt]
      have hδ' : δ.bmod Int64.size = δ := Int.bmod_eq_of_le (by simp; omega) (by simp; omega)
      rw [hδ', hn]
      exact Int.bmod_eq_of_le (by omega) (by omega)

/-- A path to depth 0 does not load `sp` and leaves it as it was. -/
theorem Depth.Tells.balanced {small : Prop} {n : Int} {loaded : Bool}
    (h : Depth.Tells small (.known 0) n loaded) :
    loaded = false ∧ (2 ^ 64 : Int) ∣ n ∧ (small → n = 0) := by
  cases h with
  | moved hmod hexact =>
    refine ⟨rfl, ?_, fun hs => (hexact hs).symm⟩
    have hzero : n.bmod (2 ^ 64) = 0 := (Int64.ofInt_eq_iff_bmod_eq_toInt n 0).mp hmod.symm
    rw [Int.bmod_def] at hzero
    split at hzero <;> omega

/-! ## Depths of lines -/

/-- A line at position `p` takes the stack from one depth to another, where
    nothing stands for a point that control does not come to.  `Λ` gives the
    depth of each label. -/
inductive Line.Passes (Λ : String → Option Depth) (p : Nat) :
    Option Depth → Line → Option Depth → Prop where
  | label {m name span} (hin : ∀ d, m = some d → Λ name = some d)
      (hwithin : ∀ d, Λ name = some d → d.Within (2 * p)) :
      Passes Λ p m (.label name span) (Λ name)
  | step {m l code} (hflow : l.flow = .step code) : Passes Λ p m l (m.map (·.move code.spDelta))
  | jump {m l dest} (hflow : l.flow = .jump dest)
      (hin : ∀ name ∈ dest, ∀ d, m = some d → Λ name = some d) : Passes Λ p m l none
  | branch {m l cc dest} (hflow : l.flow = .branch cc dest)
      (hin : ∀ name ∈ dest, ∀ d, m = some d → Λ name = some d) : Passes Λ p m l m
  | ret {m l} (hflow : l.flow = .ret) (hin : ∀ d, m = some d → d = .known 0) : Passes Λ p m l none
  | retIf {m l cc} (hflow : l.flow = .retIf cc) (hin : ∀ d, m = some d → d = .known 0) :
      Passes Λ p m l m

namespace Line.Passes

variable {Λ : String → Option Depth} {p : Nat} {m m₁ : Option Depth} {l : Line} {cc : Condition}
  {name : String}

/-- The rule that applies to a line is the one of its flow. -/
theorem inv (h : Passes Λ p m l m₁) :
    match l.flow with
    | .pass => ∃ name, (∀ d, m = some d → Λ name = some d) ∧
        (∀ d, Λ name = some d → d.Within (2 * p)) ∧ m₁ = Λ name
    | .step code => m₁ = m.map (·.move code.spDelta)
    | .jump dest => (∀ name ∈ dest, ∀ d, m = some d → Λ name = some d) ∧ m₁ = none
    | .branch _ dest => (∀ name ∈ dest, ∀ d, m = some d → Λ name = some d) ∧ m₁ = m
    | .ret => (∀ d, m = some d → d = .known 0) ∧ m₁ = none
    | .retIf _ => (∀ d, m = some d → d = .known 0) ∧ m₁ = m
    | .away => False := by
  cases h with
  | label hin hwithin => exact ⟨_, hin, hwithin, rfl⟩
  | step hflow => rw [hflow]
  | jump hflow hin | branch hflow hin | ret hflow hin | retIf hflow hin =>
    rw [hflow]
    exact ⟨hin, rfl⟩

/-- A line does not care for a depth that control does not come with. -/
theorem mono (h : Passes Λ p m l m₁) {m' : Option Depth} (hm : ∀ d, m' = some d → m = some d) :
    ∃ m₁', Passes Λ p m' l m₁' ∧ ∀ d, m₁' = some d → m₁ = some d := by
  cases h with
  | label hin hwithin => exact ⟨_, .label (fun d hd => hin d (hm d hd)) hwithin, fun _ hd => hd⟩
  | step hflow =>
    refine ⟨_, .step hflow, fun d hd => ?_⟩
    obtain ⟨d', hd', rfl⟩ := Option.map_eq_some_iff.mp hd
    rw [hm d' hd']
    rfl
  | jump hflow hin =>
    exact ⟨_, .jump hflow fun name hname d hd => hin name hname d (hm d hd), fun _ hd => hd⟩
  | branch hflow hin =>
    exact ⟨_, .branch hflow fun name hname d hd => hin name hname d (hm d hd), hm⟩
  | ret hflow hin => exact ⟨_, .ret hflow fun d hd => hin d (hm d hd), fun _ hd => hd⟩
  | retIf hflow hin => exact ⟨_, .retIf hflow fun d hd => hin d (hm d hd), hm⟩

end Line.Passes

/-- `StackFlow Λ undo p m ls m'`: from position `p` on, the lines take the stack
    from `m` to `m'`.  The lines `undo`, which undo the beginning of the
    function, may stand in front of a return from an interrupt. -/
inductive StackFlow (Λ : String → Option Depth) (undo : List Line) :
    Nat → Option Depth → List Line → Option Depth → Prop where
  /-- A point that control does not come to may be given any depth. -/
  | nil {p m m'} (h : ∀ d, m = some d → m' = some d) : StackFlow Λ undo p m [] m'
  | cons {p m l m₁ ls m'} (hl : Line.Passes Λ p m l m₁) (h : StackFlow Λ undo (p + 1) m₁ ls m') :
      StackFlow Λ undo p m (l :: ls) m'
  | leave {p m i code ls m'} (hcode : code.IsInterruptReturn)
      (hin : ∀ d, m = some d → d = .known 0)
      (h : StackFlow Λ undo (p + (undo.length + 1)) none ls m') :
      StackFlow Λ undo p m (undo ++ .instr i code :: ls) m'

namespace StackFlow

variable {Λ : String → Option Depth} {undo : List Line} {p q : Nat} {m m' m'' : Option Depth}
  {l : Line} {ls ms : List Line}

theorem cast (h : StackFlow Λ undo p m ls m') (hp : p = q) : StackFlow Λ undo q m ls m' :=
  hp ▸ h

/-- Lines do not care for a depth that control does not come with. -/
theorem mono (h : StackFlow Λ undo p m ls m') (hm : ∀ d, m'' = some d → m = some d) :
    StackFlow Λ undo p m'' ls m' := by
  induction h generalizing m'' with
  | nil h => exact .nil fun d hd => h d (hm d hd)
  | cons hl _ ih =>
    obtain ⟨m₁, hl', hm₁⟩ := hl.mono hm
    exact .cons hl' (ih hm₁)
  | leave hcode hin h _ => exact .leave hcode (fun d hd => hin d (hm d hd)) h

theorem append (h : StackFlow Λ undo p m ls m')
    (h' : StackFlow Λ undo (p + ls.length) m' ms m'') : StackFlow Λ undo p m (ls ++ ms) m'' := by
  induction h with
  | nil h => exact h'.mono h
  | cons hl _ ih => exact .cons hl (ih (h'.cast (by rw [List.length_cons]; omega)))
  | leave hcode hin _ ih =>
    rw [List.append_assoc, List.cons_append]
    refine .leave hcode hin (ih (h'.cast ?_))
    rw [List.length_append, List.length_cons]
    omega

theorem of_nil (h : StackFlow Λ undo p m [] m') : ∀ d, m = some d → m' = some d := by
  generalize hnil : ([] : List Line) = ls at h
  cases h with
  | nil h => exact h
  | cons _ _ => cases hnil
  | leave _ _ _ => simp at hnil

/-- The first line passes control on, or starts the code that undoes the
    beginning. -/
theorem uncons (h : StackFlow Λ undo p m (l :: ls) m') :
    (∃ m₁, Line.Passes Λ p m l m₁ ∧ StackFlow Λ undo (p + 1) m₁ ls m') ∨
    ∃ i code rest, undo ++ .instr i code :: rest = l :: ls ∧ code.IsInterruptReturn ∧
      (∀ d, m = some d → d = .known 0) ∧
      StackFlow Λ undo (p + (undo.length + 1)) none rest m' := by
  generalize hall : l :: ls = all at h
  cases h with
  | nil _ => cases hall
  | cons hl h =>
    cases hall
    exact .inl ⟨_, hl, h⟩
  | leave hcode hin h => exact .inr ⟨_, _, _, rfl, hcode, hin, h⟩

section

variable (hundo : ∀ l ∈ undo, ∃ code, l.flow = .step code)

include hundo

/-- A label does not stand in the code that undoes the beginning. -/
theorem label_behind {i : Instruction} {code : MachineInstr} {rest before after : List Line}
    {name : String} {span : Span}
    (h : undo ++ .instr i code :: rest = before ++ .label name span :: after) :
    ∃ mid, before = undo ++ .instr i code :: mid ∧ rest = mid ++ .label name span :: after := by
  -- which of the two beginnings is the longer one?
  rcases List.append_eq_append_iff.mp h with ⟨x, hbefore, hx⟩ | ⟨x, hbefore, hx⟩
  · cases x with
    | nil => cases hx
    | cons y mid =>
      cases hx
      exact ⟨mid, hbefore, rfl⟩
  · cases x with
    | nil => cases hx
    | cons y mid =>
      cases hx
      obtain ⟨code, hflow⟩ := hundo _ (hbefore ▸ List.mem_append_right _ List.mem_cons_self)
      cases hflow

/-- The depths from a label on start with the depth of the label. -/
theorem at_label {before after : List Line} {name : String} {span : Span}
    (h : StackFlow Λ undo p m (before ++ .label name span :: after) m') :
    StackFlow Λ undo (p + before.length) (Λ name) (.label name span :: after) m' ∧
      ∀ d, Λ name = some d → d.Within (2 * (p + before.length)) := by
  -- code that undoes the beginning is passed as a whole
  induction hn : before.length using Nat.strongRecOn generalizing p m before with
  | _ n ih =>
    subst hn
    cases before with
    | nil =>
      rcases h.uncons with ⟨m₁, hl, hrest⟩ | ⟨i, code, rest, heq, _⟩
      · cases hl with
        | label _ hwithin => exact ⟨.cons (.label (fun _ hd => hd) hwithin) hrest, hwithin⟩
        | step hflow | jump hflow _ | branch hflow _ | ret hflow _ | retIf hflow _ => cases hflow
      · obtain ⟨mid, hnil, _⟩ := label_behind hundo (heq.trans (List.nil_append _).symm)
        exact absurd hnil (by simp)
    | cons l before =>
      rcases h.uncons with ⟨m₁, _, hrest⟩ | ⟨i, code, rest, heq, _, _, hrest⟩
      · obtain ⟨hflow, hwithin⟩ := ih before.length (by simp) hrest rfl
        have hp : p + 1 + before.length = p + (l :: before).length := by
          rw [List.length_cons]
          omega
        exact ⟨hflow.cast hp, hp ▸ hwithin⟩
      · obtain ⟨mid, hmid, rfl⟩ := label_behind hundo (heq.trans (List.cons_append).symm)
        have hlen : (l :: before).length = undo.length + 1 + mid.length := by
          rw [hmid, List.length_append, List.length_cons]
          omega
        obtain ⟨hflow, hwithin⟩ := ih mid.length (by omega) hrest rfl
        rw [hlen, ← Nat.add_assoc]
        exact ⟨hflow, hwithin⟩

/-- A return from an interrupt stands behind the code that undoes the
    beginning. -/
theorem length_le_of_interrupt {i : Instruction} {code : MachineInstr}
    (h : StackFlow Λ undo p m ls m') (hq : ls[q]? = some (.instr i code))
    (hcode : code.IsInterruptReturn) : undo.length ≤ q := by
  induction ls generalizing p m q with
  | nil => cases hq
  | cons l ls ih =>
    rcases h.uncons with ⟨m₁, hl, hrest⟩ | ⟨i', code', rest, heq, _, _, _⟩
    · cases q with
      | zero =>
        cases hq
        have hinv := hl.inv
        rw [hcode.flow] at hinv
        exact hinv.elim
      | succ q => exact Nat.le_succ_of_le (ih hrest hq)
    · -- the lines of the code that undoes the beginning pass control on
      by_cases hlt : q < undo.length
      · rw [← heq, List.getElem?_append_left hlt] at hq
        obtain ⟨code'', hstep⟩ := hundo _ (List.mem_of_getElem? hq)
        rw [hcode.flow] at hstep
        cases hstep
      · omega

end

/-! ## Along a path -/

/-- What is known at the end of a path: the depth there says what the path did,
    or the path is in code that undoes the beginning. -/
inductive Covers (Λ : String → Option Depth) (undo : List Line) (small : Prop) (base : Nat)
    (ls : List Line) (m' : Option Depth) (p : Nat) (n : Int) (loaded : Bool) : Prop where
  | flowing {d} (hflow : StackFlow Λ undo (base + p) (some d) (ls.drop p) m')
      (htells : d.Tells small n loaded) (hwithin : d.Within (2 * (base + p)))
  | undoing {us i code rest q} (hdrop : ls.drop p = us ++ .instr i code :: rest)
      (hus : ∀ l ∈ us, l ∈ undo) (hlen : us.length < undo.length) (hcode : code.IsInterruptReturn)
      (hrest : StackFlow Λ undo q none rest m')

namespace Covers

variable {small : Prop} {base : Nat} {n : Int} {loaded : Bool}
  (hundo : ∀ l ∈ undo, ∃ code, l.flow = .step code)

include hundo

/-- How a path can go on: the depths tell, or it stays in the code that undoes
    the beginning. -/
theorem next (h : Covers Λ undo small base ls m' p n loaded) (hl : ls[p]? = some l) :
    (∃ d m₁, Line.Passes Λ (base + p) (some d) l m₁ ∧
      StackFlow Λ undo (base + (p + 1)) m₁ (ls.drop (p + 1)) m' ∧ d.Tells small n loaded ∧
      d.Within (2 * (base + p))) ∨
    (∃ code, l.flow = .step code) ∧
      (∀ n' loaded', Covers Λ undo small base ls m' (p + 1) n' loaded') ∨
    l.flow = .away := by
  obtain ⟨hp, rfl⟩ := List.getElem?_eq_some_iff.mp hl
  have hdrop := List.drop_eq_getElem_cons hp
  -- the code that undoes the beginning goes on, or ends with the return
  have undone : ∀ {us : List Line} {i code rest q},
      ls.drop p = us ++ .instr i code :: rest → (∀ l ∈ us, l ∈ undo) → us.length ≤ undo.length →
      code.IsInterruptReturn → StackFlow Λ undo q none rest m' →
      (∃ code, ls[p].flow = .step code) ∧
        (∀ n' loaded', Covers Λ undo small base ls m' (p + 1) n' loaded') ∨
      ls[p].flow = .away := by
    intro us i code rest q hus hmem hlen hcode hrest
    rw [hdrop] at hus
    cases us with
    | nil =>
      rw [(List.cons.inj hus).1]
      exact .inr (hcode.flow i)
    | cons u us =>
      obtain ⟨hu, hus⟩ := List.cons.inj hus
      rw [hu]
      refine .inl ⟨hundo u (hmem u List.mem_cons_self), fun n' loaded' => ?_⟩
      exact .undoing hus (fun l hl => hmem l (List.mem_cons_of_mem u hl)) hlen hcode hrest
  cases h with
  | @flowing d hflow htells hwithin =>
    rw [hdrop] at hflow
    rcases hflow.uncons with ⟨m₁, hpass, hrest⟩ | ⟨i, code, rest, heq, hcode, _, hrest⟩
    · exact .inl ⟨d, m₁, hpass, hrest, htells, hwithin⟩
    · exact .inr (undone (hdrop.trans heq.symm) (fun _ hl => hl) (Nat.le_refl _) hcode hrest)
  | undoing hus hmem hlen hcode hrest =>
    exact .inr (undone hus hmem (Nat.le_of_lt hlen) hcode hrest)

/-- Only instructions that pass control on stand in the code that undoes the
    beginning. -/
theorem next_of_flow (h : Covers Λ undo small base ls m' p n loaded) (hl : ls[p]? = some l)
    (hflow : l.flow ≠ .away ∧ ∀ code, l.flow ≠ .step code) :
    ∃ d m₁, Line.Passes Λ (base + p) (some d) l m₁ ∧
      StackFlow Λ undo (base + (p + 1)) m₁ (ls.drop (p + 1)) m' ∧ d.Tells small n loaded ∧
      d.Within (2 * (base + p)) := by
  rcases h.next hundo hl with h | ⟨⟨code, hstep⟩, _⟩ | haway
  · exact h
  · exact absurd hstep (hflow.2 code)
  · exact absurd haway hflow.1

/-- The depths go on to the next line. -/
theorem onward (hsmall : small → base + ls.length < 2 ^ 62)
    (h : Covers Λ undo small base ls m' p n loaded) (hl : ls[p]? = some l) {δ : Int} {loads : Bool}
    (honward : l.flow.onward? = some (δ, loads)) :
    Covers Λ undo small base ls m' (p + 1) (n + δ) (loaded || loads) := by
  rcases h.next hundo hl with ⟨d, m₁, hpass, hrest, htells, hwithin⟩ | ⟨_, hnext⟩ | haway
  · have hinv := hpass.inv
    have hnear : d.Within (2 * (base + (p + 1))) := hwithin.mono (by omega)
    cases hflow : l.flow with
    | step code =>
      rw [hflow] at hinv honward
      subst hinv
      cases honward
      refine .flowing hrest (htells.move hwithin (fun hs => ?_) code) ?_
      · have hlt := (List.getElem?_eq_some_iff.mp hl).1
        have hbound := hsmall hs
        omega
      · exact (hwithin.move code).mono (by omega)
    | pass =>
      rw [hflow] at hinv honward
      obtain ⟨name, hin, _, rfl⟩ := hinv
      cases honward
      rw [hin d rfl] at hrest
      exact .flowing hrest (by simpa using htells) hnear
    | branch cc dest | retIf cc =>
      rw [hflow] at hinv honward
      obtain ⟨_, rfl⟩ := hinv
      cases honward
      exact .flowing hrest (by simpa using htells) hnear
    | jump dest | ret | away =>
      rw [hflow] at honward
      cases honward
  · exact hnext _ _
  · rw [haway] at honward
    cases honward

/-- What goes to a label comes with its depth. -/
theorem target (h : Covers Λ undo small base ls m' p n loaded) (hl : ls[p]? = some l)
    {name : String} (hto : l.flow.to? = some (some name)) :
    ∃ d, Λ name = some d ∧ d.Tells small n loaded := by
  have hflow : l.flow ≠ .away ∧ ∀ code, l.flow ≠ .step code := by
    refine ⟨fun heq => ?_, fun code heq => ?_⟩
    · rw [heq] at hto
      cases hto
    · rw [heq] at hto
      cases hto
  obtain ⟨d, m₁, hpass, _, htells, _⟩ := h.next_of_flow hundo hl hflow
  have hinv := hpass.inv
  cases hl : l.flow with
  | jump x | branch _ x =>
    rw [hl] at hinv hto
    cases hto
    exact ⟨d, hinv.1 name rfl d rfl, htells⟩
  | step _ | pass | ret | retIf _ | away =>
    rw [hl] at hto
    cases hto

/-- From a label on, the depths go on with the one of the label. -/
theorem of_label (h : StackFlow Λ undo base m ls m') {name : String} {span : Span} {d : Depth}
    (hq : ls[q]? = some (.label name span)) (hd : Λ name = some d)
    (htells : d.Tells small n loaded) : Covers Λ undo small base ls m' q n loaded := by
  obtain ⟨hlt, hget⟩ := List.getElem?_eq_some_iff.mp hq
  have hdrop := List.drop_eq_getElem_cons hlt
  have hsplit : ls = ls.take q ++ .label name span :: ls.drop (q + 1) := by
    rw [← hget, ← hdrop, List.take_append_drop]
  rw [hsplit] at h
  obtain ⟨hflow, hwithin⟩ := at_label hundo h
  rw [List.length_take, Nat.min_eq_left (Nat.le_of_lt hlt), hd, ← hget, ← hdrop] at hflow
  rw [List.length_take, Nat.min_eq_left (Nat.le_of_lt hlt)] at hwithin
  exact .flowing hflow htells (hwithin d hd)

omit hundo in
/-- A path starts with depth 0. -/
theorem of_start (h : StackFlow Λ undo base (some (.known 0)) ls m') :
    Covers Λ undo small base ls m' 0 0 false :=
  .flowing h (.moved rfl fun _ => rfl) (Nat.zero_le _)

/-- The depths say what every path does. -/
theorem of_path (h : StackFlow Λ undo base (some (.known 0)) ls m')
    (hsmall : small → base + ls.length < 2 ^ 62) (hpath : Line.Path ls p n loaded) :
    Covers Λ undo small base ls m' p n loaded := by
  induction hpath with
  | start => exact of_start h
  | onward _ hl honward hcovers => exact hcovers.onward hundo hsmall hl honward
  | goes _ hl hto hq hcovers =>
    obtain ⟨d, hd, htells⟩ := hcovers.target hundo hl hto
    exact of_label hundo h hq hd htells

/-- The depths of the first lines say what paths do that come to one of them,
    also if they have been behind these lines. -/
theorem of_path_append {ms : List Line} {m₁ : Option Depth}
    (h : StackFlow Λ undo base (some (.known 0)) ls m₁)
    (h' : StackFlow Λ undo (base + ls.length) m₁ ms m')
    (hsmall : small → base + (ls ++ ms).length < 2 ^ 62) (hpath : Line.Path (ls ++ ms) p n loaded)
    (hp : p < ls.length) : Covers Λ undo small base ls m₁ p n loaded := by
  have hfirst : small → base + ls.length < 2 ^ 62 := by
    intro hs
    have hbound := hsmall hs
    rw [List.length_append] at hbound
    omega
  induction hpath with
  | start => exact of_start h
  | onward _ hl honward ih =>
    rw [List.getElem?_append_left (by omega)] at hl
    exact (ih (by omega)).onward hundo hfirst hl honward
  | goes hpath hl hto hq _ =>
    -- the jump may stand behind the first lines
    obtain ⟨d, hd, htells⟩ := (of_path hundo (h.append h') hsmall hpath).target hundo hl hto
    rw [List.getElem?_append_left hp] at hq
    exact of_label hundo h hq hd htells

/-- The depth is 0 wherever the function returns. -/
theorem balanced_of_returns {exit : Option String}
    (hexit : ∀ e, exit = some e → Λ e = some (.known 0))
    (h : Covers Λ undo small base ls m' p n loaded)
    (hsite : Line.Returns exit undo.length ls p) :
    Depth.Tells small (.known 0) n loaded := by
  cases hsite with
  | ret hl hflow =>
    obtain ⟨d, m₁, hpass, _, htells, _⟩ := h.next_of_flow hundo hl (by simp [hflow])
    have hinv := hpass.inv
    rw [hflow] at hinv
    exact hinv.1 d rfl ▸ htells
  | retIf hl hflow =>
    obtain ⟨d, m₁, hpass, _, htells, _⟩ := h.next_of_flow hundo hl (by simp [hflow])
    have hinv := hpass.inv
    rw [hflow] at hinv
    exact hinv.1 d rfl ▸ htells
  | jump hl hto he =>
    obtain ⟨d, hd, htells⟩ := h.target hundo hl hto
    exact Option.some.inj (hd.symm.trans (hexit _ he)) ▸ htells
  | @interrupt i code hl hcode =>
    rw [← List.getElem?_drop] at hl
    cases h with
    | @flowing d hflow htells hwithin =>
      generalize ls.drop p = rest at hflow hl
      cases rest with
      | nil => cases hl
      | cons l rest =>
        rcases hflow.uncons with ⟨m₁, hpass, hrest⟩ | ⟨_, _, _, _, _, hin, _⟩
        · -- the return would stand too early
          cases hk : undo.length with
          | zero =>
            rw [hk] at hl
            cases hl
            have hinv := hpass.inv
            rw [hcode.flow] at hinv
            exact hinv.elim
          | succ k =>
            rw [hk] at hl
            have hle := length_le_of_interrupt hundo hrest hl hcode
            omega
        · exact hin d rfl ▸ htells
    | undoing hus _ hlen _ hrest =>
      rw [hus, List.getElem?_append_right (Nat.le_of_lt hlen), List.getElem?_cons] at hl
      rw [if_neg (by omega)] at hl
      have hle := length_le_of_interrupt hundo hrest hl hcode
      omega

omit hundo in
/-- A path to the end comes with the depth there. -/
theorem at_end (h : Covers Λ undo small base ls m' ls.length n loaded) :
    ∃ d, m' = some d ∧ d.Tells small n loaded := by
  cases h with
  | @flowing d hflow htells hwithin =>
    rw [List.drop_length] at hflow
    exact ⟨d, hflow.of_nil d rfl, htells⟩
  | undoing hus _ _ _ _ =>
    rw [List.drop_length] at hus
    simp at hus

end Covers

/-- Where depths fit lines, every path to a return or to the end leaves `sp` as
    it was and does not load it. -/
theorem balanced {exit : Option String} {base : Nat} {n : Int} {loaded : Bool}
    (h : StackFlow Λ undo base (some (.known 0)) ls m')
    (hundo : ∀ l ∈ undo, ∃ code, l.flow = .step code)
    (hexit : ∀ e, exit = some e → Λ e = some (.known 0))
    (hend : ∀ d, m' = some d → d = .known 0) (hpath : Line.Path ls p n loaded)
    (hsite : Line.Returns exit undo.length ls p ∨ p = ls.length) :
    loaded = false ∧ (2 ^ 64 : Int) ∣ n ∧ (base + ls.length < 2 ^ 62 → n = 0) := by
  have hcovers : Covers Λ undo (base + ls.length < 2 ^ 62) base ls m' p n loaded :=
    .of_path hundo h id hpath
  rcases hsite with hsite | rfl
  · exact (hcovers.balanced_of_returns hundo hexit hsite).balanced
  · obtain ⟨d, hd, htells⟩ := hcovers.at_end
    exact (hend d hd ▸ htells).balanced

/-- Where depths fit lines, every path that falls into one of them comes with the
    depth there. -/
theorem tells_of_fallsIn {small : Prop} {base : Nat} {m₁ : Option Depth} {n : Int} {loaded : Bool}
    (h : StackFlow Λ undo base (some (.known 0)) ls m₁)
    (h' : StackFlow Λ undo (base + ls.length) m₁ ms m')
    (hundo : ∀ l ∈ undo, ∃ code, l.flow = .step code)
    (hsmall : small → base + (ls ++ ms).length < 2 ^ 62)
    (hfalls : Line.FallsIn (ls ++ ms) ls.length n loaded) :
    ∃ d, m₁ = some d ∧ d.Tells small n loaded := by
  -- at the end of the first lines, the depth is the one between the two parts
  suffices hcovers : Covers Λ undo small base ls m₁ ls.length n loaded from hcovers.at_end
  generalize hp : ls.length = p at hfalls
  cases hfalls with
  | start => exact .of_start h
  | @next p n loaded l δ loads hpath hl honward =>
    have hlt : p < ls.length := by omega
    rw [List.getElem?_append_left hlt] at hl
    have hbefore := Covers.of_path_append hundo h h' hsmall hpath hlt
    refine hbefore.onward hundo (fun hs => ?_) hl honward
    have hbound := hsmall hs
    rw [List.length_append] at hbound
    omega

end StackFlow

end Z80Backend
