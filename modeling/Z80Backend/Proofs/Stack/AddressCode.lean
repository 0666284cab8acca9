import Mathlib.Algebra.Ring.Int.Defs
import Z80Backend.Proofs.Address.Folding
import Z80Backend.Proofs.Call.Code
import Z80Backend.Proofs.Function.Blocks
import Z80Backend.Proofs.Stack.Effect

/-! # The depth over address code

    The code that resolving and building make for an address pops what it
    pushes (`Place.isLevel_of_resolve`), and so does the code that loads the
    value there.  What pushes or pops always has an encoding, so the tracked
    depth moves as the steps say even where another step has none
    (`Shifts.steps`). -/

namespace Z80Backend

/-! ## The stack in address code -/

namespace Step

/-- The change of `sp` in bytes. -/
def delta : Step → Int
  | push _ => -2
  | pop _ => 2
  | _ => 0

/-- The change of `sp` over several steps. -/
def listDelta (steps : List Step) : Int := (steps.map delta).sum

@[simp] theorem listDelta_nil : listDelta [] = 0 := rfl

@[simp] theorem listDelta_cons (st : Step) (steps : List Step) :
    listDelta (st :: steps) = st.delta + listDelta steps := by
  simp [listDelta]

@[simp] theorem listDelta_append (p q : List Step) :
    listDelta (p ++ q) = listDelta p + listDelta q := by
  simp [listDelta]

end Step

/-- The code that brings the address to `hl` pops what it pushes. -/
def Address.IsLevel (a : Address) : Prop := Step.listDelta a.toHL = 0

/-- So does the code of the address that an index is read from. -/
def Index.IsLevel (i : Index) : Prop := ∀ a isByte, i = .stored a isByte → a.IsLevel

namespace Address

@[simp] theorem listDelta_framePointer (d : Int64) : Step.listDelta (framePointer d) = 0 := rfl

@[simp] theorem listDelta_addOffset (off : Int64) : Step.listDelta (addOffset off) = 0 := by
  unfold addOffset
  split <;> rfl

theorem isLevel_absolute (s : String) (off : Int64) : (absolute s off).IsLevel := by
  show Step.listDelta (if s = "" then _ else _) = 0
  split <;> rfl

theorem isLevel_frame (d : Int64) : (frame d).IsLevel := listDelta_framePointer d

theorem listDelta_doubleAndAdd (n k : Nat) : Step.listDelta (doubleAndAdd n k) = 0 := by
  induction k with
  | zero => rfl
  | succ k ih =>
    unfold doubleAndAdd
    split <;> simpa [Step.delta] using ih

@[simp] theorem listDelta_scaleHL (scale : Int64) (keepDE : Bool) :
    Step.listDelta (scaleHL scale keepDE) = 0 := by
  have hdoublings : ∀ n, Step.listDelta (List.replicate n (.addHL .hl)) = 0 := by
    intro n
    simp [Step.listDelta, Step.delta]
  unfold scaleHL
  dsimp only
  split
  · rfl
  split
  · exact hdoublings _
  split <;> simp [Step.delta, listDelta_doubleAndAdd]

theorem listDelta_baseCode {b : Base} {c : BaseCode} (h : baseCode b = .ok c) :
    Step.listDelta c.steps = 0 := by
  unfold baseCode at h
  split at h
  · cases h
    rfl
  · split at h
    · cases h
    dsimp only at h
    split at h <;> cases h <;> rfl
  · cases h
    rfl
  · cases h
  · cases h

theorem listDelta_indexCode {i : Index} {c : IndexCode} (hi : i.IsLevel)
    (h : indexCode i = .ok c) : Step.listDelta c.steps = 0 := by
  have hreg : ∀ r, Step.listDelta (regCode r).steps = 0 := by
    intro r
    cases r <;> rfl
  -- the cases that are named test once more before they give code
  unfold indexCode at h
  split at h
  case h_2 =>
    split at h
    · cases h
      exact hreg _
    · cases h
  case h_9 s off isByte =>
    cases h
    cases isByte <;> rfl
  case h_11 =>
    split at h <;> cases h
    rfl
  case h_14 a isByte =>
    cases h
    have ha : Step.listDelta a.toHL = 0 := hi a isByte rfl
    cases isByte <;> simp [Step.delta, ha]
  all_goals cases h <;> rfl

theorem isLevel_ofBase {b : Base} {a : Address} (h : ofBase b = .ok a) : a.IsLevel := by
  unfold ofBase at h
  split at h
  · cases h
    exact isLevel_absolute _ _
  · split at h <;> cases h
    · exact isLevel_frame _
    · exact listDelta_framePointer _
  · split at h <;> cases h
    simp [IsLevel, toHL, Step.delta]
  · split at h <;> cases h <;> simp [IsLevel, toHL, Step.delta]
  · cases h

theorem isLevel_indexedBy {b : Base} {i : Index} {scale : Int64} {a : Address} (hi : i.IsLevel)
    (h : indexedBy b i scale = .ok a) : a.IsLevel := by
  obtain ⟨c, hc, ⟨name, r, -, -, rfl⟩ | ⟨d, hd, rfl⟩⟩ := indexedBy_eq_ok h
  · simp [IsLevel, toHL, Step.delta, listDelta_indexCode hi hc]
  · show Step.listDelta (join c d scale) = 0
    unfold join
    split <;> simp [Step.delta, listDelta_indexCode hi hc, listDelta_baseCode hd]

theorem isLevel_build {b : Base} {i : Index} {scale : Int64} {a : Address} (hi : i.IsLevel)
    (h : build b i scale = .ok a) : a.IsLevel := by
  unfold build at h
  split at h
  · cases h
  split at h
  · exact isLevel_ofBase h
  · rcases atConst_eq_ok h with ⟨d, rfl⟩ | h
    · exact isLevel_frame d
    · exact isLevel_indexedBy (i := .const _) nofun h
  · exact isLevel_indexedBy hi h

/-- A byte is loaded with the stack as it was. -/
theorem listDelta_loadByte {a : Address} (ha : a.IsLevel) (r : Reg8) :
    Step.listDelta (a.loadByte r) = 0 := by
  unfold loadByte
  split
  · rfl
  · split <;> rfl
  · rfl
  · rename_i steps _
    have hsteps : Step.listDelta steps = 0 := ha
    cases r <;> simp [loadByteVia, Step.delta, hsteps]

/-- And so is a word. -/
theorem listDelta_loadWord {a : Address} (ha : a.IsLevel) (r : WordReg) :
    Step.listDelta (a.loadWord r) = 0 := by
  have hvia : ∀ steps, Step.listDelta steps = 0 → Step.listDelta (loadWordVia steps r) = 0 := by
    intro steps hsteps
    cases r <;> simp [loadWordVia, fetchWord, Step.delta, hsteps]
  unfold loadWord
  split
  · split
    · rfl
    · exact hvia _ ha
  · rfl
  · exact hvia _ ha

end Address

namespace Path

variable {scope : Scope} {r : Resolver}

theorem isLevel_finish {p : Path} {x : Resolved} (hp : ∀ i, p.index = some i → i.IsLevel)
    (h : p.finish = .ok x) : x.address.IsLevel := by
  unfold finish at h
  split at h
  · cases h
  rename_i a ha
  cases h
  have hindex : (p.index.getD .none).IsLevel := by
    cases hi : p.index with
    | none => nofun
    | some i => exact hp i hi
  have hlevel := Address.isLevel_build hindex ha
  unfold thenAdd
  split
  · rename_i steps
    have hsteps : Step.listDelta steps = 0 := hlevel
    simp [Address.IsLevel, Address.toHL, hsteps]
  · exact hlevel

/-- The index of a path is read through level code, by induction on the place:
    an index that is stored somewhere was itself the end of a path. -/
theorem isLevel_follow {place : Place} {p : Path} (h : follow scope r place = .ok p) :
    ∀ i, p.index = some i → i.IsLevel := by
  induction place generalizing p with
  | literal e => cases h
  | missing => cases h
  | name n =>
    obtain ⟨st, -, rfl⟩ := follow_name_eq_ok h
    obtain ⟨home, t⟩ := st
    cases home <;> nofun
  | field b f ih =>
    obtain ⟨q, fld, hb, -, rfl⟩ := follow_field_eq_ok h
    intro i hi
    exact ih hb i (q.index_advance _ ▸ hi)
  | add b off ih =>
    obtain ⟨q, v, hb, -, rfl⟩ := follow_add_eq_ok h
    intro i hi
    exact ih hb i (q.index_advance _ ▸ hi)
  | sub b off ih =>
    obtain ⟨q, v, hb, -, rfl⟩ := follow_sub_eq_ok h
    intro i hi
    exact ih hb i (q.index_advance _ ▸ hi)
  | elem b sub ih =>
    obtain ⟨q, t, size, hb, -, hcase⟩ := follow_elem_eq_ok h
    intro i hi
    rcases hcase with ⟨e, rfl, hat⟩ | ⟨-, -, ix, rfl, hix⟩
    · -- a constant subscript leaves the index that was there
      obtain ⟨n, -, -, rfl⟩ := atConst_eq_ok hat
      exact ih hb i (q.index_advance _ ▸ hi)
    · cases hi
      rintro a isByte rfl
      unfold Index.ofSubscript at hix
      split at hix <;> try cases hix
      split at hix
      · split at hix <;> cases hix
      · cases hix
  | elemAt b inner ihb ihi =>
    obtain ⟨q, t, size, q', ix, -, -, -, hinner, rfl, x, hx, hix⟩ := follow_elemAt_eq_ok h
    intro i hi
    cases hi
    rintro a isByte rfl
    -- the code that reads the index is that of the inner place
    have hlevel := isLevel_finish (ihi hinner) hx
    unfold Index.ofStored at hix
    dsimp only at hix
    split at hix
    · cases hix
    split at hix
    · split at hix <;> cases hix
      exact hlevel
    · split at hix <;> cases hix
      exact hlevel
    · cases hix
      exact hlevel

end Path

theorem Place.isLevel_of_resolve {scope : Scope} {r : Resolver} {p : Place} {x : Resolved}
    (h : p.resolve scope r = .ok x) : x.address.IsLevel := by
  unfold resolve at h
  split at h
  · cases h
  rename_i path hpath
  exact Path.isLevel_finish (Path.isLevel_follow hpath) h

/-! ## Code that moves the depth -/

theorem Depth.add_add (d : Depth) (m n : Int64) : (d.add m).add n = d.add (m + n) := by
  cases d with
  | known k => rw [add, add, add, Int64.add_assoc]
  | unknown | untracked => rfl

theorem Reg8.isReg_sp (reg : Reg8) : (Operand.ofReg reg.text).isReg "sp" = false := by
  cases reg <;> decide

theorem WordReg.isReg_sp (reg : WordReg) : (Operand.ofReg reg.text).isReg "sp" = false := by
  cases reg <;> decide

theorem MemRef.isReg_sp (m : MemRef) : m.operand.isReg "sp" = false := by
  cases m with
  | symbol s off =>
    show (Operand.absolute s off).isReg "sp" = false
    unfold Operand.absolute
    split
    · rfl
    · split <;> rfl
  | hl | indexed | address => rfl

theorem StackEffect.of_push {i : Instruction} (h : Text.lower i.head = "push") :
    of i = { delta := -2 } := by
  rw [of_eq_ofShape, h]
  rfl

theorem StackEffect.of_pop {i : Instruction} (h : Text.lower i.head = "pop") :
    of i = { delta := 2 } := by
  rw [of_eq_ofShape, h]
  rfl

theorem StackEffect.of_ld_reg {o : Operand} (h : o.isReg "sp" = false) (o' : Operand)
    (span : Span) : of { head := "ld", operands := [o, o'], span } = {} := by
  have hlower : Text.lower "ld" = "ld" := by decide
  simp [of_eq_ofShape, hlower, h, ofShape]

/-- The tracker reads off an instruction what its step does to the stack. -/
theorem Step.effect_instruction (st : Step) (span : Span) :
    StackEffect.of { st.instruction with span } = { delta := Int64.ofInt st.delta } := by
  have hneutral : ∀ head ∈ ["ex", "add"], ∀ os,
      StackEffect.of { head, operands := os, span } = {} := by
    have hall : ∀ head ∈ ["ex", "add"], Text.lower head ∉
        ["push", "pop", "inc", "dec", "ld", "ret", "reti", "retn", "jp", "jr"] := by decide
    intro head hhead os
    exact StackEffect.of_neutral (hall head hhead)
  cases st with
  | push reg => exact StackEffect.of_push (show Text.lower "push" = "push" by decide)
  | pop reg => exact StackEffect.of_pop (show Text.lower "pop" = "pop" by decide)
  | exDEHL => exact hneutral "ex" (by decide) _
  | addHL src => exact hneutral "add" (by decide) _
  | ldReg dst src | ldByte dst n | loadByte dst m => exact StackEffect.of_ld_reg dst.isReg_sp _ span
  | ldWord dst n | ldSym dst s off | loadWord dst m =>
    exact StackEffect.of_ld_reg dst.isReg_sp _ span
  | storeByte m src | storeWord m src => exact StackEffect.of_ld_reg m.isReg_sp _ span
  | inc reg =>
    have hlower : Text.lower "inc" = "inc" := by decide
    show StackEffect.of { head := "inc", operands := [.ofReg reg.text], span } = {}
    simp [StackEffect.of_eq_ofShape, hlower, reg.isReg_sp, StackEffect.ofShape]

/-- The code moves the tracked depth by a number of bytes and passes control on.
    So it does when some of it has no encoding and is left out. -/
def Shifts (is : List Instruction) (n : Int) : Prop :=
  ∀ (r : Resolver) (span : Span) (s : FnState), (s.emitAll r span is).tracker =
    { s.tracker with depth := s.tracker.depth.add (Int64.ofInt n) }

namespace Shifts

theorem append {is js : List Instruction} {m n : Int} (hi : Shifts is m) (hj : Shifts js n) :
    Shifts (is ++ js) (m + n) := by
  intro r span s
  have happend : s.emitAll r span (is ++ js) = (s.emitAll r span is).emitAll r span js :=
    List.foldl_append
  rw [happend, hj r span, hi r span, Depth.add_add, ← Int64.ofInt_add]

theorem level {is js : List Instruction} (hi : Shifts is 0) (hj : Shifts js 0) :
    Shifts (is ++ js) 0 := by
  have hsum := hi.append hj
  rwa [Int.add_zero] at hsum

/-- An instruction that the tracker passes over. -/
theorem neutral {i : Instruction} (h : ∀ span, StackEffect.of { i with span } = {}) :
    Shifts [i] 0 := by
  intro r span s
  have hsame : s.tracker = { s.tracker with depth := s.tracker.depth.add (Int64.ofInt 0) } := by
    rw [show Int64.ofInt 0 = 0 from rfl, Depth.add_zero]
  show (s.emit r { i with span }).tracker = _
  unfold FnState.emit
  split
  · rw [FnState.tracker_report]
    exact hsame
  · simp [Tracker.apply, h span]

/-- One step of address code: what moves the depth has an encoding. -/
theorem step (st : Step) : Shifts [st.instruction] st.delta := by
  have heffect := st.effect_instruction
  -- a step that leaves the stack alone may be left out
  by_cases hquiet : st.delta = 0
  · rw [hquiet] at heffect ⊢
    exact neutral heffect
  intro r span s
  show (s.emit r { st.instruction with span }).tracker = _
  have hcode : ∃ code, assemble r { st.instruction with span } = .ok code := by
    cases st with
    | push reg =>
      exact ⟨_, assemble_span (i := { Instruction.of _ _ with span }) (assemble_push reg)⟩
    | pop reg => exact ⟨_, assemble_span (i := { Instruction.of _ _ with span }) (assemble_pop reg)⟩
    | ldReg | ldByte | loadByte | ldWord | ldSym | loadWord | inc | storeByte | storeWord
    | exDEHL | addHL => exact absurd rfl hquiet
  obtain ⟨code, hcode⟩ := hcode
  simp [FnState.emit, hcode, Tracker.apply, heffect span]

theorem steps (sts : List Step) : Shifts (sts.map (·.instruction)) (Step.listDelta sts) := by
  induction sts with
  | nil =>
    intro r span s
    rw [Step.listDelta_nil, show Int64.ofInt 0 = 0 from rfl, Depth.add_zero]
    rfl
  | cons st sts ih =>
    rw [Step.listDelta_cons]
    exact (step st).append ih

end Shifts

end Z80Backend
