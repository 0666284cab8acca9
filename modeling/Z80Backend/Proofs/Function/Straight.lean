import Z80Backend.Function.Statement

/-! # Straight code

    Most of the code that lowering writes neither jumps nor returns: control just
    passes through it. -/

namespace Z80Backend

/-- The instruction is neither a jump nor a return. -/
def Instruction.IsStraight (i : Instruction) : Prop :=
  Text.lower i.head ∉ ["jp", "jr", "djnz", "ret", "reti", "retn"]

/-- The instruction is a return. -/
def Instruction.IsReturn (i : Instruction) : Prop := Text.lower i.head ∈ ["ret", "reti", "retn"]
  deriving Decidable

theorem Instruction.IsStraight.not_isReturn {i : Instruction} (h : i.IsStraight) :
    ¬ i.IsReturn :=
  fun hret => h (List.mem_append_right ["jp", "jr", "djnz"] hret)

/-- The heads of instructions that lead nowhere but to the next one. -/
def straightHeads : List String := ["push", "pop", "ld", "ex", "add", "inc"]

/-- The mnemonics of generated code that is straight. -/
theorem Instruction.isStraight_of {head : String} (os : List Operand)
    (h : head ∈ "call" :: straightHeads) : (Instruction.of head os).IsStraight := by
  have hall : ∀ w ∈ "call" :: straightHeads,
      Text.lower w ∉ ["jp", "jr", "djnz", "ret", "reti", "retn"] := by decide
  exact hall head h

theorem Instruction.isStraight_of_head {i : Instruction} (h : i.head ∈ straightHeads) :
    i.IsStraight :=
  isStraight_of i.operands (List.mem_cons_of_mem _ h)

theorem Step.head_of_mem {sts : List Step} :
    ∀ i ∈ sts.map (·.instruction), i.head ∈ straightHeads := by
  intro i hi
  obtain ⟨st, -, rfl⟩ := List.mem_map.mp hi
  cases st <;> simp [Step.instruction, Instruction.of, straightHeads]

theorem Step.isStraight_map {sts : List Step} : ∀ i ∈ sts.map (·.instruction), i.IsStraight :=
  fun i hi => Instruction.isStraight_of_head (head_of_mem i hi)

namespace FnContext

variable {ctx : FnContext} {callee : String} {n : Nat}

theorem head_of_pushStorage {p : Place} {is : List Instruction} (h : ctx.pushStorage p = .ok is) :
    ∀ i ∈ is, i.head ∈ straightHeads := by
  have hfirst : ∀ i ∈ [Instruction.of "push" [.ofReg "hl"]], i.head ∈ straightHeads := by decide
  unfold pushStorage at h
  split at h
  · cases h
  dsimp only at h
  split at h
  · cases h
    rw [List.forall_mem_append, List.forall_mem_append]
    exact ⟨⟨hfirst, Step.head_of_mem⟩, by decide⟩
  split at h
  · cases h
    rw [List.forall_mem_append, List.forall_mem_append]
    exact ⟨⟨hfirst, Step.head_of_mem⟩, by decide⟩
  · cases h

/-- The code of an argument leads nowhere else. -/
theorem head_of_pushArg {arg : Operand} {is : List Instruction}
    (h : ctx.pushArg callee n arg = .ok is) : ∀ i ∈ is, i.head ∈ straightHeads := by
  cases arg with
  | reg name span =>
    simp only [pushArg] at h
    split at h
    · cases h
      simp [Instruction.of, straightHeads]
    split at h
    · cases h
      simp [Instruction.of, swapTop, straightHeads]
    · cases h
  | imm e span =>
    cases h
    simp [Instruction.of, swapTop, straightHeads]
  | place p span | mem p span =>
    simp only [pushArg] at h
    split at h
    · exact head_of_pushStorage h
    · cases h
  | port e span | portC span | missing => cases h

theorem isStraight_pushArg {arg : Operand} {is : List Instruction}
    (h : ctx.pushArg callee n arg = .ok is) : ∀ i ∈ is, i.IsStraight :=
  fun i hi => Instruction.isStraight_of_head (head_of_pushArg h i hi)

theorem isStraight_callCode : ∀ i ∈ callCode callee n, i.IsStraight := by
  intro i hi
  rcases List.mem_cons.mp hi with rfl | hi
  · exact Instruction.isStraight_of _ (by decide)
  · rw [List.eq_of_mem_replicate hi]
    exact Instruction.isStraight_of _ (by decide)

/-! ## The code around the body -/

variable {Q : Instruction → Prop}

theorem forall_mem_cleanup (hpop : ∀ x : StackReg, Q (.of "pop" [.ofReg x.text]))
    (hsp : Q (.of "ld" [.ofReg "sp", .ofReg "ix"])) : ∀ i ∈ ctx.cleanup, Q i := by
  rw [cleanup, List.forall_mem_append, List.forall_mem_map]
  refine ⟨fun x _ => hpop x, ?_⟩
  split
  · exact List.forall_mem_cons.mpr ⟨hsp, List.forall_mem_singleton.mpr (hpop (.index .ix))⟩
  · exact List.forall_mem_nil _

theorem forall_mem_prologue {locals : List Local} (hnop : Q (.of "nop" []))
    (hpush : ∀ x : StackReg, Q (.of "push" [.ofReg x.text]))
    (hix : Q (.of "ld" [.ofReg "ix", .ofNum 0])) (hsp : Q (.of "add" [.ofReg "ix", .ofReg "sp"]))
    (hlocals : ∀ l ∈ locals, ∀ i ∈ initLocal l, Q i) : ∀ i ∈ ctx.prologue locals, Q i := by
  unfold prologue
  dsimp only
  split
  · exact List.forall_mem_singleton.mpr hnop
  rw [List.forall_mem_append, List.forall_mem_map]
  refine ⟨?_, fun x _ => hpush x⟩
  split
  · simp only [List.cons_append, List.nil_append, List.forall_mem_cons, List.mem_flatMap]
    refine ⟨hpush (.index .ix), hix, hsp, ?_⟩
    rintro i ⟨l, hl, hi⟩
    exact hlocals l hl i hi
  · exact List.forall_mem_nil _

end FnContext

end Z80Backend
