import Z80Backend.Chunk
import Z80Backend.Proofs.Address.Access

/-! # The machine that calls run on

    Calls need more of the machine than address code does: `push af` writes the
    flags, a call leaves the address behind it on the stack, and a return
    takes it from there.  A state of this machine is a state of the machine for
    address code with flags and a program counter.

    Only the instructions that argument code, calls and frames are made of have
    a meaning here; on any other the machine stops.

    * `MachineInstr.exec` is the action of an instruction, and `Line.run` that
      of lines executed one after the other.
    * `Line.pushed` lists the addresses that the pushes of a run write.
    * `Line.Puts` says that lines put words on the stack and do nothing else. -/

namespace Z80Backend

/-! ## States -/

/-- The registers with flags and program counter, and the memory. -/
structure Core extends Cpu where
  f : UInt8
  pc : UInt16

/-- The value of a 16-bit operand, given the addresses of symbols. -/
def Word.value (σ : String → UInt16) : Word → UInt16
  | const n => n
  | symbol name k => σ name + imm k

/-- Exchanges `hl` with the word on top of the stack. -/
def Cpu.swapTop (s : Cpu) : Cpu :=
  { (s.store s.sp (lowByte s.hl)).store (s.sp + 1) (highByte s.hl) with hl := s.wordAt s.sp }

namespace Core

/-- Acts on the registers and the memory, and leaves flags and program counter
    as they are. -/
def act (c : Core) (g : Cpu → Cpu) : Core := { c with toCpu := g c.toCpu }

@[simp] theorem toCpu_act (c : Core) (g : Cpu → Cpu) : (c.act g).toCpu = g c.toCpu := rfl

/-- Goes on by a number of bytes. -/
def skip (c : Core) (n : Nat) : Core := { c with pc := c.pc + UInt16.ofNat n }

@[simp] theorem toCpu_skip (c : Core) (n : Nat) : (c.skip n).toCpu = c.toCpu := rfl

@[simp] theorem f_skip (c : Core) (n : Nat) : (c.skip n).f = c.f := rfl

/-- The value of a pair. -/
def pair (c : Core) : Pair → UInt16
  | .bc => c.bc
  | .de => c.de
  | .hl => c.hl
  | .sp => c.sp

/-- Sets a pair. -/
def setPair (c : Core) (p : Pair) (v : UInt16) : Core :=
  match p with
  | .bc => { c with bc := v }
  | .de => { c with de := v }
  | .hl => { c with hl := v }
  | .sp => { c with sp := v }

/-- The value of an index register. -/
def index (c : Core) : IndexReg → UInt16
  | .ix => c.ix
  | .iy => c.iy

/-- Sets an index register. -/
def setIndex (c : Core) (x : IndexReg) (v : UInt16) : Core :=
  match x with
  | .ix => { c with ix := v }
  | .iy => { c with iy := v }

/-- The address of a byte in memory. -/
def cellAddr (c : Core) : Cell → UInt16
  | .hl => c.hl
  | .indexed x d => c.index x + imm d.toInt64

/-- Puts a word on the stack. -/
def push (c : Core) (w : UInt16) : Core := c.act (·.push w)

@[simp] theorem toCpu_push (c : Core) (w : UInt16) : (c.push w).toCpu = c.toCpu.push w := rfl

/-- The word that `push` takes from a register. -/
def stacked (c : Core) (r : StackReg) : UInt16 :=
  if r = .af then wordOf c.a c.f else c.toCpu.stacked r

/-- Takes a word off the stack and into a register. -/
def pop (c : Core) (r : StackReg) : Core :=
  { c.act (·.pop r) with f := if r = .af then c.mem c.sp else c.f }

/-- Leaves for the address on top of the stack. -/
def ret (c : Core) : Core := { c with sp := c.sp + 2, pc := c.wordAt c.sp }

/-- The flags after a 16-bit addition: the carries out of bits 15 and 11, bits
    3 and 5 of the high byte, and the flags that an addition keeps. -/
def addFlags (c : Core) (x y : UInt16) : UInt8 :=
  (c.f &&& 0xC4) ||| (highByte (x + y) &&& 0x28) |||
    (if 0x1000 ≤ x.toNat % 0x1000 + y.toNat % 0x1000 then 0x10 else 0) |||
    (if 0x10000 ≤ x.toNat + y.toNat then 1 else 0)

end Core

/-! ## Instructions -/

/-- The action of an instruction on a state in which the program counter is
    behind it.  The instructions that have no meaning here have no result. -/
def MachineInstr.exec (σ : String → UInt16) (c : Core) : MachineInstr → Option Core
  | plain .nop => some c
  | ret | plain .reti | plain .retn => some c.ret
  | call t => some { c.push c.pc with pc := t.value σ }
  | push r => some (c.push (c.stacked r))
  | pop r => some (c.pop r)
  | exDE => some { c with de := c.hl, hl := c.de }
  | exSP => some (c.act (·.swapTop))
  | ld dst src => some (c.act (·.setByte dst (c.byte src)))
  | ldImm dst n => some (c.act (·.setByte dst n))
  | load dst m => some (c.act (·.setByte dst (c.mem (c.cellAddr m))))
  | ldAFromBC => some { c with a := c.mem c.bc }
  | ldAFromDE => some { c with a := c.mem c.de }
  | ldAAbs t => some { c with a := c.mem (t.value σ) }
  | ldPairImm p t => some (c.setPair p (t.value σ))
  | ldPairAbs p t => some (c.setPair p (c.wordAt (t.value σ)))
  | ldIndexImm x t => some (c.setIndex x (t.value σ))
  | ldSPIndex x => some { c with sp := c.index x }
  | addHL p => some { c with hl := c.hl + c.pair p, f := c.addFlags c.hl (c.pair p) }
  | addIndex x p =>
    -- in this instruction `hl` stands for the index register itself
    let y := if p = .hl then c.index x else c.pair p
    some { c.setIndex x (c.index x + y) with f := c.addFlags (c.index x) y }
  | inc16 p => some (c.setPair p (c.pair p + 1))
  | _ => none

/-- The addresses that an instruction writes by pushing. -/
def MachineInstr.pushed (c : Core) : MachineInstr → List UInt16
  | push _ | call _ => [c.sp - 1, c.sp - 2]
  | _ => []

/-- Does the instruction lead away from the next one? -/
def MachineInstr.IsTransfer (code : MachineInstr) : Prop :=
  (∃ t, code = call t) ∨ code = ret ∨ code = plain .reti ∨ code = plain .retn

/-- An instruction that leads nowhere else leaves the program counter alone. -/
theorem MachineInstr.pc_exec {σ : String → UInt16} {code : MachineInstr} {c c' : Core}
    (h : code.exec σ c = some c') (hnext : ¬ code.IsTransfer) : c'.pc = c.pc := by
  cases code with
  | call t => exact absurd (.inl ⟨t, rfl⟩) hnext
  | ret => exact absurd (.inr (.inl rfl)) hnext
  | plain p =>
    cases p with
    | nop =>
      cases h
      rfl
    | reti => exact absurd (.inr (.inr (.inl rfl))) hnext
    | retn => exact absurd (.inr (.inr (.inr rfl))) hnext
    | _ => cases h
  | ldPairImm p t | ldPairAbs p t | inc16 p =>
    cases h
    cases p <;> rfl
  | ldIndexImm x t | addIndex x p =>
    cases h
    cases x <;> rfl
  | push r | pop r | exDE | exSP | ldAFromBC | ldAFromDE | ldAAbs t | ldSPIndex x | addHL p =>
    cases h
    rfl
  | ld dst src | ldImm dst n | load dst m =>
    cases h
    rfl
  | _ => cases h

/-! ## Lines -/

namespace Line

variable {σ : String → UInt16}

/-- The action of a line. -/
def exec (σ : String → UInt16) (c : Core) : Line → Option Core
  | instr _ code => code.exec σ (c.skip code.bytes.length)
  | label .. => some c
  | _ => none

/-- The action of lines executed one after the other. -/
def run (σ : String → UInt16) : List Line → Core → Option Core
  | [], c => some c
  | l :: ls, c => (l.exec σ c).bind (run σ ls)

/-- The addresses that the pushes of a run write. -/
def pushed (σ : String → UInt16) : List Line → Core → List UInt16
  | [], _ => []
  | l :: ls, c =>
    (match l with
      | instr _ code => code.pushed c
      | _ => []) ++ ((l.exec σ c).map (pushed σ ls)).getD []

@[simp] theorem run_nil (c : Core) : run σ [] c = some c := rfl

@[simp] theorem run_cons (l : Line) (ls : List Line) (c : Core) :
    run σ (l :: ls) c = (l.exec σ c).bind (run σ ls) := rfl

theorem run_append (p q : List Line) (c : Core) :
    run σ (p ++ q) c = (run σ p c).bind (run σ q) := by
  induction p generalizing c with
  | nil => rfl
  | cons l p ih =>
    show (l.exec σ c).bind (run σ (p ++ q)) = ((l.exec σ c).bind (run σ p)).bind (run σ q)
    cases l.exec σ c with
    | none => rfl
    | some c₁ => exact ih c₁

theorem run_trans {p q : List Line} {c c₁ c₂ : Core} (hp : run σ p c = some c₁)
    (hq : run σ q c₁ = some c₂) : run σ (p ++ q) c = some c₂ := by
  rw [run_append, hp]
  exact hq

theorem pushed_append {p : List Line} {c c₁ : Core} (hp : run σ p c = some c₁) (q : List Line) :
    pushed σ (p ++ q) c = pushed σ p c ++ pushed σ q c₁ := by
  induction p generalizing c with
  | nil =>
    cases hp
    rfl
  | cons l p ih =>
    cases hl : l.exec σ c with
    | none =>
      rw [run_cons, hl] at hp
      cases hp
    | some c' =>
      rw [run_cons, hl] at hp
      have hrest := ih hp
      simp only [List.cons_append, pushed, hl, Option.map_some, Option.getD_some, hrest,
        List.append_assoc]

/-- What the first lines push is pushed, whether or not they come to an end. -/
theorem mem_pushed_append {p : List Line} {c : Core} {x : UInt16} (h : x ∈ pushed σ p c)
    (q : List Line) : x ∈ pushed σ (p ++ q) c := by
  induction p generalizing c with
  | nil => cases h
  | cons l p ih =>
    rw [List.cons_append]
    unfold pushed at h ⊢
    rw [List.mem_append] at h ⊢
    rcases h with h | h
    · exact .inl h
    · cases hl : l.exec σ c with
      | none =>
        rw [hl] at h
        cases h
      | some c₁ =>
        rw [hl] at h
        exact .inr (ih h)

/-- The program counter moves past the lines that are executed. -/
theorem pc_run {ls : List Line} {c c' : Core} (h : run σ ls c = some c')
    (hnext : ∀ i code, instr i code ∈ ls → ¬ code.IsTransfer) :
    c'.pc = c.pc + UInt16.ofNat (listBytes ls).length := by
  induction ls generalizing c with
  | nil =>
    cases h
    simp [listBytes]
  | cons l ls ih =>
    obtain ⟨c₁, hl, hrest⟩ := Option.bind_eq_some_iff.mp h
    have hpc := ih hrest fun i code hmem => hnext i code (List.mem_cons_of_mem l hmem)
    have hfirst : c₁.pc = c.pc + UInt16.ofNat l.bytes.length := by
      cases l with
      | instr i code => exact MachineInstr.pc_exec hl (hnext i code List.mem_cons_self)
      | label name span =>
        cases hl
        simp [bytes]
      | data bs text | fixup f | reserve n text => cases hl
    rw [hpc, hfirst, listBytes_cons, List.length_append, UInt16.ofNat_add, UInt16.add_assoc]

end Line

/-! ## Words on the stack -/

section

variable {sp x : UInt16} {j k : Nat}

/-- The first bytes below the stack pointer, and those below them. -/
theorem below_add (hj : j ≤ 65536) :
    Below sp (j + k) x ↔ Below sp j x ∨ Below (sp - UInt16.ofNat j) k x := by
  have hx := x.toNat_lt
  have hs := sp.toNat_lt
  unfold Below
  simp only [UInt16.toNat_sub, UInt16.toNat_ofNat', UInt16.reduceToNat]
  omega

/-- What lies above the stack pointer is not below it. -/
theorem not_below_add (hjk : j + k < 65536) : ¬ Below sp k (sp + UInt16.ofNat j) := by
  have hs := sp.toNat_lt
  unfold Below
  simp only [UInt16.toNat_sub, UInt16.toNat_add, UInt16.toNat_ofNat', UInt16.reduceToNat]
  omega

end

namespace Cpu

variable {s t : Cpu} {x : UInt16} {ws ws' : List UInt16}

theorem add_two_mul_succ (x : UInt16) (n : Nat) :
    x + UInt16.ofNat (2 * (n + 1)) = x + 2 + UInt16.ofNat (2 * n) := by
  rw [Nat.mul_add, UInt16.ofNat_add]
  have h2 : UInt16.ofNat (2 * 1) = 2 := rfl
  rw [h2]
  grind

theorem hasWords_append :
    s.HasWords x (ws ++ ws') ↔
      s.HasWords x ws ∧ s.HasWords (x + UInt16.ofNat (2 * ws.length)) ws' := by
  induction ws generalizing x with
  | nil => simp [HasWords]
  | cons w ws ih =>
    simp only [List.cons_append, HasWords, ih, List.length_cons, add_two_mul_succ, and_assoc]

/-- Each of several words is at its place. -/
theorem HasWords.get (h : s.HasWords x ws) {i : Nat} {w : UInt16} (hi : ws[i]? = some w) :
    s.wordAt (x + UInt16.ofNat (2 * i)) = w := by
  induction ws generalizing x i with
  | nil => cases hi
  | cons w' ws ih =>
    cases i with
    | zero =>
      cases hi
      simpa using h.1
    | succ i =>
      rw [add_two_mul_succ]
      exact ih h.2 hi

/-- Words that are found where others were are the same words. -/
theorem HasWords.of_wordAt (h : s.HasWords x ws)
    (hsame : ∀ i < ws.length, t.wordAt (x + UInt16.ofNat (2 * i)) =
      s.wordAt (x + UInt16.ofNat (2 * i))) : t.HasWords x ws := by
  induction ws generalizing x with
  | nil => trivial
  | cons w ws ih =>
    refine ⟨?_, ih h.2 fun i hi => ?_⟩
    · have hfirst : t.wordAt x = s.wordAt x := by simpa using hsame 0 (by simp)
      rw [hfirst, h.1]
    · have hnext := hsame (i + 1) (by simpa using hi)
      simpa only [add_two_mul_succ] using hnext

/-- Words above the stack pointer are out of reach of what is pushed below it,
    as long as both fit into the memory. -/
theorem HasWords.of_frame {k : Nat} (h : s.HasWords s.sp ws)
    (hframe : ∀ y, ¬ Below s.sp k y → t.mem y = s.mem y) (hroom : k + 2 * ws.length ≤ 65536) :
    t.HasWords s.sp ws := by
  apply h.of_wordAt
  intro i hi
  have hlow : t.mem (s.sp + UInt16.ofNat (2 * i)) = s.mem (s.sp + UInt16.ofNat (2 * i)) :=
    hframe _ (not_below_add (by omega))
  have hhigh : t.mem (s.sp + UInt16.ofNat (2 * i + 1)) = s.mem (s.sp + UInt16.ofNat (2 * i + 1)) :=
    hframe _ (not_below_add (by omega))
  rw [UInt16.ofNat_add, ← UInt16.add_assoc] at hhigh
  unfold wordAt
  rw [hlow]
  exact congrArg (wordOf · _) hhigh

/-- All registers but the stack pointer have the same values. -/
structure Alike (s t : Cpu) : Prop where
  a : t.a = s.a
  bc : t.bc = s.bc
  de : t.de = s.de
  hl : t.hl = s.hl
  ix : t.ix = s.ix
  iy : t.iy = s.iy

theorem Alike.refl (s : Cpu) : s.Alike s := ⟨rfl, rfl, rfl, rfl, rfl, rfl⟩

theorem Alike.trans {u : Cpu} (h : s.Alike t) (h' : t.Alike u) : s.Alike u :=
  ⟨h'.a.trans h.a, h'.bc.trans h.bc, h'.de.trans h.de, h'.hl.trans h.hl, h'.ix.trans h.ix,
    h'.iy.trans h.iy⟩

theorem alike_push (s : Cpu) (w : UInt16) : s.Alike (s.push w) := by
  constructor <;> simp

end Cpu

/-! ## Code that puts words on the stack -/

/-- Lines that put words on the stack, the first of them on top.  Of the
    registers only the stack pointer changes, and of the memory only the `k`
    bytes below it, which are those that the lines push. -/
structure Line.Puts (σ : String → UInt16) (ls : List Line) (k : Nat) (ws : List UInt16)
    (c c' : Core) : Prop where
  run : Line.run σ ls c = some c'
  pushed : ∀ x, x ∈ Line.pushed σ ls c ↔ Below c.sp k x
  size : 2 * ws.length ≤ k
  alike : c.Alike c'.toCpu
  sp : c'.sp = c.sp - UInt16.ofNat (2 * ws.length)
  words : c'.HasWords c'.sp ws
  frame : ∀ x, ¬ Below c.sp k x → c'.mem x = c.mem x

namespace Line.Puts

variable {σ : String → UInt16} {p q : List Line} {j k : Nat} {ws ws' : List UInt16}
  {c c₁ c₂ : Core}

theorem nil : Puts σ [] 0 [] c c where
  run := rfl
  pushed x := by simp [Line.pushed]
  size := Nat.le_refl _
  alike := .refl _
  sp := by simp
  words := trivial
  frame _ _ := rfl

/-- A run that ends in a state with one more word on the stack. -/
theorem of_push {w : UInt16} (hrun : Line.run σ p c = some c₁)
    (hpushed : Line.pushed σ p c = [c.sp - 1, c.sp - 2]) (hc : c₁.toCpu = c.toCpu.push w) :
    Puts σ p 2 [w] c c₁ where
  run := hrun
  pushed x := by
    have hbelow := @below_add_two c.sp x 0
    simp only [Nat.zero_add, not_below_zero, or_false] at hbelow
    rw [hpushed, hbelow]
    simp
  size := Nat.le_refl _
  alike := by
    rw [hc]
    exact Cpu.alike_push _ w
  sp := by rw [hc]; rfl
  words := by
    rw [hc]
    exact ⟨c.wordAt_push w, trivial⟩
  frame x hx := by
    have hbelow := @below_add_two c.sp x 0
    simp only [Nat.zero_add, not_below_zero, or_false] at hbelow
    rw [hbelow, not_or] at hx
    rw [hc]
    exact Cpu.mem_push_of_ne hx.1 hx.2

/-- Code that puts words on top of words. -/
theorem append (hp : Puts σ p j ws c c₁) (hq : Puts σ q k ws' c₁ c₂)
    (hroom : k + 2 * ws.length ≤ 65536) :
    Puts σ (p ++ q) (max j (2 * ws.length + k)) (ws' ++ ws) c c₂ := by
  have hsum : ∀ x, Below c.sp (max j (2 * ws.length + k)) x ↔
      Below c.sp j x ∨ Below c₁.sp k x := by
    intro x
    have hadd := @below_add c.sp x (2 * ws.length) k (by omega)
    rw [below_max, hadd, hp.sp]
    -- what the words take is part of what the first lines push
    have hsub : Below c.sp (2 * ws.length) x → Below c.sp j x := fun h => h.mono hp.size
    rw [← or_assoc, or_iff_left_of_imp hsub]
  have hback : c₂.sp + UInt16.ofNat (2 * ws'.length) = c₁.sp := by
    rw [hq.sp]
    grind
  refine ⟨Line.run_trans hp.run hq.run, fun x => ?_, ?_, hp.alike.trans hq.alike, ?_, ?_,
    fun x hx => ?_⟩
  · rw [Line.pushed_append hp.run, List.mem_append, hp.pushed, hq.pushed, hsum]
  · have hsize := hq.size
    rw [List.length_append]
    omega
  · rw [hq.sp, hp.sp, List.length_append, Nat.mul_add, UInt16.ofNat_add]
    grind
  · rw [Cpu.hasWords_append, hback]
    exact ⟨hq.words, hp.words.of_frame hq.frame (by omega)⟩
  · rw [hsum, not_or] at hx
    rw [hq.frame x hx.2, hp.frame x hx.1]

end Line.Puts

end Z80Backend
