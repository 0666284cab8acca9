import Z80Backend.Address.Build

/-! # The machine that address code runs on

    Steps of address code act on registers and memory.  A state holds the
    register pairs as words, the accumulator, and the 64 KiB of memory; flags
    are left out, since no step reads them.  All arithmetic is modulo `2 ^ 16`,
    and so are the immediates that steps carry.

    * `Step.exec` is the action of one step and `Step.run` that of a list.
    * `Step.pushed` lists the addresses that the pushes of a run write.
    * `Below sp k x` says that `x` is one of the `k` bytes right below `sp`,
      counted modulo `2 ^ 16`.
    * `Tidy steps k` says what every piece of address code has in common: only
      `hl` and `de` change, the stack pointer comes back, and memory changes
      only in the `k` bytes below it. -/

namespace Z80Backend

/-! ## Words and bytes -/

/-- The word with the given high and low bytes. -/
def wordOf (high low : UInt8) : UInt16 := UInt16.ofNat (high.toNat * 256 + low.toNat)

/-- The high byte of a word. -/
def highByte (w : UInt16) : UInt8 := UInt8.ofNat (w.toNat / 256)

/-- The low byte of a word. -/
def lowByte (w : UInt16) : UInt8 := UInt8.ofNat w.toNat

@[simp]
theorem highByte_wordOf (h l : UInt8) : highByte (wordOf h l) = h := by
  have hh := h.toNat_lt
  have hl := l.toNat_lt
  rw [← UInt8.toNat_inj]
  simp [highByte, wordOf]
  omega

@[simp]
theorem lowByte_wordOf (h l : UInt8) : lowByte (wordOf h l) = l := by
  have hh := h.toNat_lt
  have hl := l.toNat_lt
  rw [← UInt8.toNat_inj]
  simp [lowByte, wordOf]

@[simp]
theorem wordOf_bytes (w : UInt16) : wordOf (highByte w) (lowByte w) = w := by
  have hw := w.toNat_lt
  rw [← UInt16.toNat_inj]
  simp [highByte, lowByte, wordOf]
  omega

theorem wordOf_zero (b : UInt8) : wordOf 0 b = b.toUInt16 := by
  have hb := b.toNat_lt
  rw [← UInt16.toNat_inj]
  simp [wordOf]

/-- An immediate as a word. -/
def imm (n : Int64) : UInt16 := n.toUInt64.toUInt16

theorem imm_add (m n : Int64) : imm (m + n) = imm m + imm n := UInt64.toUInt16_add _ _

theorem imm_mul (m n : Int64) : imm (m * n) = imm m * imm n := UInt64.toUInt16_mul _ _

@[simp]
theorem imm_zero : imm 0 = 0 := rfl

@[simp]
theorem imm_one : imm 1 = 1 := rfl

/-- An immediate as a byte. -/
def immByte (n : Int64) : UInt8 := n.toUInt64.toUInt8

@[simp]
theorem immByte_zero : immByte 0 = 0 := rfl

/-- The address of a symbol.  The empty name stands for no symbol. -/
def symbolAddr (σ : String → UInt16) (name : String) : UInt16 :=
  if name = "" then 0 else σ name

/-! ## States -/

/-- The registers and the memory. -/
structure Cpu where
  a : UInt8
  bc : UInt16
  de : UInt16
  hl : UInt16
  ix : UInt16
  iy : UInt16
  sp : UInt16
  mem : UInt16 → UInt8

namespace Cpu

/-- The value of an 8-bit register. -/
def byte (s : Cpu) : Reg8 → UInt8
  | .a => s.a
  | .b => highByte s.bc
  | .c => lowByte s.bc
  | .d => highByte s.de
  | .e => lowByte s.de
  | .h => highByte s.hl
  | .l => lowByte s.hl

/-- Sets an 8-bit register. -/
def setByte (s : Cpu) (r : Reg8) (v : UInt8) : Cpu :=
  match r with
  | .a => { s with a := v }
  | .b => { s with bc := wordOf v (lowByte s.bc) }
  | .c => { s with bc := wordOf (highByte s.bc) v }
  | .d => { s with de := wordOf v (lowByte s.de) }
  | .e => { s with de := wordOf (highByte s.de) v }
  | .h => { s with hl := wordOf v (lowByte s.hl) }
  | .l => { s with hl := wordOf (highByte s.hl) v }

/-- The value of a pair. -/
def word (s : Cpu) : WordReg → UInt16
  | .bc => s.bc
  | .de => s.de
  | .hl => s.hl

/-- Sets a pair. -/
def setWord (s : Cpu) (r : WordReg) (v : UInt16) : Cpu :=
  match r with
  | .bc => { s with bc := v }
  | .de => { s with de := v }
  | .hl => { s with hl := v }

/-- The index register with the given name, in any case; `ix` unless it is `iy`. -/
def indexReg (s : Cpu) (name : String) : UInt16 := if Text.lower name = "iy" then s.iy else s.ix

@[simp]
theorem indexReg_ix (s : Cpu) : s.indexReg "ix" = s.ix := if_neg (by decide)

/-- The pointer that a name in parentheses is read as, in any case. -/
def pointer? (s : Cpu) (name : String) : Option UInt16 :=
  match Text.lower name with
  | "hl" => some s.hl
  | "bc" => some s.bc
  | "de" => some s.de
  | "ix" => some s.ix
  | "iy" => some s.iy
  | _ => none

/-- The word that `push` takes from a register; the flags of `af` are zero. -/
def stacked (s : Cpu) : StackReg → UInt16
  | .bc => s.bc
  | .de => s.de
  | .hl => s.hl
  | .af => wordOf s.a 0
  | .index .ix => s.ix
  | .index .iy => s.iy

/-- Sets the register that `pop` names. -/
def setStacked (s : Cpu) (r : StackReg) (v : UInt16) : Cpu :=
  match r with
  | .bc => { s with bc := v }
  | .de => { s with de := v }
  | .hl => { s with hl := v }
  | .af => { s with a := highByte v }
  | .index .ix => { s with ix := v }
  | .index .iy => { s with iy := v }

/-- Writes one byte of memory. -/
def store (s : Cpu) (x : UInt16) (v : UInt8) : Cpu :=
  { s with mem := fun y => if y = x then v else s.mem y }

/-- The word at an address, low byte first. -/
def wordAt (s : Cpu) (x : UInt16) : UInt16 := wordOf (s.mem (x + 1)) (s.mem x)

/-- Puts a word on the stack. -/
def push (s : Cpu) (w : UInt16) : Cpu :=
  { (s.store (s.sp - 1) (highByte w)).store (s.sp - 2) (lowByte w) with sp := s.sp - 2 }

/-- Takes a word off the stack and into a register. -/
def pop (s : Cpu) (r : StackReg) : Cpu :=
  { s with sp := s.sp + 2 }.setStacked r (s.wordAt s.sp)

/-- The registers that address code leaves alone have the same values. -/
structure Keeps (s t : Cpu) : Prop where
  a : t.a = s.a
  bc : t.bc = s.bc
  ix : t.ix = s.ix
  iy : t.iy = s.iy
  sp : t.sp = s.sp

theorem Keeps.refl (s : Cpu) : s.Keeps s := ⟨rfl, rfl, rfl, rfl, rfl⟩

theorem Keeps.trans {s t u : Cpu} (h : s.Keeps t) (h' : t.Keeps u) : s.Keeps u :=
  ⟨h'.a.trans h.a, h'.bc.trans h.bc, h'.ix.trans h.ix, h'.iy.trans h.iy, h'.sp.trans h.sp⟩

end Cpu

/-! ## Steps -/

namespace MemRef

/-- The address that a memory reference names.  Words are moved from and to it. -/
def addr (σ : String → UInt16) (s : Cpu) : MemRef → UInt16
  | .hl => s.hl
  | .indexed r d => s.indexReg r + imm d
  | .symbol name off => symbolAddr σ name + imm off
  | .address n => imm n

/-- The address that a byte is moved from or to.  A symbol named like a pointer is
    written as the pointer is, and bytes are moved through it; there is no such
    instruction for words. -/
def byteAddr (σ : String → UInt16) (s : Cpu) : MemRef → UInt16
  | .symbol name off => (s.pointer? name).getD (symbolAddr σ name) + imm off
  | m => m.addr σ s

variable {σ : String → UInt16} {s : Cpu}

@[simp]
theorem byteAddr_hl : hl.byteAddr σ s = s.hl := rfl

@[simp]
theorem byteAddr_indexed (r : String) (d : Int64) :
    (indexed r d).byteAddr σ s = s.indexReg r + imm d := rfl

/-- The names that are read as pointers where they stand in parentheses. -/
def pointerNames : List String := ["hl", "bc", "de", "ix", "iy"]

theorem byteAddr_symbol {name : String} (h : Text.lower name ∉ pointerNames) (off : Int64) :
    (symbol name off).byteAddr σ s = symbolAddr σ name + imm off := by
  have hnone : s.pointer? name = none := by
    unfold Cpu.pointer?
    split <;> simp_all [pointerNames]
  rw [byteAddr, hnone]
  rfl

end MemRef

namespace Step

/-- The action of one step. -/
def exec (σ : String → UInt16) (s : Cpu) : Step → Cpu
  | push r => s.push (s.stacked r)
  | pop r => s.pop r
  | ldReg dst src => s.setByte dst (s.byte src)
  | ldByte dst n => s.setByte dst (immByte n)
  | ldWord dst n => s.setWord dst (imm n)
  | ldSym dst sym off => s.setWord dst (symbolAddr σ sym + imm off)
  | loadByte dst m => s.setByte dst (s.mem (m.byteAddr σ s))
  | loadWord dst m => s.setWord dst (s.wordAt (m.addr σ s))
  | storeByte m src => s.store (m.byteAddr σ s) (s.byte src)
  | storeWord m src =>
    (s.store (m.addr σ s) (lowByte (s.word src))).store (m.addr σ s + 1) (highByte (s.word src))
  | exDEHL => { s with de := s.hl, hl := s.de }
  | addHL src => { s with hl := s.hl + s.word src }
  | inc r => s.setWord r (s.word r + 1)

/-- The action of steps in order. -/
def run (σ : String → UInt16) (steps : List Step) (s : Cpu) : Cpu := steps.foldl (exec σ) s

/-- The addresses that the pushes of a run write. -/
def pushed (σ : String → UInt16) : List Step → Cpu → List UInt16
  | [], _ => []
  | st :: steps, s =>
    (match st with
      | push _ => [s.sp - 1, s.sp - 2]
      | _ => []) ++ pushed σ steps (exec σ s st)

variable {σ : String → UInt16}

@[simp]
theorem run_nil (s : Cpu) : run σ [] s = s := rfl

@[simp]
theorem run_cons (st : Step) (steps : List Step) (s : Cpu) :
    run σ (st :: steps) s = run σ steps (exec σ s st) := rfl

@[simp]
theorem run_append (p q : List Step) (s : Cpu) : run σ (p ++ q) s = run σ q (run σ p s) :=
  List.foldl_append

/-- Code between a push and a pop. -/
theorem run_saved (p : List Step) (r r' : StackReg) (s : Cpu) :
    run σ ([push r] ++ p ++ [pop r']) s = (run σ p (s.push (s.stacked r))).pop r' := by
  simp only [run_append, run_cons, run_nil, exec]

theorem pushed_append (p q : List Step) (s : Cpu) :
    pushed σ (p ++ q) s = pushed σ p s ++ pushed σ q (run σ p s) := by
  induction p generalizing s with
  | nil => rfl
  | cons st p ih =>
    show _ ++ pushed σ (p ++ q) (exec σ s st) = _
    rw [ih]
    simp only [run_cons, pushed, List.append_assoc]

end Step

/-! ## The bytes below the stack pointer -/

/-- Is `x` one of the `k` bytes right below `sp`? -/
def Below (sp : UInt16) (k : Nat) (x : UInt16) : Prop := (sp - 1 - x).toNat < k

instance (sp : UInt16) (k : Nat) (x : UInt16) : Decidable (Below sp k x) :=
  inferInstanceAs (Decidable (_ < _))

section

variable {sp x : UInt16} {j k : Nat}

@[simp]
theorem not_below_zero : ¬ Below sp 0 x := Nat.not_lt_zero _

theorem Below.mono (h : Below sp j x) (hjk : j ≤ k) : Below sp k x := Nat.lt_of_lt_of_le h hjk

theorem below_max : Below sp (max j k) x ↔ Below sp j x ∨ Below sp k x := by
  unfold Below
  omega

/-- The first two bytes below the stack pointer, and those below them. -/
theorem below_add_two :
    Below sp (k + 2) x ↔ x = sp - 1 ∨ x = sp - 2 ∨ Below (sp - 2) k x := by
  have hx := x.toNat_lt
  have hs := sp.toNat_lt
  unfold Below
  rw [← UInt16.toNat_inj, ← UInt16.toNat_inj]
  simp only [UInt16.toNat_sub, UInt16.reduceToNat]
  omega

/-- Bytes are left over only if there are fewer than `2 ^ 16` of them. -/
theorem lt_of_not_below (h : ¬ Below sp k x) : k < 65536 := by
  have hlt := (sp - 1 - x).toNat_lt
  unfold Below at h
  omega

/-- What lies below a pushed word does not reach round to it. -/
theorem not_below_pushed (hk : k + 2 ≤ 65536) :
    ¬ Below (sp - 2) k (sp - 1) ∧ ¬ Below (sp - 2) k (sp - 2) := by
  have hs := sp.toNat_lt
  unfold Below
  simp only [UInt16.toNat_sub, UInt16.reduceToNat]
  omega

/-- As long as the bytes do not wrap round, they have smaller addresses. -/
theorem Below.lt (h : Below sp k x) (hk : k ≤ sp.toNat) : x < sp := by
  have hx := x.toNat_lt
  have hs := sp.toNat_lt
  unfold Below at h
  rw [UInt16.lt_iff_toNat_lt]
  simp only [UInt16.toNat_sub, UInt16.reduceToNat] at h
  omega

end

namespace Cpu

@[simp]
theorem sp_push (s : Cpu) (w : UInt16) : (s.push w).sp = s.sp - 2 := rfl

@[simp]
theorem a_push (s : Cpu) (w : UInt16) : (s.push w).a = s.a := by simp [push, store]

@[simp]
theorem bc_push (s : Cpu) (w : UInt16) : (s.push w).bc = s.bc := by simp [push, store]

@[simp]
theorem de_push (s : Cpu) (w : UInt16) : (s.push w).de = s.de := by simp [push, store]

@[simp]
theorem hl_push (s : Cpu) (w : UInt16) : (s.push w).hl = s.hl := by simp [push, store]

@[simp]
theorem ix_push (s : Cpu) (w : UInt16) : (s.push w).ix = s.ix := by simp [push, store]

@[simp]
theorem iy_push (s : Cpu) (w : UInt16) : (s.push w).iy = s.iy := by simp [push, store]

@[simp]
theorem word_push (s : Cpu) (w : UInt16) : (s.push w).word = s.word := by
  funext r
  cases r <;> simp [word]

/-- What a register gives to the stack does not depend on the stack. -/
@[simp]
theorem stacked_push (s : Cpu) (w : UInt16) (r : StackReg) :
    (s.push w).stacked r = s.stacked r := by
  cases r with
  | index x => cases x <;> simp [stacked]
  | bc | de | hl | af => simp [stacked]

/-- A push writes the two bytes below the stack pointer. -/
theorem mem_push_of_ne {s : Cpu} {w x : UInt16} (h1 : x ≠ s.sp - 1) (h2 : x ≠ s.sp - 2) :
    (s.push w).mem x = s.mem x := by
  simp [push, store, h1, h2]

/-- A pushed word stands at the new stack pointer. -/
theorem wordAt_push (s : Cpu) (w : UInt16) : (s.push w).wordAt (s.sp - 2) = w := by
  have hadd : s.sp - 2 + 1 = s.sp - 1 := by grind
  have hne : s.sp - 1 ≠ s.sp - 2 := by grind
  simp [wordAt, push, store, hadd, hne]

end Cpu

/-! ## Tidy code -/

/-- Code that changes only `hl`, `de` and the `k` bytes below the stack
    pointer, which its pushes write. -/
structure Tidy (steps : List Step) (k : Nat) : Prop where
  keeps : ∀ σ (s : Cpu), s.Keeps (Step.run σ steps s)
  mem_pushed : ∀ σ (s : Cpu) x, x ∈ Step.pushed σ steps s ↔ Below s.sp k x
  frame : ∀ σ (s : Cpu) x, ¬ Below s.sp k x → (Step.run σ steps s).mem x = s.mem x

/-- Steps that change `hl` and `de` only. -/
def Step.isQuiet : Step → Bool
  | push _ | pop _ | storeByte .. | storeWord .. => false
  | ldReg dst _ | ldByte dst _ | loadByte dst _ => dst ∈ [Reg8.d, .e, .h, .l]
  | ldWord dst _ | ldSym dst _ _ | loadWord dst _ | inc dst => dst ≠ WordReg.bc
  | exDEHL | addHL _ => true

namespace Tidy

variable {p q : List Step} {j k : Nat}

theorem nil : Tidy [] 0 where
  keeps _ s := .refl s
  mem_pushed _ _ _ := by simp [Step.pushed]
  frame _ _ _ _ := rfl

/-- Any step that is not on the list of exceptions works in `hl` and `de`. -/
theorem exec_of_isQuiet {st : Step} (h : st.isQuiet = true) (σ : String → UInt16) (s : Cpu) :
    s.Keeps (st.exec σ s) ∧ (st.exec σ s).mem = s.mem ∧ Step.pushed σ [st] s = [] := by
  cases st with
  | push r | pop r => simp [Step.isQuiet] at h
  | storeByte m r | storeWord m r => simp [Step.isQuiet] at h
  | exDEHL | addHL r => exact ⟨⟨rfl, rfl, rfl, rfl, rfl⟩, rfl, rfl⟩
  | ldReg dst r | ldByte dst r | loadByte dst r =>
    cases dst <;> simp [Step.isQuiet] at h <;> exact ⟨⟨rfl, rfl, rfl, rfl, rfl⟩, rfl, rfl⟩
  | ldWord dst n | ldSym dst n o | loadWord dst n | inc dst =>
    cases dst <;> simp [Step.isQuiet] at h <;> exact ⟨⟨rfl, rfl, rfl, rfl, rfl⟩, rfl, rfl⟩

theorem step {st : Step} (h : st.isQuiet = true) : Tidy [st] 0 where
  keeps σ s := (exec_of_isQuiet h σ s).1
  mem_pushed σ s x := by rw [(exec_of_isQuiet h σ s).2.2]; simp
  frame σ s x _ := congrFun (exec_of_isQuiet h σ s).2.1 x

theorem append (hp : Tidy p j) (hq : Tidy q k) : Tidy (p ++ q) (max j k) where
  keeps σ s := by
    rw [Step.run_append]
    exact (hp.keeps σ s).trans (hq.keeps σ _)
  mem_pushed σ s x := by
    rw [Step.pushed_append, List.mem_append, hp.mem_pushed, hq.mem_pushed, (hp.keeps σ s).sp,
      below_max]
  frame σ s x hx := by
    rw [below_max, not_or] at hx
    have hsp := (hp.keeps σ s).sp
    rw [Step.run_append, hq.frame σ _ x (by rw [hsp]; exact hx.2), hp.frame σ s x hx.1]

/-- Code without stack adds nothing to what is used before it. -/
theorem append_zero (hp : Tidy p k) (hq : Tidy q 0) : Tidy (p ++ q) k := by
  have h := hp.append hq
  rwa [Nat.max_eq_left (Nat.zero_le k)] at h

/-- Quiet steps use no stack. -/
theorem quiet (h : ∀ st ∈ p, st.isQuiet = true) : Tidy p 0 := by
  induction p with
  | nil => exact nil
  | cons st p ih =>
    have hst : Tidy [st] 0 := step (h st (List.mem_cons_self ..))
    exact hst.append (ih fun st' hst' => h st' (List.mem_cons_of_mem _ hst'))

/-- A word on the stack is still there after tidy code that leaves room for
    it. -/
theorem wordAt_sp (hp : Tidy p k) (hk : k + 2 ≤ 65536) (σ : String → UInt16) (s : Cpu)
    (w : UInt16) : (Step.run σ p (s.push w)).wordAt (Step.run σ p (s.push w)).sp = w := by
  obtain ⟨htop, hbot⟩ : ¬ Below (s.sp - 2) k (s.sp - 1) ∧ ¬ Below (s.sp - 2) k (s.sp - 2) :=
    not_below_pushed hk
  have hadd : s.sp - 2 + 1 = s.sp - 1 := by grind
  rw [(hp.keeps σ (s.push w)).sp, Cpu.sp_push]
  show wordOf ((Step.run σ p (s.push w)).mem (s.sp - 2 + 1))
    ((Step.run σ p (s.push w)).mem (s.sp - 2)) = w
  rw [hadd, hp.frame σ (s.push w) _ htop, hp.frame σ (s.push w) _ hbot, ← hadd]
  exact s.wordAt_push w

/-- Tidy code between a push and a pop. -/
theorem saved (hp : Tidy p k) (r : StackReg) {r' : StackReg} (hr : r' = .hl ∨ r' = .de) :
    Tidy ([Step.push r] ++ p ++ [Step.pop r']) (k + 2) where
  keeps σ s := by
    obtain ⟨ha, hbc, hix, hiy, hsp⟩ := hp.keeps σ (s.push (s.stacked r))
    have hback : (Step.run σ p (s.push (s.stacked r))).sp + 2 = s.sp := by
      rw [hsp, Cpu.sp_push]
      grind
    rw [Step.run_saved]
    rcases hr with rfl | rfl
    · exact ⟨ha, hbc, hix, hiy, hback⟩
    · exact ⟨ha, hbc, hix, hiy, hback⟩
  mem_pushed σ s x := by
    have hp' : x ∈ Step.pushed σ p (s.push (s.stacked r)) ↔ Below (s.sp - 2) k x :=
      hp.mem_pushed σ (s.push (s.stacked r)) x
    rw [below_add_two, ← hp']
    simp [Step.pushed_append, Step.pushed, Step.exec]
  frame σ s x hx := by
    rw [below_add_two, not_or, not_or] at hx
    have hmem : (Step.run σ p (s.push (s.stacked r))).mem x = s.mem x := by
      rw [hp.frame σ (s.push (s.stacked r)) x hx.2.2, Cpu.mem_push_of_ne hx.1 hx.2.1]
    rw [Step.run_saved]
    rcases hr with rfl | rfl
    · exact hmem
    · exact hmem

end Tidy

end Z80Backend
