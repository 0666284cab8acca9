import Z80Backend.Proofs.Address.Machine

/-! # What bases and indexes mean

    The meaning of an address expression, told without its code.  A base is an
    address, an index is a value, and both are read off one state: the base
    plus the index times the scale is the effective address.

    An index may be the value stored at another effective address, to any
    depth.  `IndexTree` is the expression before the inner addresses are built,
    and `IndexTree.index` builds them from the inside out.

    * `Base.address` and `IndexTree.value` are the meanings.
    * `Base.cells` and `IndexTree.cells` are the memory cells consulted on the
      way.
    * `Base.congr` and `IndexTree.congr`: states that agree on the registers
      read and the cells consulted give the same meanings. -/

namespace Z80Backend

/-! ## Values in memory -/

/-- The byte or the word at an address. -/
def Cpu.read (s : Cpu) (isByte : Bool) (x : UInt16) : UInt16 :=
  if isByte then (s.mem x).toUInt16 else s.wordAt x

/-- The cells of a byte or a word at an address. -/
def cellsAt (isByte : Bool) (x : UInt16) : List UInt16 := if isByte then [x] else [x, x + 1]

/-- Cells are told apart one by one; to go through all addresses would take too
    long. -/
theorem not_mem_of_all {xs ys : List UInt16} (h : (xs.all fun x => !ys.contains x) = true) :
    ∀ x ∈ xs, x ∉ ys := by
  intro x hx hy
  have hout := List.all_eq_true.mp h x hx
  simp [hy] at hout

theorem Cpu.read_congr {s t : Cpu} {isByte : Bool} {x : UInt16}
    (h : ∀ y ∈ cellsAt isByte x, t.mem y = s.mem y) : t.read isByte x = s.read isByte x := by
  cases isByte with
  | true => simp [read, h x (by simp [cellsAt])]
  | false => simp [read, wordAt, h x (by simp [cellsAt]), h (x + 1) (by simp [cellsAt])]

/-- The value of the 16-bit register with the given name. -/
def Cpu.named (s : Cpu) (name : String) : UInt16 :=
  match name with
  | "hl" => s.hl
  | "de" => s.de
  | "bc" => s.bc
  | "ix" => s.ix
  | "iy" => s.iy
  | _ => 0

/-- A register is found under its own name. -/
theorem Reg8.text_of_ofName? {name : String} {r : Reg8} (h : Reg8.ofName? name = some r) :
    r.text = name := by
  have hr := List.find?_some h
  simpa using hr

/-! ## Bases -/

namespace Base

/-- The address of a base.  Origins that have no name have no address; they
    are never built. -/
def address (σ : String → UInt16) (s : Cpu) (b : Base) : UInt16 :=
  (match b.origin with
    | .global sym => symbolAddr σ sym
    | .frame d => s.ix + imm d
    | .pointer d => s.wordAt (s.ix + imm d)
    | .reg name => ((WordReg.ofName? name).map s.word).getD 0
    | .unknown _ => 0) + imm b.offset

/-- The cells that a base consults. -/
def cells (s : Cpu) (b : Base) : List UInt16 :=
  match b.origin with
  | .pointer d => cellsAt false (s.ix + imm d)
  | _ => []

/-- A base depends on `ix` and its cells, and on a pair if it is one. -/
theorem congr {b : Base} {σ : String → UInt16} {s t : Cpu} (hix : t.ix = s.ix)
    (hreg : ∀ name, b.origin = .reg name → t.word = s.word)
    (hmem : ∀ x ∈ b.cells s, t.mem x = s.mem x) :
    b.address σ t = b.address σ s ∧ b.cells t = b.cells s := by
  obtain ⟨o, off⟩ := b
  cases o with
  | global sym => exact ⟨rfl, rfl⟩
  | unknown k => exact ⟨rfl, rfl⟩
  | frame d => simp [address, cells, hix]
  | reg name => simp [address, cells, hreg name rfl]
  | pointer d =>
    have hword : t.read false (s.ix + imm d) = s.read false (s.ix + imm d) :=
      Cpu.read_congr hmem
    simp only [Cpu.read, Bool.false_eq_true, if_false] at hword
    simp [address, cells, hix, hword]

end Base

/-! ## Indexes -/

/-- An index, with inner addresses as expressions. -/
inductive IndexTree where
  | none
  | const (n : Int64)
  | reg8 (name : String)
  | reg16 (name : String)
  | global (sym : String) (off : Int64) (isByte : Bool)
  | slot (disp : Int64) (isByte : Bool)
  | memHL
  | memIndexed (reg : String) (disp : Int64)
  /-- The value stored at a base plus an index times a scale. -/
  | element (b : Base) (i : IndexTree) (scale : Int64) (isByte : Bool)
  deriving Repr

namespace IndexTree

/-- The index with its inner addresses built. -/
def index : IndexTree → Except AddressError Index
  | none => .ok .none
  | const n => .ok (.const n)
  | reg8 name => .ok (.reg8 name)
  | reg16 name => .ok (.reg16 name)
  | global sym off isByte => .ok (.global sym off isByte)
  | slot d isByte => .ok (.slot d isByte)
  | memHL => .ok .memHL
  | memIndexed reg d => .ok (.memIndexed reg d)
  | element b i scale isByte => do
    let a ← Address.build b (← i.index) scale
    return .stored a isByte

/-- An element is built from the inside out. -/
theorem index_element {b : Base} {e : IndexTree} {scale : Int64} {isByte : Bool} {i : Index}
    (h : (element b e scale isByte).index = .ok i) :
    ∃ j a, e.index = .ok j ∧ Address.build b j scale = .ok a ∧ i = .stored a isByte := by
  unfold index at h
  cases hj : e.index with
  | error err =>
    rw [hj] at h
    exact nomatch h
  | ok j =>
    cases ha : Address.build b j scale with
    | error err =>
      simp only [hj, bind, Except.bind, ha] at h
      exact nomatch h
    | ok a =>
      simp only [hj, bind, Except.bind, ha, pure, Except.pure] at h
      cases h
      exact ⟨j, a, rfl, ha, rfl⟩

/-- The value of an index.  No index counts as zero, and so do names of
    registers that do not exist; those are never built. -/
def value (σ : String → UInt16) (s : Cpu) : IndexTree → UInt16
  | none => 0
  | const n => imm n
  | reg8 name => ((Reg8.ofName? name).map fun r => (s.byte r).toUInt16).getD 0
  | reg16 name => s.named name
  | global sym off isByte => s.read isByte (symbolAddr σ sym + imm off)
  | slot d isByte => s.read isByte (s.ix + imm d)
  | memHL => s.read true s.hl
  | memIndexed reg d => s.read true (s.indexReg reg + imm d)
  | element b i scale isByte => s.read isByte (b.address σ s + i.value σ s * imm scale)

/-- The cells that an index consults. -/
def cells (σ : String → UInt16) (s : Cpu) : IndexTree → List UInt16
  | global sym off isByte => cellsAt isByte (symbolAddr σ sym + imm off)
  | slot d isByte => cellsAt isByte (s.ix + imm d)
  | memHL => cellsAt true s.hl
  | memIndexed reg d => cellsAt true (s.indexReg reg + imm d)
  | element b i scale isByte =>
    b.cells s ++ i.cells σ s ++ cellsAt isByte (b.address σ s + i.value σ s * imm scale)
  | _ => []

/-- May the value depend on `hl`?  An inner address is taken to read all
    registers. -/
def readsHL : IndexTree → Bool
  | reg8 name => name = "h" || name = "l"
  | reg16 name => name = "hl"
  | memHL | element .. => true
  | _ => false

/-- May the value depend on `de`? -/
def readsDE : IndexTree → Bool
  | reg8 name => name = "d" || name = "e"
  | reg16 name => name = "de"
  | element .. => true
  | _ => false

/-- An index depends on the registers it reads and the cells it consults. -/
theorem congr (e : IndexTree) {σ : String → UInt16} {s t : Cpu}
    (ha : t.a = s.a) (hbc : t.bc = s.bc) (hix : t.ix = s.ix) (hiy : t.iy = s.iy)
    (hhl : e.readsHL = true → t.hl = s.hl) (hde : e.readsDE = true → t.de = s.de)
    (hmem : ∀ x ∈ e.cells σ s, t.mem x = s.mem x) :
    e.value σ t = e.value σ s ∧ e.cells σ t = e.cells σ s := by
  induction e with
  | none | const n => exact ⟨rfl, rfl⟩
  | global sym off isByte => exact ⟨Cpu.read_congr hmem, rfl⟩
  | reg8 name =>
    refine ⟨?_, rfl⟩
    unfold value
    cases hr : Reg8.ofName? name with
    | none => rfl
    | some r =>
      have hname := Reg8.text_of_ofName? hr
      subst hname
      have hbyte : t.byte r = s.byte r := by
        cases r <;> simp_all [Cpu.byte, readsHL, readsDE, Reg8.text]
      simp [hbyte]
  | reg16 name =>
    refine ⟨?_, rfl⟩
    show t.named name = s.named name
    unfold Cpu.named
    split <;> simp_all [readsHL, readsDE]
  | slot d isByte =>
    unfold value cells
    rw [hix]
    exact ⟨Cpu.read_congr hmem, rfl⟩
  | memHL =>
    unfold value cells
    rw [hhl rfl]
    exact ⟨Cpu.read_congr hmem, rfl⟩
  | memIndexed reg d =>
    have hreg : t.indexReg reg = s.indexReg reg := by simp [Cpu.indexReg, hix, hiy]
    unfold value cells
    rw [hreg]
    exact ⟨Cpu.read_congr hmem, rfl⟩
  | element b i scale isByte ih =>
    -- an inner address is taken to read every register, so all of them agree
    have hhl' : t.hl = s.hl := hhl rfl
    have hde' : t.de = s.de := hde rfl
    have hword : t.word = s.word := by
      funext r
      cases r <;> simp [Cpu.word, hbc, hde', hhl']
    simp only [cells, List.mem_append] at hmem
    obtain ⟨hb, hbcells⟩ : b.address σ t = b.address σ s ∧ b.cells t = b.cells s :=
      Base.congr hix (fun _ _ => hword) fun x hx => hmem x (.inl (.inl hx))
    obtain ⟨hi, hicells⟩ := ih (fun _ => hhl') (fun _ => hde') fun x hx =>
      hmem x (.inl (.inr hx))
    unfold value cells
    rw [hb, hi, hbcells, hicells]
    exact ⟨Cpu.read_congr fun x hx => hmem x (.inr hx), rfl⟩

end IndexTree

end Z80Backend
