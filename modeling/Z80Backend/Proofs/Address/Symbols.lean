import Z80Backend.Proofs.Address.Steps
import Z80Backend.Proofs.Assembly.Names

/-! # Symbols of address code

    Address code waits for the symbols of storage and for nothing else.  So
    where no storage is named like a generated label, neither an address nor
    the code that loads or stores through it waits for one.

    * `Address.IsPlain` says it of an address, and `Place.isPlain_of_resolve`
      that addresses are so.
    * `Address.allPlain_load` and `Address.allPlain_store`: then the code of an
      access is plain as well. -/

namespace Z80Backend

/-! ## Steps -/

/-- The names that a memory reference takes its address from. -/
def MemRef.names : MemRef → List String
  | indexed r _ => [r]
  | symbol s _ => [s]
  | hl | address _ => []

/-- The names that a step can wait for.  A byte that is loaded from a symbol goes
    to `a`: for other registers there is no such instruction. -/
def Step.names : Step → List String
  | ldSym _ s _ => [s]
  | loadByte dst m => if dst = .a then m.names else []
  | loadWord _ m | storeByte m _ | storeWord m _ => m.names
  | _ => []

/-- No step of the code can wait for a generated label. -/
def Step.AllPlain (steps : List Step) : Prop :=
  ∀ t ∈ steps, ∀ x ∈ t.names, Label.isGenerated x = false

namespace Step

@[simp] theorem allPlain_nil : AllPlain [] := by simp [AllPlain]

@[simp] theorem allPlain_cons {t : Step} {ts : List Step} :
    AllPlain (t :: ts) ↔ (∀ x ∈ t.names, Label.isGenerated x = false) ∧ AllPlain ts := by
  simp [AllPlain]

@[simp] theorem allPlain_append {ts us : List Step} :
    AllPlain (ts ++ us) ↔ AllPlain ts ∧ AllPlain us := by
  simp [AllPlain, or_imp, forall_and]

/-- Slots of the frame are reached by `ix`. -/
@[simp] theorem names_slot (d : Int64) {x : String} (h : x ∈ (MemRef.slot d).names) :
    Label.isGenerated x = false := by
  obtain rfl := List.mem_singleton.mp h
  decide

theorem names_operand {m : MemRef} {x : String} (h : x ∈ m.operand.names) :
    x = "hl" ∨ x ∈ m.names := by
  cases m <;> simp_all [MemRef.operand, MemRef.names]

/-- A step that names no generated label is plain. -/
theorem isPlain_of_names {t : Step} (h : ∀ x ∈ t.names, Label.isGenerated x = false) :
    t.instruction.IsPlain := by
  have hstack : ∀ r : StackReg, Label.isGenerated r.text = false := by
    intro r
    cases r with
    | index x => cases x <;> decide
    | bc | de | hl | af => decide
  have hbyte : ∀ r : Reg8, Label.isGenerated r.text = false := by
    intro r
    cases r <;> decide
  have hword : ∀ r : WordReg, Label.isGenerated r.text = false := by
    intro r
    cases r <;> decide
  have hhl : Label.isGenerated "hl" = false := by decide
  have hde : Label.isGenerated "de" = false := by decide
  have hmem : ∀ {m : MemRef}, (∀ x ∈ m.names, Label.isGenerated x = false) →
      ∀ x ∈ m.operand.names, Label.isGenerated x = false := by
    intro m hm x hx
    rcases names_operand hx with rfl | hx
    · exact hhl
    · exact hm x hx
  by_cases hload : ∃ dst m, t = loadByte dst m ∧ dst ≠ .a
  · obtain ⟨dst, m, rfl, hdst⟩ := hload
    exact .load hdst m.operand
  apply Instruction.IsPlain.of_names
  cases t with
  | push r | pop r => simp [instruction, hstack]
  | ldReg dst src => simp [instruction, hbyte]
  | ldByte dst n => simp [instruction, hbyte]
  | ldWord dst n => simp [instruction, hword]
  | ldSym dst s off =>
    have hs : Label.isGenerated s = false := h s List.mem_cons_self
    simp [instruction, hword, hs]
  | loadByte dst m =>
    by_cases hdst : dst = .a
    · have hm : ∀ x ∈ m.names, Label.isGenerated x = false := by simpa [names, hdst] using h
      simpa [instruction, hbyte] using hmem hm
    · exact absurd ⟨dst, m, rfl, hdst⟩ hload
  | loadWord dst m => simpa [instruction, hword] using hmem h
  | storeByte m src => simpa [instruction, or_imp, forall_and, hbyte] using hmem h
  | storeWord m src => simpa [instruction, or_imp, forall_and, hword] using hmem h
  | exDEHL => simp [instruction, hde, hhl]
  | addHL src => simp [instruction, hhl, hword]
  | inc r => simp [instruction, hword]

theorem AllPlain.instruction {steps : List Step} (h : AllPlain steps) :
    ∀ i ∈ steps.map (·.instruction), i.IsPlain := by
  intro i hi
  obtain ⟨t, ht, rfl⟩ := List.mem_map.mp hi
  exact isPlain_of_names (h t ht)

end Step

/-! ## Addresses -/

/-- Address code within symbols that are no generated labels is plain. -/
theorem Step.AllWithin.allPlain {steps : List Step}
    (h : AllWithin (Label.isGenerated · = false) steps) : AllPlain steps := by
  intro t ht x hx
  have hwithin := h t ht
  cases t with
  | loadByte dst m => simp [names, hwithin.1] at hx
  | ldSym dst s off =>
    obtain rfl := List.mem_singleton.mp hx
    exact hwithin
  | loadWord dst m =>
    cases m with
    | symbol s off =>
      obtain rfl := List.mem_singleton.mp hx
      exact hwithin
    | address n => cases hx
    | hl | indexed r d => exact hwithin.elim
  | storeByte m src | storeWord m src => exact hwithin.elim
  | push r | pop r | ldReg dst src | ldByte dst n | ldWord dst n | exDEHL | addHL src | inc r =>
    cases hx

/-- Neither the address nor the code that computes it waits for a generated
    label. -/
def Address.IsPlain (a : Address) : Prop := a.Within (Label.isGenerated · = false)

/-- No storage in scope has a generated label for a symbol. -/
def Scope.IsPlain (scope : Scope) : Prop :=
  ∀ name st sym, scope name = some st → st.home = .global sym → Label.isGenerated sym = false

/-- The address of a place is plain where storage is. -/
theorem Place.isPlain_of_resolve {scope : Scope} (hscope : scope.IsPlain) {r : Resolver}
    {p : Place} {x : Resolved} (h : p.resolve scope r = .ok x) : x.address.IsPlain :=
  within_of_resolve (fun n _ => hscope n) h

/-! ## Access -/

namespace Address

theorem plain_mem {a : Address} (ha : a.IsPlain) (k : Int64) :
    ∀ x ∈ (a.mem k).names, Label.isGenerated x = false := by
  intro x hx
  cases a with
  | frame d => exact Step.names_slot _ hx
  | absolute s off =>
    rw [mem] at hx
    split at hx
    · cases hx
    · obtain rfl := List.mem_singleton.mp hx
      exact ha
  | computed steps => cases hx

theorem allPlain_loadByte {a : Address} (ha : a.IsPlain) (r : Reg8) :
    Step.AllPlain (loadByte r a) := by
  have hmem := plain_mem ha 0
  unfold loadByte
  split
  · cases r with
    | a => simpa [Step.names] using hmem
    | b | c | d | e | h | l => simp [Step.names]
  · split <;> simpa [Step.names] using hmem
  · cases r <;> simp [Step.names, MemRef.names]
  · rename_i steps _
    have hsteps : Step.AllPlain steps := Step.AllWithin.allPlain ha
    cases r <;> simp [loadByteVia, Step.names, MemRef.names, hsteps]

theorem allPlain_storeByte {a : Address} (ha : a.IsPlain) (r : Reg8) :
    Step.AllPlain (storeByte a r) := by
  have hmem := plain_mem ha 0
  unfold storeByte
  split
  · simpa [Step.names] using hmem
  · split <;> simpa [Step.names] using hmem
  · rename_i steps
    have hsteps : Step.AllPlain steps := Step.AllWithin.allPlain ha
    split
    · simp [Step.names, MemRef.names]
    · cases r <;> simp [storeByteVia, Step.names, MemRef.names, hsteps]

theorem allPlain_loadWordVia {steps : List Step} (h : Step.AllPlain steps) (r : WordReg) :
    Step.AllPlain (loadWordVia steps r) := by
  cases r <;> simp [loadWordVia, fetchWord, Step.names, h]

theorem allPlain_storeWordVia {steps : List Step} (h : Step.AllPlain steps) (r : WordReg) :
    Step.AllPlain (storeWordVia steps r) := by
  cases r <;> simp [storeWordVia, Step.names, MemRef.names, h]

theorem allPlain_loadWord {a : Address} (ha : a.IsPlain) (r : WordReg) :
    Step.AllPlain (loadWord r a) := by
  unfold loadWord
  split
  · rename_i d
    split
    · cases r <;> simp [WordReg.low, WordReg.high, Step.names]
    · exact allPlain_loadWordVia (allWithin_toHL ha).allPlain r
  · simpa [Step.names] using plain_mem ha 0
  · exact allPlain_loadWordVia (Step.AllWithin.allPlain ha) r

theorem allPlain_storeWord {a : Address} (ha : a.IsPlain) (r : WordReg) :
    Step.AllPlain (storeWord a r) := by
  unfold storeWord
  split
  · rename_i d
    split
    · simpa [Step.names] using And.intro (plain_mem ha 0) (plain_mem ha 1)
    · exact allPlain_storeWordVia (allWithin_toHL ha).allPlain r
  · simpa [Step.names] using plain_mem ha 0
  · exact allPlain_storeWordVia (Step.AllWithin.allPlain ha) r

/-- Loads through a plain address are plain. -/
theorem allPlain_load {a : Address} (ha : a.IsPlain) {reg : String} {steps : List Step}
    (h : load reg a = .ok steps) : Step.AllPlain steps := by
  unfold load at h
  split at h <;> cases h
  · exact allPlain_loadByte ha _
  · exact allPlain_loadWord ha _

/-- Stores through a plain address are plain. -/
theorem allPlain_store {a : Address} (ha : a.IsPlain) {reg : String} {steps : List Step}
    (h : store a reg = .ok steps) : Step.AllPlain steps := by
  unfold store at h
  split at h <;> cases h
  · exact allPlain_storeByte ha _
  · exact allPlain_storeWord ha _

end Address

end Z80Backend
