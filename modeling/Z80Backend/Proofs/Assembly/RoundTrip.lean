import Mathlib.Algebra.Group.Nat.Defs
import Z80Backend.Chunk
import Z80Backend.Proofs.Assembly.Reading

/-! # Decoding undoes encoding

    Decoding reads the bytes of an instruction back into its normal form.
    The bytes leave the slots open that wait for a symbol; what stands there
    is in the fixups, and `Form.fill` puts it back.

    Since the decoder takes exactly one instruction off, whatever follows, no
    encoding begins another, and the bytes of a chunk can be cut into
    instructions in one way only.

    * `decode` reads one instruction in its form.
    * `flatMap_bytes_inj`, `forms_inj`: what a list of instructions is
      determined by.
    * `decode_undoes_encode` is the account of it all. -/

namespace Z80Backend

/-- The kind of the slot after an opcode, told by the first byte. -/
def FixupKind.ofOpcode (b : UInt8) : FixupKind :=
  if b ∈ [0x10, 0x18, 0x20, 0x28, 0x30, 0x38] then .rel8
  else if b = 0xED then .abs16ED
  else if b = 0xDD ∨ b = 0xFD then .abs16Index
  else .abs16

/-! ## Open slots of forms -/

/-- A value as the bytes have it: one that waits for a symbol is zero. -/
def Value.closed (v : Value) : Value := if v.isConst then v else {}

/-- The operand with what a fixup puts into its slot. -/
def FormOperand.fill (x : Fixup) : FormOperand → FormOperand
  | imm _ => .imm { symbol := x.symbol, addend := x.addend }
  | abs _ => .abs { symbol := x.symbol, addend := x.addend }
  | o => o

namespace Form

/-- The form with its open slot filled; an instruction has at most one. -/
def fill : List Fixup → Form → Form
  | [], f => f
  | x :: _, f => { f with operands := f.operands.map (·.fill x) }

/-- An operand as the bytes have it.  The distance of a short jump is zero in
    any case. -/
def closeOperand (head : String) : FormOperand → FormOperand
  | .imm v => .imm (if head ∈ ["jr", "djnz"] then {} else v.closed)
  | .abs v => .abs v.closed
  | o => o

/-- The form as the bytes have it. -/
def closed (f : Form) : Form := { f with operands := f.operands.map (closeOperand f.head) }

end Form

/-- Takes one instruction off a list of bytes, given the fixups of its slots. -/
def decode (fixups : List Fixup) (bs : List UInt8) : Option (Form × List UInt8) :=
  (MachineInstr.decode? bs).map fun (m, rest) => (m.form.fill fixups, rest)

namespace MachineInstr

/-- What the bytes leave open is in the fixups. -/
theorem fill_closed (m : MachineInstr) : m.closed.form.fill m.encoding.fixups = m.form := by
  cases m with
  | jp w | call w | ldAAbs w | ldAbsA w => cases w <;> rfl
  | jpIf cc w | callIf cc w => cases w <;> rfl
  | ldPairImm p w => cases w <;> rfl
  | ldPairAbs p w => cases p <;> cases w <;> rfl
  | ldAbsPair w p => cases p <;> cases w <;> rfl
  | ldIndexImm x w | ldIndexAbs x w => cases w <;> rfl
  | ldAbsIndex w x => cases w <;> rfl
  | ldAControl s | ldControlA s => cases s <;> rfl
  | im mode => match mode with | 0 | 1 | 2 => rfl
  | _ => rfl

theorem ofWord_closed {w : Word} (h : w.IsNamed) :
    Value.ofWord w.closed = (Value.ofWord w).closed := by
  cases w with
  | const n => rfl
  | symbol name k =>
    have hname : (Value.ofWord (.symbol name k)).isConst = false := beq_eq_false_iff_ne.2 h
    unfold Value.closed
    rw [hname]
    rfl

/-- Closing the slots of an instruction closes those of its form. -/
theorem form_closed {m : MachineInstr} (h : m.IsProper) : m.closed.form = m.form.closed := by
  have hword : ∀ {w : Word} (f : Value → Form), w.IsNamed →
      f (.ofWord w.closed) = f (Value.ofWord w).closed := by
    intro w f hw
    rw [ofWord_closed hw]
  cases m with
  | jp w => exact hword (fun v => ⟨"jp", [.imm v]⟩) h
  | jpIf cc w => exact hword (fun v => ⟨"jp", [.reg cc.text, .imm v]⟩) h
  | call w => exact hword (fun v => ⟨"call", [.imm v]⟩) h
  | callIf cc w => exact hword (fun v => ⟨"call", [.reg cc.text, .imm v]⟩) h
  | ldAAbs w => exact hword (fun v => ⟨"ld", [.reg "a", .abs v]⟩) h
  | ldAbsA w => exact hword (fun v => ⟨"ld", [.abs v, .reg "a"]⟩) h
  | ldPairImm p w => exact hword (fun v => ⟨"ld", [.reg p.text, .imm v]⟩) h
  | ldPairAbs p w => exact hword (fun v => ⟨"ld", [.reg p.text, .abs v]⟩) h
  | ldAbsPair w p => exact hword (fun v => ⟨"ld", [.abs v, .reg p.text]⟩) h
  | ldIndexImm x w => exact hword (fun v => ⟨"ld", [.reg x.text, .imm v]⟩) h
  | ldIndexAbs x w => exact hword (fun v => ⟨"ld", [.reg x.text, .abs v]⟩) h
  | ldAbsIndex w x => exact hword (fun v => ⟨"ld", [.abs v, .reg x.text]⟩) h
  | alu op src | inc8 src | dec8 src =>
    cases src with
    | reg r | half x h => rfl
    | cell m => cases m <;> rfl
  | aluImm op n => cases op <;> rfl
  | rotate op t =>
    cases t with
    | reg r => rfl
    | cell m => cases m <;> rfl
  | bit op n t =>
    cases t with
    | reg r => cases op <;> rfl
    | cell m => cases op <;> cases m <;> rfl
  | load dst m | store m src | storeImm m n => cases m <;> rfl
  | _ => rfl

/-- An encoding without a slot, with one for a word or with one for a distance.
    Which it is shows in the first byte. -/
theorem encoding_cases (m : MachineInstr) : m.encoding.fixups = [] ∨
    (∃ b bs w, m.encoding = .withWord (b :: bs) w ∧
      FixupKind.ofOpcode b = Encoding.wordKind (b :: bs)) ∨
    ∃ b v, m.encoding = .withDistance b v ∧ (m.IsProper → FixupKind.ofOpcode b = .rel8) := by
  cases m with
  | jp w | call w | ldAAbs w | ldAbsA w => exact .inr (.inl ⟨_, _, w, rfl, rfl⟩)
  | jpIf cc w | callIf cc w => exact .inr (.inl ⟨_, _, w, rfl, by cases cc <;> rfl⟩)
  | ldPairImm p w => exact .inr (.inl ⟨_, _, w, rfl, by cases p <;> rfl⟩)
  | ldPairAbs p w => cases p <;> exact .inr (.inl ⟨_, _, w, rfl, rfl⟩)
  | ldAbsPair w p => cases p <;> exact .inr (.inl ⟨_, _, w, rfl, rfl⟩)
  | ldIndexImm x w | ldIndexAbs x w => exact .inr (.inl ⟨_, _, w, rfl, by cases x <;> rfl⟩)
  | ldAbsIndex w x => exact .inr (.inl ⟨_, _, w, rfl, by cases x <;> rfl⟩)
  | jr v | djnz v => exact .inr (.inr ⟨_, v, rfl, fun _ => rfl⟩)
  | jrIf cc v => exact .inr (.inr ⟨_, v, rfl, by cases cc <;> simp [IsProper] <;> decide⟩)
  | ldAControl s | ldControlA s => cases s <;> exact .inl rfl
  | im mode => match mode with | 0 | 1 | 2 => exact .inl rfl
  | _ => exact .inl rfl

theorem wordKind_ne_rel8 (opcode : List UInt8) : Encoding.wordKind opcode ≠ .rel8 := by
  unfold Encoding.wordKind
  repeat' split
  all_goals exact nofun

/-- An instruction has one slot at most, and the slot closes it. -/
theorem slot_closes (m : MachineInstr) : m.encoding.fixups = [] ∨
    ∃ x k, m.encoding.fixups = [x] ∧ x.offset = Int64.ofNat k ∧
      k + (if x.kind = .rel8 then 1 else 2) = m.bytes.length := by
  rw [bytes]
  rcases m.encoding_cases with hnone | ⟨b, bs, w, heq, _⟩ | ⟨b, v, heq, _⟩
  · exact .inl hnone
  · rw [heq]
    cases w with
    | const n => exact .inl rfl
    | symbol name k =>
      exact .inr ⟨_, (b :: bs).length, rfl, rfl, by simp [Encoding.withWord, wordKind_ne_rel8]⟩
  · rw [heq]
    exact .inr ⟨_, 1, rfl, rfl, by simp [Encoding.withDistance]⟩

/-- A slot lies inside its instruction. -/
theorem fixups_eq (m : MachineInstr) : m.encoding.fixups = [] ∨
    ∃ x k, m.encoding.fixups = [x] ∧ x.offset = Int64.ofNat k ∧ k < m.bytes.length := by
  refine m.slot_closes.imp_right fun ⟨x, k, hone, hk, hclose⟩ => ⟨x, k, hone, hk, ?_⟩
  split at hclose <;> omega

/-! ## Lists of instructions -/

/-- The bytes of instructions can be cut up in one way only. -/
theorem flatMap_bytes_inj {ms ms' : List MachineInstr} (h : ∀ m ∈ ms, m.IsProper)
    (h' : ∀ m ∈ ms', m.IsProper) (hbytes : ms.flatMap bytes = ms'.flatMap bytes) :
    ms.map closed = ms'.map closed ∧ ms.map bytes = ms'.map bytes := by
  induction ms generalizing ms' with
  | nil =>
    cases ms' with
    | nil => exact ⟨rfl, rfl⟩
    | cons m' ms' =>
      have hread := decode?_bytes (h' m' (by simp)) (ms'.flatMap bytes)
      rw [← List.flatMap_cons, ← hbytes] at hread
      cases hread
  | cons m ms ih =>
    have hread := decode?_bytes (h m (by simp)) (ms.flatMap bytes)
    cases ms' with
    | nil =>
      rw [← List.flatMap_cons, hbytes] at hread
      cases hread
    | cons m' ms' =>
      have hread' := decode?_bytes (h' m' (by simp)) (ms'.flatMap bytes)
      rw [← List.flatMap_cons, hbytes, List.flatMap_cons, hread'] at hread
      obtain ⟨hm, hrest⟩ : m'.closed = m.closed ∧ ms'.flatMap bytes = ms.flatMap bytes := by
        simpa using hread
      obtain ⟨hclosed, hsame⟩ := ih (fun m hm => h m (by simp [hm]))
        (fun m hm => h' m (by simp [hm])) hrest.symm
      rw [List.flatMap_cons, List.flatMap_cons, hrest] at hbytes
      exact ⟨by simp [hm, hclosed], by simp [List.append_cancel_right hbytes, hsame]⟩

/-- A fixup of an instruction at a position. -/
def shift (pos : Nat) (x : Fixup) : Fixup := { x with offset := Int64.ofNat pos + x.offset }

/-- The fixups of instructions that start at a position. -/
def fixupsFrom (pos : Nat) : List MachineInstr → List Fixup
  | [] => []
  | m :: ms => m.encoding.fixups.map (shift pos) ++ fixupsFrom (pos + m.bytes.length) ms

/-- Slots lie inside the instructions. -/
theorem offset_of_mem {pos : Nat} {ms : List MachineInstr} {x : Fixup}
    (h : x ∈ fixupsFrom pos ms) : ∃ n, x.offset = Int64.ofNat n ∧ pos ≤ n ∧
      n < pos + (ms.flatMap bytes).length := by
  induction ms generalizing pos with
  | nil => simp [fixupsFrom] at h
  | cons m ms ih =>
    rw [fixupsFrom, List.mem_append] at h
    rw [List.flatMap_cons, List.length_append]
    rcases h with h | h
    · rcases m.fixups_eq with hnil | ⟨y, k, hone, hk, hlt⟩
      · simp [hnil] at h
      · rw [hone, List.map_singleton, List.mem_singleton] at h
        refine ⟨pos + k, ?_, by omega, by omega⟩
        rw [h, shift, hk, Int64.ofNat_add]
    · obtain ⟨n, hn, hle, hlt⟩ := ih h
      exact ⟨n, hn, by omega, by omega⟩

/-- A slot of an instruction is none of those after it, as long as positions
    fit a number. -/
theorem shift_not_mem (pos : Nat) {k size : Nat} (ms : List MachineInstr) {x : Fixup}
    (hx : x.offset = Int64.ofNat k) (hk : k < size)
    (hfits : pos + size + (ms.flatMap bytes).length < 2 ^ 63) :
    shift pos x ∉ fixupsFrom (pos + size) ms := by
  intro hmem
  obtain ⟨n, hn, hle, hlt⟩ := offset_of_mem hmem
  rw [shift, hx, ← Int64.ofNat_add] at hn
  have heq := congrArg Int64.toInt hn
  rw [Int64.toInt_ofNat_of_lt (by omega), Int64.toInt_ofNat_of_lt (by omega)] at heq
  omega

/-- Bytes and fixups together determine the forms. -/
theorem forms_inj {pos : Nat} {ms ms' : List MachineInstr}
    (hclosed : ms.map closed = ms'.map closed) (hbytes : ms.map bytes = ms'.map bytes)
    (hfits : pos + (ms.flatMap bytes).length < 2 ^ 63)
    (hfixups : fixupsFrom pos ms = fixupsFrom pos ms') : ms.map form = ms'.map form := by
  induction ms generalizing pos ms' with
  | nil =>
    cases ms' with
    | nil => rfl
    | cons m' ms' => simp at hclosed
  | cons m ms ih =>
    cases ms' with
    | nil => simp at hclosed
    | cons m' ms' =>
      obtain ⟨hm, hms⟩ := List.cons.inj hclosed
      obtain ⟨hb, hbs⟩ := List.cons.inj hbytes
      have hflat : ms.flatMap bytes = ms'.flatMap bytes := by
        rw [List.flatMap_def, List.flatMap_def, hbs]
      rw [List.flatMap_cons, List.length_append] at hfits
      rw [fixupsFrom, fixupsFrom, ← hb] at hfixups
      -- either both have a slot here or neither has
      obtain ⟨hhead, htail⟩ : m.form = m'.form ∧
          fixupsFrom (pos + m.bytes.length) ms = fixupsFrom (pos + m.bytes.length) ms' := by
        rw [← m.fill_closed, ← m'.fill_closed, hm]
        rcases m.fixups_eq with hnil | ⟨x, k, hone, hk, hlt⟩ <;>
          rcases m'.fixups_eq with hnil' | ⟨x', k', hone', hk', hlt'⟩
        · rw [hnil, hnil'] at hfixups
          exact ⟨by rw [hnil, hnil'], hfixups⟩
        · rw [hnil, hone'] at hfixups
          rw [← hb] at hlt'
          have hnot := shift_not_mem pos ms hk' hlt' (by omega)
          have hhere : fixupsFrom (pos + m.bytes.length) ms =
              shift pos x' :: fixupsFrom (pos + m.bytes.length) ms' := hfixups
          simp [hhere] at hnot
        · rw [hnil', hone] at hfixups
          have hnot := shift_not_mem pos ms' hk hlt (by rw [← hflat]; omega)
          have hhere : shift pos x :: fixupsFrom (pos + m.bytes.length) ms =
              fixupsFrom (pos + m.bytes.length) ms' := hfixups
          simp [← hhere] at hnot
        · rw [hone, hone'] at hfixups
          obtain ⟨hx, hrest⟩ := List.cons.inj hfixups
          have hsymbol : (shift pos x).symbol = (shift pos x').symbol := congrArg Fixup.symbol hx
          have haddend : (shift pos x).addend = (shift pos x').addend := congrArg Fixup.addend hx
          refine ⟨?_, hrest⟩
          have hfill : FormOperand.fill x = FormOperand.fill x' := by
            funext o
            simp only [shift] at hsymbol haddend
            cases o <;> simp [FormOperand.fill, hsymbol, haddend]
          rw [hone, hone', Form.fill, Form.fill, hfill]
      rw [List.map_cons, List.map_cons, hhead, ih hms hbs (by omega) htail]

end MachineInstr

/-! ## Chunks of code -/

namespace Line

/-- A label, or an instruction with the code it assembles to. -/
def IsCode (r : Resolver) : Line → Prop
  | instr i code => assemble r i = .ok code
  | label .. => True
  | _ => False

/-- The normal form of the instruction on a line. -/
def form? (r : Resolver) : Line → Option Form
  | instr i _ => some (i.normal r)
  | _ => none

/-- The machine code on a line. -/
def code? : Line → Option MachineInstr
  | instr _ code => some code
  | _ => none

variable {r : Resolver} {ls : List Line}

theorem isProper_of_mem (h : ∀ l ∈ ls, l.IsCode r) :
    ∀ m ∈ ls.filterMap code?, m.IsProper := by
  intro m hm
  obtain ⟨l, hl, hcode⟩ := List.mem_filterMap.1 hm
  cases l with
  | instr i code =>
    cases hcode
    exact (form_of_assemble (h _ hl)).1
  | _ => cases hcode

theorem filterMap_form (h : ∀ l ∈ ls, l.IsCode r) :
    ls.filterMap (form? r) = (ls.filterMap code?).map (·.form) := by
  induction ls with
  | nil => rfl
  | cons l ls ih =>
    have hrest := ih fun l hl => h l (by simp [hl])
    cases l with
    | instr i code =>
      have hcode : assemble r i = .ok code := h (.instr i code) (by simp)
      have hform := (form_of_assemble hcode).2
      simp only [List.filterMap_cons, form?, code?, List.map_cons, hrest, hform]
    | _ => exact hrest

theorem listBytes_eq (h : ∀ l ∈ ls, l.IsCode r) :
    listBytes ls = (ls.filterMap code?).flatMap (·.bytes) := by
  induction ls with
  | nil => rfl
  | cons l ls ih =>
    rw [listBytes_cons, ih fun l hl => h l (by simp [hl])]
    have hl := h l (by simp)
    cases l with
    | instr i code => rfl
    | label name span => rfl
    | _ => exact hl.elim

theorem listFixups_eq (h : ∀ l ∈ ls, l.IsCode r) (pos : Nat) :
    (listFixups pos ls).map (·.toFixup) = MachineInstr.fixupsFrom pos (ls.filterMap code?) := by
  induction ls generalizing pos with
  | nil => rfl
  | cons l ls ih =>
    have hrest := ih (fun l hl => h l (by simp [hl]))
    have hl := h l (by simp)
    rw [listFixups, List.map_append, hrest]
    cases l with
    | instr i code =>
      rw [fixupsAt, List.map_map]
      rfl
    | label name span => rfl
    | _ => exact hl.elim

end Line

namespace Chunk

/-- The chunk holds nothing but assembled instructions and labels. -/
def IsCode (r : Resolver) (c : Chunk) : Prop := ∀ l ∈ c.lines, l.IsCode r

/-- The normal forms of the instructions, in order. -/
def forms (r : Resolver) (c : Chunk) : List Form := c.lines.filterMap (Line.form? r)

variable {r r' : Resolver} {c c' : Chunk}

/-- The bytes determine the instructions up to the slots that wait. -/
theorem closed_forms_inj (hc : c.IsCode r) (hc' : c'.IsCode r') (hbytes : c.bytes = c'.bytes) :
    (c.forms r).map Form.closed = (c'.forms r').map Form.closed := by
  have hproper := Line.isProper_of_mem hc
  have hproper' := Line.isProper_of_mem hc'
  unfold bytes at hbytes
  rw [Line.listBytes_eq hc, Line.listBytes_eq hc'] at hbytes
  obtain ⟨hclosed, -⟩ := MachineInstr.flatMap_bytes_inj hproper hproper' hbytes
  have hforms : ∀ ms : List MachineInstr, (∀ m ∈ ms, m.IsProper) →
      (ms.map (·.form)).map Form.closed = (ms.map (·.closed)).map (·.form) := by
    intro ms hms
    rw [List.map_map, List.map_map]
    exact List.map_congr_left fun m hm => (MachineInstr.form_closed (hms m hm)).symm
  unfold forms
  rw [Line.filterMap_form hc, Line.filterMap_form hc', hforms _ hproper, hforms _ hproper', hclosed]

/-- Bytes and fixups determine the instructions. -/
theorem forms_inj (hc : c.IsCode r) (hc' : c'.IsCode r') (hbytes : c.bytes = c'.bytes)
    (hfits : c.bytes.length < 2 ^ 63)
    (hfixups : c.fixups.map (·.toFixup) = c'.fixups.map (·.toFixup)) :
    c.forms r = c'.forms r' := by
  unfold bytes at hbytes hfits
  unfold fixups at hfixups
  rw [Line.listBytes_eq hc] at hfits
  rw [Line.listBytes_eq hc, Line.listBytes_eq hc'] at hbytes
  rw [Line.listFixups_eq hc, Line.listFixups_eq hc'] at hfixups
  obtain ⟨hclosed, hsame⟩ := MachineInstr.flatMap_bytes_inj (Line.isProper_of_mem hc)
    (Line.isProper_of_mem hc') hbytes
  unfold forms
  rw [Line.filterMap_form hc, Line.filterMap_form hc']
  refine MachineInstr.forms_inj hclosed hsame ?_ hfixups
  rw [Nat.zero_add]
  exact hfits

end Chunk

/-! ## The round trip -/

/-- The bytes of an instruction decode to its form with the slots that the
    fixups fill. -/
theorem decode_bytes {m : MachineInstr} (h : m.IsProper) (fixups : List Fixup)
    (rest : List UInt8) :
    decode fixups (m.bytes ++ rest) = some (m.closed.form.fill fixups, rest) := by
  unfold decode
  rw [MachineInstr.decode?_bytes h]
  rfl

/-- With its own fixups, an assembled instruction decodes to its normal form. -/
theorem decode_of_assemble {r : Resolver} {i : Instruction} {code : MachineInstr}
    (h : assemble r i = .ok code) (rest : List UInt8) :
    decode code.encoding.fixups (code.bytes ++ rest) = some (i.normal r, rest) := by
  obtain ⟨hproper, hform⟩ := form_of_assemble h
  rw [decode_bytes hproper, MachineInstr.fill_closed, hform]

/-- Without them, the slots that wait read as zero. -/
theorem decode_nil_of_assemble {r : Resolver} {i : Instruction} {code : MachineInstr}
    (h : assemble r i = .ok code) (rest : List UInt8) :
    decode [] (code.bytes ++ rest) = some ((i.normal r).closed, rest) := by
  obtain ⟨hproper, hform⟩ := form_of_assemble h
  rw [decode_bytes hproper, ← hform, ← MachineInstr.form_closed hproper]
  rfl

/-- Decoding undoes encoding.

    * The bytes of an assembled instruction, followed by anything, decode to
      the normal form of what was written, and the rest is left.  Without the
      fixups, the slots that wait read as zero.
    * Instructions with the same encoding have the same normal form, and no
      encoding is a proper beginning of another.
    * The bytes of a chunk of code determine its instructions up to the slots
      that wait, and together with the fixups they determine them all. -/
theorem decode_undoes_encode :
    (∀ (r : Resolver) (i : Instruction) (code : MachineInstr) (rest : List UInt8),
      assemble r i = .ok code →
        decode code.encoding.fixups (code.bytes ++ rest) = some (i.normal r, rest) ∧
        decode [] (code.bytes ++ rest) = some ((i.normal r).closed, rest)) ∧
    (∀ (r r' : Resolver) (i i' : Instruction) (code code' : MachineInstr),
      assemble r i = .ok code → assemble r' i' = .ok code' →
        (code.encoding = code'.encoding → i.normal r = i'.normal r') ∧
        (code.bytes <+: code'.bytes → code.bytes = code'.bytes)) ∧
    ∀ (r r' : Resolver) (c c' : Chunk), c.IsCode r → c'.IsCode r' → c.bytes = c'.bytes →
      (c.forms r).map Form.closed = (c'.forms r').map Form.closed ∧
      (c.bytes.length < 2 ^ 63 → c.fixups.map (·.toFixup) = c'.fixups.map (·.toFixup) →
        c.forms r = c'.forms r') := by
  refine ⟨fun r i code rest h => ⟨decode_of_assemble h rest, decode_nil_of_assemble h rest⟩,
    fun r r' i i' code code' h h' => ⟨fun hsame => ?_, ?_⟩,
    fun r r' c c' hc hc' hbytes => ⟨Chunk.closed_forms_inj hc hc' hbytes, fun hfits hfixups =>
      Chunk.forms_inj hc hc' hbytes hfits hfixups⟩⟩
  · have hread := decode_of_assemble h []
    have hread' := decode_of_assemble h' []
    unfold MachineInstr.bytes at hread hread'
    rw [hsame, hread'] at hread
    simpa using hread.symm
  · rintro ⟨rest, hrest⟩
    -- the shorter one decodes with the rest left, the longer one with nothing
    have hread := MachineInstr.decode?_bytes (form_of_assemble h).1 rest
    have hread' := MachineInstr.decode?_bytes (form_of_assemble h').1 []
    rw [List.append_nil, ← hrest, hread] at hread'
    obtain ⟨-, rfl⟩ : code.closed = code'.closed ∧ rest = [] := by simpa using hread'
    simpa using hrest

/-- An instruction in capitals, with an address that waits for a symbol. -/
def loadTable : Instruction :=
  .of "LD" [.ofReg "HL", .imm (.binary .add (.name "table") (.number 2)) {}]

/-- Its bytes are `21 00 00`, and its slot is read from the fixup. -/
theorem loadTable_decodes : ∃ code, assemble .empty loadTable = .ok code ∧
    code.bytes = [0x21, 0, 0] ∧
    decode code.encoding.fixups (code.bytes ++ [0xC9]) =
      some (⟨"ld", [.reg "hl", .imm { symbol := "table", addend := 2 }]⟩, [0xC9]) := by
  have hcode : assemble .empty loadTable = .ok (.ldPairImm .hl (.symbol "table" 2)) := by rfl
  have hnormal : loadTable.normal .empty =
      ⟨"ld", [.reg "hl", .imm { symbol := "table", addend := 2 }]⟩ := by rfl
  refine ⟨_, hcode, rfl, ?_⟩
  rw [← hnormal]
  exact (decode_undoes_encode.1 _ _ _ _ hcode).1

end Z80Backend
