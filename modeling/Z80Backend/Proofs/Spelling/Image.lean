import Z80Backend.Compiler
import Z80Backend.Proofs.Spelling.Program

/-! # Images of a spelling

    Linking reads of a chunk only its bytes, slots and labels.  They are the
    same for all spellings, but for slots that wait for a symbol with the name
    of a register.

    * `Chunk.output_caseless`: what spellings of a chunk have in common.
    * `Linker.link_bare`: linking does not depend on what was written. -/

namespace Z80Backend

/-! ## What there is to a chunk -/

/-- A chunk as it goes into the image, without its listing. -/
structure ChunkOutput where
  name : String
  kind : SymbolKind
  home : Section
  pin : Option Int64
  align : Int64
  span : Span
  reserved : Int64
  bytes : List UInt8
  fixups : List LocatedFixup
  labels : List LocalLabel
  deriving DecidableEq, Repr

/-- What the chunk is without its listing. -/
def Chunk.output (c : Chunk) : ChunkOutput where
  name := c.name
  kind := c.kind
  home := c.home
  pin := c.pin
  align := c.align
  span := c.span
  reserved := c.reserved
  bytes := c.bytes
  fixups := c.fixups
  labels := c.labels

/-- The slot with the name of a register in lower case. -/
def Fixup.caseless (f : Fixup) : Fixup := { f with symbol := addressWord f.symbol }

/-- The slot with the name of a register in lower case. -/
def LocatedFixup.caseless (f : LocatedFixup) : LocatedFixup :=
  { f with symbol := addressWord f.symbol }

/-- The chunk with the names of registers in its slots in lower case. -/
def ChunkOutput.caseless (x : ChunkOutput) : ChunkOutput :=
  { x with fixups := x.fixups.map LocatedFixup.caseless }

/-! ## Changes to lines -/

namespace Line

/-- A change of lines that keeps bytes, labels and reservations. -/
structure KeepsLayout (f : Line → Line) : Prop where
  bytes : ∀ l, (f l).bytes = l.bytes
  labels : ∀ pos l, listLabels pos [f l] = listLabels pos [l]
  reserved : ∀ ls, listReserved (ls.map f) = listReserved ls

namespace KeepsLayout

variable {f : Line → Line} (hf : KeepsLayout f)

include hf

theorem listBytes (ls : List Line) : Line.listBytes (ls.map f) = Line.listBytes ls := by
  unfold Line.listBytes
  rw [List.flatMap_map]
  exact List.flatMap_congr fun l _ => hf.bytes l

theorem size (l : Line) : (f l).size = l.size := congrArg List.length (hf.bytes l)

theorem listLabels (pos : Nat) (ls : List Line) :
    Line.listLabels pos (ls.map f) = Line.listLabels pos ls := by
  induction ls generalizing pos with
  | nil => rfl
  | cons l ls ih =>
    rw [List.map_cons, listLabels_cons, hf.labels, hf.size, ih, listLabels_cons pos l ls]

/-- Slots are changed line by line. -/
theorem listFixups {α : Type} {g : LocatedFixup → α}
    (hg : ∀ pos l, ((f l).fixupsAt pos).map g = (l.fixupsAt pos).map g) (pos : Nat)
    (ls : List Line) :
    (Line.listFixups pos (ls.map f)).map g = (Line.listFixups pos ls).map g := by
  induction ls generalizing pos with
  | nil => rfl
  | cons l ls ih =>
    rw [List.map_cons, Line.listFixups, Line.listFixups, List.map_append, List.map_append, hg,
      hf.size, ih]

end KeepsLayout

/-- The line without what was written. -/
def bare : Line → Line
  | .instr i code => .instr { head := "", span := i.span } code
  | l => l

theorem keepsLayout_bare : KeepsLayout bare where
  bytes l := by cases l <;> rfl
  labels pos l := by cases l <;> rfl
  reserved ls := by
    unfold listReserved
    rw [List.foldl_map]
    congr 1
    funext n l
    cases l <;> rfl

end Line

/-! ## Slots of machine code -/

/-- Is the word a symbol with the name of a register? -/
def Word.isRegister : Word → Bool
  | const _ => false
  | symbol s _ => isRegisterName s

theorem Word.isRegister_caseless (w : Word) : w.caseless.isRegister = w.isRegister := by
  cases w with
  | const n => rfl
  | symbol s k => exact isRegisterName_addressWord s

theorem Word.caseless_of_false {w : Word} (h : w.isRegister = false) : w.caseless = w := by
  cases w with
  | const n => rfl
  | symbol s k => exact congrArg (symbol · k) (addressWord_of_false h)

theorem Encoding.withWord_caseless (opcode : List UInt8) (w : Word) :
    (withWord opcode w.caseless).bytes = (withWord opcode w).bytes ∧
      (withWord opcode w.caseless).fixups.map Fixup.caseless =
        (withWord opcode w).fixups.map Fixup.caseless := by
  cases w with
  | const n => exact ⟨rfl, rfl⟩
  | symbol s k => exact ⟨rfl, by simp [Word.caseless, withWord, Fixup.caseless]⟩

namespace MachineInstr

/-- The address that a load or store goes through. -/
def address? : MachineInstr → Option Word
  | ldAAbs a | ldAbsA a | ldPairAbs _ a | ldAbsPair a _ | ldIndexAbs _ a | ldAbsIndex a _ => some a
  | _ => none

theorem address?_caseless (code : MachineInstr) :
    code.caseless.address? = code.address?.map Word.caseless := by
  cases code <;> rfl

/-- Code has one spelling unless it goes through a symbol with the name of a
    register. -/
theorem caseless_of_false {code : MachineInstr} (h : code.address?.any Word.isRegister = false) :
    code.caseless = code := by
  cases code with
  | ldAAbs a => exact congrArg ldAAbs (Word.caseless_of_false h)
  | ldAbsA a => exact congrArg ldAbsA (Word.caseless_of_false h)
  | ldPairAbs p a => exact congrArg (ldPairAbs p) (Word.caseless_of_false h)
  | ldAbsPair a p => exact congrArg (ldAbsPair · p) (Word.caseless_of_false h)
  | ldIndexAbs x a => exact congrArg (ldIndexAbs x) (Word.caseless_of_false h)
  | ldAbsIndex a x => exact congrArg (ldAbsIndex · x) (Word.caseless_of_false h)
  | _ => rfl

theorem eq_of_caseless {code code' : MachineInstr} (h : code'.caseless = code.caseless)
    (hcode : code.address?.any Word.isRegister = false) : code' = code := by
  have hany : ∀ c : MachineInstr,
      c.caseless.address?.any Word.isRegister = c.address?.any Word.isRegister := by
    intro c
    rw [address?_caseless]
    cases c.address? with
    | none => rfl
    | some w => exact w.isRegister_caseless
  have hcode' : code'.address?.any Word.isRegister = false := by
    rw [← hany, h, hany]
    exact hcode
  rw [← caseless_of_false hcode', h, caseless_of_false hcode]

theorem encoding_caseless (code : MachineInstr) :
    code.caseless.encoding.bytes = code.encoding.bytes ∧
      code.caseless.encoding.fixups.map Fixup.caseless =
        code.encoding.fixups.map Fixup.caseless := by
  cases code with
  | ldAAbs a | ldAbsA a | ldIndexAbs x a | ldAbsIndex a x => exact Encoding.withWord_caseless _ a
  | ldPairAbs p a | ldAbsPair a p => cases p <;> exact Encoding.withWord_caseless _ a
  | _ => exact ⟨rfl, rfl⟩

end MachineInstr

/-! ## Chunks in caseless form -/

theorem Line.keepsLayout_caseless : Line.KeepsLayout Line.caseless where
  bytes l := by
    cases l with
    | instr i code => exact code.encoding_caseless.1
    | _ => rfl
  labels pos l := by cases l <;> rfl
  reserved ls := by
    unfold listReserved
    rw [List.foldl_map]
    congr 1
    funext n l
    cases l <;> rfl

theorem Line.fixupsAt_caseless (pos : Nat) (l : Line) :
    (l.caseless.fixupsAt pos).map LocatedFixup.caseless =
      (l.fixupsAt pos).map LocatedFixup.caseless := by
  cases l with
  | instr i code =>
    -- Locating a slot and spelling it commute.
    have hlocated : ∀ fs : List Fixup,
        (fs.map fun f => ({ f with offset := Int64.ofNat pos + f.offset, span := i.span } :
          LocatedFixup)).map LocatedFixup.caseless =
        (fs.map Fixup.caseless).map fun f =>
          { f with offset := Int64.ofNat pos + f.offset, span := i.span } := by
      intro fs
      rw [List.map_map, List.map_map]
      rfl
    simp only [caseless, fixupsAt]
    rw [hlocated, hlocated, code.encoding_caseless.2]
  | _ => rfl

/-- The caseless form of a chunk differs from it in the spelling of slots. -/
theorem Chunk.output_caseless (c : Chunk) : c.caseless.output.caseless = c.output.caseless := by
  have hlayout := Line.keepsLayout_caseless
  have hfixups := hlayout.listFixups Line.fixupsAt_caseless 0 c.lines
  simp only [output, ChunkOutput.caseless, caseless, fixups, bytes, labels, reserved,
    hlayout.listBytes, hlayout.listLabels, hlayout.reserved, hfixups]

/-! ## Chunks without what was written -/

/-- The chunk without what was written. -/
def Chunk.bare (c : Chunk) : Chunk := { c with lines := c.lines.map Line.bare }

theorem Line.fixupsAt_bare (pos : Nat) (l : Line) : l.bare.fixupsAt pos = l.fixupsAt pos := by
  cases l <;> rfl

namespace Chunk

@[simp] theorem bytes_bare (c : Chunk) : c.bare.bytes = c.bytes :=
  Line.keepsLayout_bare.listBytes c.lines

@[simp] theorem labels_bare (c : Chunk) : c.bare.labels = c.labels :=
  Line.keepsLayout_bare.listLabels 0 c.lines

@[simp] theorem reserved_bare (c : Chunk) : c.bare.reserved = c.reserved :=
  Line.keepsLayout_bare.reserved c.lines

@[simp] theorem fixups_bare (c : Chunk) : c.bare.fixups = c.fixups := by
  have hfixups := Line.keepsLayout_bare.listFixups
    (fun pos l => congrArg (List.map id) (Line.fixupsAt_bare pos l)) 0 c.lines
  rw [List.map_id, List.map_id] at hfixups
  exact hfixups

@[simp] theorem size_bare (c : Chunk) : c.bare.size = c.size := by
  simp only [size, reserved_bare, bytes_bare]

theorem output_bare (c : Chunk) : c.bare.output = c.output := by
  simp only [output, bytes_bare, labels_bare, reserved_bare, fixups_bare]
  rfl

end Chunk

namespace Placement

/-- The placement without what was written. -/
def bare (p : Placement) : Placement := { p with chunk := p.chunk.bare }

@[simp] theorem start_bare (p : Placement) : p.bare.start = p.start := rfl

@[simp] theorem name_bare (p : Placement) : p.bare.chunk.name = p.chunk.name := rfl

@[simp] theorem stop_bare (p : Placement) : p.bare.stop = p.stop :=
  congrArg (p.start + ·) p.chunk.size_bare

@[simp] theorem fits_bare (p : Placement) : p.bare.fits = p.fits := by
  unfold fits
  rw [start_bare, stop_bare]

@[simp] theorem next_bare (p : Placement) : p.bare.next = p.next := by
  unfold next
  rw [start_bare, stop_bare, fits_bare]

theorem isRunaway_bare (p : Placement) : p.bare.isRunaway = p.isRunaway := by
  unfold isRunaway
  rw [fits_bare, start_bare, bare, Chunk.size_bare]

theorem claims_bare (p : Placement) : p.bare.claims = p.claims := by
  unfold claims
  rw [start_bare, bare, Chunk.reserved_bare, Chunk.bytes_bare]

theorem labels_bare (p : Placement) : p.bare.labels = p.labels := by
  unfold labels
  rw [start_bare, bare, Chunk.labels_bare]

theorem symbols_bare (p : Placement) : p.bare.symbols = p.symbols := by
  unfold symbols
  rw [start_bare, labels_bare, bare, Chunk.size_bare]
  rfl

theorem placeAll_bare (cursor : Int64) (cs : List Chunk) :
    placeAll cursor (cs.map Chunk.bare) =
      ((placeAll cursor cs).1.map bare, (placeAll cursor cs).2) := by
  induction cs generalizing cursor with
  | nil => rfl
  | cons c cs ih =>
    have hplace : ofChunk cursor c.bare = (ofChunk cursor c).bare := rfl
    rw [List.map_cons, placeAll, placeAll, hplace, next_bare, ih]
    rfl

theorem placeSections_bare (layout : Layout) (cs : List Chunk) (cursor : Int64)
    (ss : List Section) :
    placeSections layout (cs.map Chunk.bare) cursor ss =
      (placeSections layout cs cursor ss).map bare := by
  induction ss generalizing cursor with
  | nil => rfl
  | cons s ss ih =>
    have hfilter : (cs.map Chunk.bare).filter (·.home == s) =
        (cs.filter (·.home == s)).map Chunk.bare := List.filter_map
    rw [placeSections, placeSections, hfilter, placeAll_bare]
    dsimp only
    rw [ih, List.map_append]

theorem ofChunks_bare (layout : Layout) (cs : List Chunk) :
    ofChunks layout (cs.map Chunk.bare) = (ofChunks layout cs).map bare :=
  placeSections_bare layout cs 0 _

theorem filter_bare {f : Placement → Bool} (hf : ∀ p, f p.bare = f p) (ps : List Placement) :
    (ps.map bare).filter f = (ps.filter f).map bare := by
  rw [List.filter_map]
  exact congrArg (List.map bare) (List.filter_congr fun p _ => hf p)

end Placement

/-! ## Linking -/

theorem ByteMap.writeAll_bare (all : List Placement) (n : Nat) (ps : List Placement)
    (m : ByteMap Nat) :
    m.writeAll (all.map Placement.bare) n (ps.map Placement.bare) = m.writeAll all n ps := by
  have hname : ∀ other : Nat,
      ((all.map Placement.bare)[other]?.map (·.chunk.name)) = all[other]?.map (·.chunk.name) := by
    intro other
    rw [List.getElem?_map, Option.map_map]
    rfl
  induction ps generalizing n m with
  | nil => rfl
  | cons p ps ih =>
    simp only [List.map_cons, writeAll, Placement.fits_bare, Placement.claims_bare, hname, ih]
    rfl

namespace Linker

variable (l : Linker) (ps : List Placement)

theorem value?_bare (chunk name : String) :
    l.value? (ps.map Placement.bare) chunk name = l.value? ps chunk name := by
  have hlocal : localNames (ps.map Placement.bare) chunk = localNames ps chunk := by
    unfold localNames
    rw [Placement.filter_bare fun p => by rw [Placement.fits_bare, Placement.name_bare],
      List.getLast?_map]
    cases (ps.filter fun p => p.fits && p.chunk.name == chunk).getLast? with
    | none => rfl
    | some p => exact congrArg _ p.labels_bare
  have hmodule : l.moduleNames (ps.map Placement.bare) = l.moduleNames ps := by
    unfold moduleNames
    rw [Placement.filter_bare Placement.fits_bare, List.map_map]
    rfl
  unfold value?
  rw [hlocal, hmodule]

theorem patchOf_bare (p : Placement) (f : Fixup) :
    l.patchOf (ps.map Placement.bare) p.bare f = l.patchOf ps p f := by
  have htarget : l.target (ps.map Placement.bare) p.chunk.name f = l.target ps p.chunk.name f := by
    unfold target
    rw [value?_bare]
  unfold patchOf
  rw [Placement.name_bare, htarget, Placement.start_bare]

theorem patches_bare : l.patches (ps.map Placement.bare) = l.patches ps := by
  unfold patches
  rw [Placement.filter_bare Placement.fits_bare, List.flatMap_map]
  refine List.flatMap_congr fun p _ => ?_
  rw [Placement.bare, Chunk.fixups_bare]
  refine List.map_congr_left fun f _ => ?_
  rw [← Placement.bare, patchOf_bare]

end Linker

/-- What linking gives, without what was written. -/
def Linked.bare (x : Linked) : Linked :=
  { x with image := { x.image with placements := x.image.placements.map Placement.bare } }

/-- Linking does not depend on what was written. -/
theorem Linker.link_bare (l : Linker) (cs : List Chunk) :
    l.link (cs.map Chunk.bare) = (l.link cs).map Linked.bare := by
  have hoverflow : ∀ ps : List Placement,
      ((ps.map Placement.bare).filter (!·.fits)).map (fun p =>
        { problem := .layout (.overflow p.chunk.home p.chunk.name p.stop)
          span := p.chunk.span : Diagnostic }) =
      (ps.filter (!·.fits)).map fun p =>
        { problem := .layout (.overflow p.chunk.home p.chunk.name p.stop)
          span := p.chunk.span : Diagnostic } := by
    intro ps
    rw [Placement.filter_bare fun p => by rw [Placement.fits_bare], List.map_map]
    refine List.map_congr_left fun p _ => ?_
    simp only [Function.comp_apply, Placement.stop_bare]
    rfl
  have hsymbols : ∀ ps : List Placement,
      ((ps.map Placement.bare).filter (·.fits)).flatMap (·.symbols) =
        (ps.filter (·.fits)).flatMap (·.symbols) := by
    intro ps
    rw [Placement.filter_bare Placement.fits_bare, List.flatMap_map]
    exact List.flatMap_congr fun p _ => p.symbols_bare
  have hfind : ∀ ps : List Placement, (ps.map Placement.bare).find? (·.isRunaway) =
      (ps.find? (·.isRunaway)).map Placement.bare := by
    intro ps
    have hrunaway : (·.isRunaway) ∘ Placement.bare = (·.isRunaway) :=
      funext Placement.isRunaway_bare
    rw [List.find?_map, hrunaway]
  unfold link
  dsimp only
  rw [Placement.ofChunks_bare, hfind]
  cases (Placement.ofChunks l.layout cs).find? (·.isRunaway) with
  | some p => rfl
  | none =>
    simp only [Option.map_none]
    rw [patches_bare, hoverflow, hsymbols, ByteMap.writeAll_bare]
    split
    · rfl
    · rfl

end Z80Backend
