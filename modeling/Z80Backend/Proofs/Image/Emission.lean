import Z80Backend.Proofs.Assembly.RoundTrip
import Z80Backend.Proofs.Image.Patching

/-! # Emission

    A chunk grows by instructions, stretches of data and labels, one after the
    other.  Each of them is recorded in several places at once: the bytes, the
    listing, the labels and the fixups.  `Chunk.Follows` says how these records
    fit together after a sequence of emissions.

    * `Chunk.Follows.emit`: one more emission keeps them so.
    * `Chunk.follows_emitAll`: any sequence of emissions leaves a new chunk so. -/

namespace Z80Backend

/-! ## Slots of instructions -/

/-- The slot of the fixup is all that follows the first `k` bytes of an
    instruction with these bytes. -/
structure Fixup.Closes (f : Fixup) (bs : List UInt8) (k : Nat) : Prop where
  stop : k + f.width = bs.length
  opcode : f.opcode = bs.take k
  blank : bs.drop k = List.replicate f.width 0
  kind : ∃ b, f.opcode.head? = some b ∧ f.kind = .ofOpcode b

/-- The fixup of an assembled instruction describes what closes it, and there is
    one at most. -/
theorem MachineInstr.closes {m : MachineInstr} (h : m.IsProper) : m.encoding.fixups = [] ∨
    ∃ x k, m.encoding.fixups = [x] ∧ x.offset = Int64.ofNat k ∧ x.Closes m.bytes k := by
  rw [bytes]
  rcases m.encoding_cases with hnone | ⟨b, bs, w, heq, hkind⟩ | ⟨b, v, heq, hkind⟩
  · exact .inl hnone
  · rw [heq]
    cases w with
    | const n => exact .inl rfl
    | symbol name k =>
      refine .inr ⟨_, (b :: bs).length, rfl, rfl, ?_⟩
      refine ⟨?_, List.take_left.symm, ?_, b, rfl, hkind.symm⟩
      · simp [Encoding.withWord, Fixup.width, wordKind_ne_rel8]
      · simp [Encoding.withWord, Fixup.width, wordKind_ne_rel8]
  · rw [heq]
    exact .inr ⟨_, 1, rfl, rfl, rfl, rfl, rfl, b, rfl, (hkind h).symm⟩

/-! ## Emissions -/

/-- What a chunk can grow by. -/
inductive Emission where
  /-- An instruction that the assembler has produced, with what the listing shows
      for it. -/
  | instr (i : Instruction) (code : MachineInstr) (h : ∃ r j, assemble r j = .ok code)
  | data (bytes : List UInt8) (text : String)
  | label (name : String) (span : Span)

namespace Emission

/-- The line for an emission. -/
def line : Emission → Line
  | instr i code _ => .instr i code
  | data bs text => .data bs text
  | label name span => .label name span

/-- The text of an emission. -/
def text : Emission → String
  | instr i _ _ => i.text
  | data _ text => text
  | label name _ => name

/-- Is it a label? -/
def isLabel : Emission → Bool
  | label .. => true
  | _ => false

/-- The bytes of an emission. -/
def bytes (e : Emission) : List UInt8 := e.line.bytes

/-- The bytes of emissions, one after the other. -/
def listBytes (es : List Emission) : List UInt8 := es.flatMap bytes

/-- The entry in the listing for an emission at a position. -/
def entry (pos : Nat) (e : Emission) : ListingLine :=
  { offset := pos, size := e.bytes.length, text := e.text, isLabel := e.isLabel }

theorem listing_line (pos : Nat) (e : Emission) : Line.listing pos [e.line] = [e.entry pos] := by
  cases e <;> rfl

@[simp] theorem listBytes_concat (es : List Emission) (e : Emission) :
    listBytes (es ++ [e]) = listBytes es ++ e.bytes := by
  simp [listBytes]

/-- The fixup comes from one of the instructions, and its slot closes it. -/
def HasSlot (es : List Emission) (f : LocatedFixup) : Prop :=
  ∃ before i code h after k, es = before ++ .instr i code h :: after ∧
    f.offset = Int64.ofNat ((listBytes before).length + k) ∧ f.Closes code.bytes k

theorem HasSlot.concat {es : List Emission} {f : LocatedFixup} (h : HasSlot es f) (e : Emission) :
    HasSlot (es ++ [e]) f := by
  obtain ⟨before, i, code, hcode, after, k, hes, hslot⟩ := h
  refine ⟨before, i, code, hcode, after ++ [e], k, ?_, hslot⟩
  rw [hes, List.append_assoc, List.cons_append]

/-- What has been emitted before some emission and by it is part of the whole. -/
theorem length_listBytes_le (before : List Emission) (e : Emission) (after : List Emission) :
    (listBytes before).length + e.bytes.length ≤ (listBytes (before ++ e :: after)).length := by
  simp only [listBytes, List.flatMap_append, List.flatMap_cons, List.length_append]
  omega

end Emission

/-- Entries of a listing tile the positions from `start` to `stop`. -/
def ListingLine.Tiles (start : Nat) : List ListingLine → Nat → Prop
  | [], stop => start = stop
  | l :: ls, stop => l.offset = start ∧ Tiles (start + l.size) ls stop

theorem ListingLine.Tiles.concat {start stop : Nat} {ls : List ListingLine} {l : ListingLine}
    (h : Tiles start ls stop) (hl : l.offset = stop) : Tiles start (ls ++ [l]) (stop + l.size) := by
  induction ls generalizing start with
  | nil => exact ⟨hl.trans h.symm, congrArg (· + l.size) h⟩
  | cons x ls ih => exact ⟨h.1, ih h.2⟩

namespace Chunk

/-- Appends an emission. -/
def emit (c : Chunk) (e : Emission) : Chunk := c.push e.line

/-- Appends emissions. -/
def emitAll (c : Chunk) (es : List Emission) : Chunk := es.foldl emit c

theorem bytes_emit (c : Chunk) (e : Emission) : (c.emit e).bytes = c.bytes ++ e.bytes :=
  bytes_push c e.line

theorem listing_emit (c : Chunk) (e : Emission) :
    (c.emit e).listing = c.listing ++ [e.entry c.bytes.length] := by
  simp only [listing, emit, push, Line.listing_append, Nat.zero_add, Emission.listing_line, bytes]

theorem labels_emit (c : Chunk) (e : Emission) :
    (c.emit e).labels = c.labels ++ Line.listLabels c.bytes.length [e.line] := by
  simp only [labels, emit, push, Line.listLabels_append, Nat.zero_add, bytes]

/-! ## Records -/

/-- The records of a chunk fit the emissions that it has grown by. -/
structure Follows (c : Chunk) (es : List Emission) : Prop where
  /-- The bytes are those of the emissions. -/
  bytes : c.bytes = Emission.listBytes es
  /-- The listing has one entry for each emission, labels included, and its
      position is the number of bytes emitted before. -/
  listing : ∀ k : Nat,
    c.listing[k]? = es[k]?.map (·.entry (Emission.listBytes (es.take k)).length)
  /-- The entries that are not labels tile the bytes. -/
  tiles : ListingLine.Tiles 0 (c.listing.filter (!·.isLabel)) c.bytes.length
  /-- The labels are those of the listing, with the same positions. -/
  labels : c.labels.map (fun l => (l.name, l.offset)) =
    (c.listing.filter (·.isLabel)).map fun l => (l.text, l.offset)
  /-- The slot of a fixup closes the one instruction that it comes from. -/
  slots : ∀ f ∈ c.fixups, Emission.HasSlot es f
  /-- Slots lie one after the other among the bytes. -/
  apart : c.fixups.Pairwise fun f g => ∃ m n, f.offset = Int64.ofNat m ∧
    g.offset = Int64.ofNat n ∧ m + f.width ≤ n ∧ n + g.width ≤ c.bytes.length

namespace Follows

variable {c : Chunk} {es : List Emission} {e : Emission} {f : LocatedFixup}

/-- Slots end before what comes next. -/
theorem slot_le (h : c.Follows es) (hf : f ∈ c.fixups) :
    ∃ n, f.offset = Int64.ofNat n ∧ n + f.width ≤ c.bytes.length := by
  obtain ⟨before, i, code, hcode, after, k, hes, hoffset, hcloses⟩ := h.slots f hf
  refine ⟨_, hoffset, ?_⟩
  have hle := Emission.length_listBytes_le before (.instr i code hcode) after
  have hbytes : (Emission.instr i code hcode).bytes = code.bytes := rfl
  rw [← hes, ← h.bytes, hbytes, ← hcloses.stop] at hle
  omega

/-- The fixups of an emission, of which there is one at most. -/
theorem fixups_emit (h : c.Follows es) (e : Emission) : (c.emit e).fixups = c.fixups ∨
    ∃ f i code hcode k, (c.emit e).fixups = c.fixups ++ [f] ∧ e = .instr i code hcode ∧
      f.offset = Int64.ofNat ((Emission.listBytes es).length + k) ∧ f.Closes code.bytes k := by
  have hpush : (c.emit e).fixups = c.fixups ++ e.line.fixupsAt c.bytes.length := fixups_push c _
  cases e with
  | data bs text => exact .inl (hpush.trans (List.append_nil _))
  | label name span => exact .inl (hpush.trans (List.append_nil _))
  | instr i code hcode =>
    obtain ⟨r, j, hj⟩ := id hcode
    rcases MachineInstr.closes (form_of_assemble hj).1 with hnone | ⟨x, k, hone, hk, hcloses⟩
    · rw [Emission.line, Line.fixupsAt, hnone] at hpush
      exact .inl (hpush.trans (List.append_nil _))
    · rw [Emission.line, Line.fixupsAt, hone] at hpush
      refine .inr ⟨_, i, code, hcode, k, hpush, rfl, ?_, ?_⟩
      · rw [← h.bytes, Int64.ofNat_add, ← hk]
      · exact ⟨hcloses.stop, hcloses.opcode, hcloses.blank, hcloses.kind⟩

/-- A new chunk has no records. -/
theorem new {c : Chunk} (h : c.lines = []) : c.Follows [] := by
  have hbytes : c.bytes = [] := by rw [Chunk.bytes, h]; rfl
  have hlisting : c.listing = [] := by rw [Chunk.listing, h]; rfl
  have hlabels : c.labels = [] := by rw [Chunk.labels, h]; rfl
  have hfixups : c.fixups = [] := by rw [Chunk.fixups, h]; rfl
  refine ⟨hbytes, fun k => ?_, ?_, ?_, ?_, ?_⟩
  · simp [hlisting]
  · simp [hlisting, hbytes, ListingLine.Tiles]
  · simp [hlisting, hlabels]
  · simp [hfixups]
  · simp [hfixups]

theorem length_listing (h : c.Follows es) : c.listing.length = es.length := by
  have hle : c.listing[es.length]? = none := by simp [h.listing]
  have hge : es[c.listing.length]? = none := by
    simpa using (h.listing c.listing.length).symm
  rw [List.getElem?_eq_none_iff] at hle hge
  omega

/-- The listing grows by the entry of the emission. -/
theorem listing_concat (h : c.Follows es) (e : Emission) (k : Nat) :
    (c.emit e).listing[k]? =
      (es ++ [e])[k]?.map (·.entry (Emission.listBytes ((es ++ [e]).take k)).length) := by
  have hlength := h.length_listing
  rw [listing_emit]
  rcases Nat.lt_trichotomy k es.length with hk | rfl | hk
  · rw [List.getElem?_append_left (hlength ▸ hk), List.getElem?_append_left hk,
      List.take_append_of_le_length (Nat.le_of_lt hk)]
    exact h.listing k
  · rw [← hlength, List.getElem?_concat_length, hlength, List.getElem?_concat_length,
      List.take_left, h.bytes]
    rfl
  · rw [List.getElem?_eq_none (by simp; omega), List.getElem?_eq_none (by simp; omega)]
    rfl

/-- An entry that is no label takes the positions of the bytes emitted. -/
theorem tiles_concat (h : c.Follows es) (e : Emission) :
    ListingLine.Tiles 0 ((c.emit e).listing.filter (!·.isLabel)) (c.emit e).bytes.length := by
  rw [listing_emit, bytes_emit, List.length_append, List.filter_append]
  cases e with
  | instr i code hcode => exact h.tiles.concat rfl
  | data bs text => exact h.tiles.concat rfl
  | label name span =>
    have hnone : [(Emission.label name span).entry c.bytes.length].filter (!·.isLabel) = [] := rfl
    rw [hnone, List.append_nil]
    exact h.tiles

/-- One more emission keeps the records of a chunk in order. -/
theorem emit (h : c.Follows es) (e : Emission) : (c.emit e).Follows (es ++ [e]) where
  bytes := by rw [bytes_emit, Emission.listBytes_concat, h.bytes]
  listing := h.listing_concat e
  tiles := h.tiles_concat e
  labels := by
    rw [labels_emit, listing_emit, List.filter_append, List.map_append, List.map_append, h.labels]
    cases e <;> rfl
  slots f hf := by
    rcases h.fixups_emit e with heq | ⟨g, i, code, hcode, k, heq, rfl, hslot⟩
    · exact (h.slots f (heq ▸ hf)).concat e
    · rw [heq] at hf
      rcases List.mem_append.mp hf with hf | hf
      · exact (h.slots f hf).concat _
      · rw [List.mem_singleton.mp hf]
        exact ⟨es, i, code, hcode, [], k, rfl, hslot⟩
  apart := by
    have hold : c.fixups.Pairwise fun f g => ∃ m n, f.offset = Int64.ofNat m ∧
        g.offset = Int64.ofNat n ∧ m + f.width ≤ n ∧ n + g.width ≤ (c.emit e).bytes.length := by
      refine h.apart.imp fun ⟨m, n, hm, hn, hapart, hle⟩ => ⟨m, n, hm, hn, hapart, ?_⟩
      rw [bytes_emit, List.length_append]
      omega
    rcases h.fixups_emit e with heq | ⟨g, i, code, hcode, k, heq, rfl, hoffset, hcloses⟩
    · exact heq ▸ hold
    · rw [heq, List.pairwise_append]
      refine ⟨hold, List.pairwise_singleton _ _, fun f hf g' hg => ?_⟩
      obtain rfl := List.mem_singleton.mp hg
      obtain ⟨m, hm, hle⟩ := h.slot_le hf
      rw [← h.bytes] at hoffset
      refine ⟨m, _, hm, hoffset, by omega, ?_⟩
      have hbytes : (Emission.instr i code hcode).bytes = code.bytes := rfl
      rw [bytes_emit, List.length_append, hbytes, ← hcloses.stop]
      omega

/-- What holds of a chunk goes on to hold while it grows. -/
theorem emitAll (h : c.Follows es) (fs : List Emission) : (c.emitAll fs).Follows (es ++ fs) := by
  induction fs generalizing c es with
  | nil => rw [List.append_nil]; exact h
  | cons f fs ih =>
    rw [List.append_cons]
    exact ih (h.emit f)

end Follows

/-- However instructions, data and labels are emitted to a new chunk, its listing,
    labels and slots fit its bytes. -/
theorem follows_emitAll (name : String) (kind : SymbolKind) (home : Section)
    (es : List Emission) : (emitAll { name, kind, home } es).Follows es :=
  (Follows.new rfl).emitAll es

end Chunk

end Z80Backend
