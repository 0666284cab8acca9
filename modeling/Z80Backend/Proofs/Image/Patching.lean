import Z80Backend.Proofs.Image.Writing

/-! # Filling of slots

    The slot of a fixup is one byte for a branch and two bytes for anything
    else.  Where the slots of each chunk lie in its own addresses and apart
    from each other, every slot ends up with the bytes of its own patch, and
    no other byte changes. -/

namespace Z80Backend

/-! ## Slots -/

/-- The number of bytes in the slot of a fixup. -/
def Fixup.width (f : Fixup) : Nat := if f.kind = .rel8 then 1 else 2

/-- The position in the chunk belongs to the slot of the fixup. -/
def Fixup.Occupies (f : Fixup) (i : Nat) : Prop :=
  f.offset.toInt ≤ i ∧ (i : Int) < f.offset.toInt + f.width

/-- Every slot lies in the addresses that the chunk occupies. -/
def Chunk.SlotsInside (c : Chunk) : Prop :=
  ∀ f ∈ c.fixups, 0 ≤ f.offset.toInt ∧ f.offset.toInt + f.width ≤ c.size.toInt

/-- No two slots share a position. -/
def Chunk.SlotsApart (c : Chunk) : Prop :=
  c.fixups.Pairwise fun f g => ∀ i, f.Occupies i → ¬ g.Occupies i

/-- A placed chunk whose slots are in order. -/
structure Placement.InOrder (p : Placement) : Prop extends Placement.Inside p where
  inside : p.chunk.SlotsInside
  apart : p.chunk.SlotsApart

namespace Placement

/-- The address belongs to the slot of a fixup of the chunk. -/
def SlotAt (p : Placement) (f : Fixup) (a : Nat) : Prop :=
  p.start.toInt + f.offset.toInt ≤ a ∧ (a : Int) < p.start.toInt + f.offset.toInt + f.width

namespace InOrder

variable {p : Placement} {f : LocatedFixup} {a : Nat}

/-- Nothing of the address of a slot is lost on 64 bits. -/
theorem toInt_address (h : p.InOrder) (hf : f ∈ p.chunk.fixups) :
    (p.start + f.offset).toInt = p.start.toInt + f.offset.toInt ∧
      0 ≤ p.start.toInt + f.offset.toInt ∧
      p.start.toInt + f.offset.toInt + f.width ≤ addressSpace := by
  obtain ⟨hlow, hhigh⟩ := h.inside f hf
  have hstart := h.start
  have hstop := h.stop
  have hspace : (addressSpace : Int) = 65536 := rfl
  refine ⟨?_, by omega, by omega⟩
  rw [Int64.toInt_add]
  exact Int.bmod_eq_of_le (by omega) (by omega)

theorem covers_of_slotAt (h : p.InOrder) (hf : f ∈ p.chunk.fixups) (ha : p.SlotAt f.toFixup a) :
    p.Covers a := by
  obtain ⟨hlow, hhigh⟩ := h.inside f hf
  obtain ⟨h₁, h₂⟩ := ha
  unfold Covers
  omega

theorem slotAt_iff_occupies (h : p.InOrder) {i : Nat} :
    p.SlotAt f.toFixup (p.start.toInt.toNat + i) ↔ f.Occupies i := by
  have hstart := h.start
  unfold SlotAt Fixup.Occupies
  omega

/-- The slots of one chunk do not share an address. -/
theorem pairwise_slotAt (h : p.InOrder) : p.chunk.fixups.Pairwise fun f g =>
    ∀ a, p.SlotAt f.toFixup a → ¬ p.SlotAt g.toFixup a := by
  refine h.apart.imp_of_mem fun {f g} hf _ hfg a hfa hga => ?_
  have hstart := h.start
  have hcovers := h.covers_of_slotAt hf hfa
  obtain ⟨i, rfl⟩ : ∃ i, a = p.start.toInt.toNat + i := by
    refine ⟨a - p.start.toInt.toNat, ?_⟩
    unfold Covers at hcovers
    omega
  exact hfg i (h.slotAt_iff_occupies.mp hfa) (h.slotAt_iff_occupies.mp hga)

end InOrder

end Placement

/-! ## Patches -/

namespace Patch

/-- The bytes of a patch with their addresses. -/
def writes (q : Patch) : List (Nat × UInt8) :=
  q.bytes.zipIdx.map fun (b, i) => (q.address.toInt.toNat + i, b)

theorem mem_writes {q : Patch} {a : Nat} {b : UInt8} :
    (a, b) ∈ q.writes ↔ ∃ i, q.bytes[i]? = some b ∧ a = q.address.toInt.toNat + i := by
  unfold writes
  rw [List.mem_map]
  constructor
  · rintro ⟨⟨b', i⟩, hmem, heq⟩
    cases heq
    exact ⟨i, List.mem_zipIdx_iff_getElem?.mp hmem, rfl⟩
  · rintro ⟨i, hi, rfl⟩
    exact ⟨(b, i), List.mem_zipIdx_iff_getElem?.mpr hi, rfl⟩

theorem keys_writes (q : Patch) :
    q.writes.map Prod.fst = List.range' q.address.toInt.toNat q.bytes.length := by
  unfold writes
  rw [List.map_map]
  apply List.ext_getElem?
  intro i
  simp only [List.getElem?_map, List.getElem?_zipIdx]
  by_cases hi : i < q.bytes.length
  · simp [hi]
  · simp [hi]

end Patch

namespace ByteMap

/-- Changes bytes one after the other. -/
def patchAll (ws : List (Nat × UInt8)) (m : ByteMap Nat) : ByteMap Nat :=
  ws.foldl (fun m x => m.patch x.1 x.2) m

theorem foldl_applyPatch (qs : List Patch) (m : ByteMap Nat) :
    qs.foldl applyPatch m = m.patchAll (qs.flatMap Patch.writes) := by
  rw [patchAll, List.foldl_flatMap]
  congr 1
  funext m q
  rw [applyPatch, Patch.writes, List.foldl_map]

/-- Other addresses stay as they are. -/
theorem cell_patchAll_of_not_mem {ws : List (Nat × UInt8)} {m : ByteMap Nat} {a : Nat}
    (h : a ∉ ws.map Prod.fst) : (m.patchAll ws).cell a = m.cell a := by
  induction ws generalizing m with
  | nil => rfl
  | cons x ws ih =>
    rw [List.map_cons, List.mem_cons, not_or] at h
    have hrest : (m.patchAll (x :: ws)).cell a = (m.patch x.1 x.2).cell a := ih h.2
    rw [hrest, patch, cell_set_of_ne _ _ h.1]

/-- Where addresses are different, each gets its byte. -/
theorem cell_patchAll_of_mem {ws : List (Nat × UInt8)} {m : ByteMap Nat}
    (hkeys : (ws.map Prod.fst).Nodup) {x : Nat × UInt8} (hx : x ∈ ws) :
    (m.patchAll ws).cell x.1 = { m.cell x.1 with byte := x.2 } := by
  induction ws generalizing m with
  | nil => cases hx
  | cons y ws ih =>
    rw [List.map_cons, List.nodup_cons] at hkeys
    have hstep : m.patchAll (y :: ws) = (m.patch y.1 y.2).patchAll ws := rfl
    rw [hstep]
    rcases List.mem_cons.mp hx with rfl | hx
    · rw [cell_patchAll_of_not_mem hkeys.1, patch, cell_set_self]
    · have hne : x.1 ≠ y.1 := fun heq => hkeys.1 (List.mem_map.mpr ⟨x, hx, heq⟩)
      rw [ih hkeys.2 hx, patch, cell_set_of_ne _ _ hne]

/-- Patches do not write. -/
theorem written_patchAll (ws : List (Nat × UInt8)) (m : ByteMap Nat) (a : Nat) :
    ((m.patchAll ws).cell a).written = (m.cell a).written := by
  induction ws generalizing m with
  | nil => rfl
  | cons x ws ih =>
    have hrest : ((m.patchAll (x :: ws)).cell a).written = ((m.patch x.1 x.2).cell a).written :=
      ih _
    rw [hrest, patch]
    by_cases ha : a = x.1
    · rw [ha, cell_set_self]
    · rw [cell_set_of_ne _ _ ha]

end ByteMap

namespace Linker

variable {l : Linker} {ps : List Placement} {p : Placement} {f : Fixup} {q : Patch}

theorem patchOf_eq_ok (h : l.patchOf ps p f = .ok q) :
    ∃ n, l.target ps p.chunk.name f = .ok n ∧ q.kind = f.kind ∧ q.address = p.start + f.offset ∧
      (f.kind = .rel8 → q.value = n - (q.address + 1) ∧ -128 ≤ q.value ∧ q.value ≤ 127) ∧
      (f.kind ≠ .rel8 → q.value = n ∧ 0 ≤ n ∧ n ≤ 0xFFFF) := by
  unfold patchOf at h
  split at h
  · cases h
  · rename_i n hn
    refine ⟨n, hn, ?_⟩
    dsimp only at h
    split at h
    · rename_i hkind
      split at h
      · cases h
      · rename_i hrange
        cases h
        simp only [Bool.or_eq_true, decide_eq_true_eq, not_or, Int64.not_lt] at hrange
        exact ⟨rfl, rfl, fun _ => ⟨rfl, hrange.1, hrange.2⟩, fun hne => absurd hkind hne⟩
    · rename_i hkind
      split at h
      · cases h
      · rename_i hrange
        cases h
        simp only [Bool.or_eq_true, decide_eq_true_eq, not_or, Int64.not_lt] at hrange
        exact ⟨rfl, rfl, fun heq => absurd heq hkind, fun _ => ⟨rfl, hrange.1, hrange.2⟩⟩

/-- A patch has as many bytes as the slot. -/
theorem length_bytes_of_patchOf (h : l.patchOf ps p f = .ok q) : q.bytes.length = f.width := by
  obtain ⟨_, _, hkind, _⟩ := patchOf_eq_ok h
  rw [Patch.bytes, Fixup.width, hkind]
  split <;> rfl

/-- The addresses of a patch are those of the slot. -/
theorem mem_keys_of_patchOf (hp : p.InOrder) {f : LocatedFixup} (hf : f ∈ p.chunk.fixups)
    (h : l.patchOf ps p f.toFixup = .ok q) {a : Nat} :
    a ∈ q.writes.map Prod.fst ↔ p.SlotAt f.toFixup a := by
  obtain ⟨_, _, _, haddress, _⟩ := patchOf_eq_ok h
  obtain ⟨hexact, hlow, _⟩ := hp.toInt_address hf
  rw [Patch.keys_writes, List.mem_range'_1, length_bytes_of_patchOf h, haddress, hexact,
    Placement.SlotAt]
  omega

/-- The slots of placements, each with its placement. -/
def slots (ps : List Placement) : List (Placement × LocatedFixup) :=
  ps.flatMap fun p => p.chunk.fixups.map (p, ·)

theorem mem_slots {x : Placement × LocatedFixup} :
    x ∈ slots ps ↔ x.1 ∈ ps ∧ x.2 ∈ x.1.chunk.fixups := by
  unfold slots
  rw [List.mem_flatMap]
  constructor
  · rintro ⟨p, hp, hx⟩
    obtain ⟨f, hf, rfl⟩ := List.mem_map.mp hx
    exact ⟨hp, hf⟩
  · rintro ⟨hp, hf⟩
    exact ⟨x.1, hp, List.mem_map.mpr ⟨x.2, hf, rfl⟩⟩

/-- No two slots of placements share an address. -/
theorem pairwise_slots (hps : ∀ p ∈ ps, p.InOrder)
    (hapart : ps.Pairwise fun p q => ∀ a, p.Covers a → ¬ q.Covers a) :
    (slots ps).Pairwise fun x y =>
      ∀ a, x.1.SlotAt x.2.toFixup a → ¬ y.1.SlotAt y.2.toFixup a := by
  unfold slots
  rw [List.pairwise_flatMap]
  refine ⟨fun p hp => List.pairwise_map.mpr (hps p hp).pairwise_slotAt, ?_⟩
  refine hapart.imp_of_mem fun {p q} hp hq hpq x hx y hy a hxa hya => ?_
  obtain ⟨f, hf, rfl⟩ := List.mem_map.mp hx
  obtain ⟨g, hg, rfl⟩ := List.mem_map.mp hy
  exact hpq a ((hps p hp).covers_of_slotAt hf hxa) ((hps q hq).covers_of_slotAt hg hya)

/-! ## All patches -/

/-- The patches among outcomes. -/
def filled (outcomes : List (Except Diagnostic Patch)) : List Patch :=
  outcomes.filterMap fun x => match x with | .ok p => some p | .error _ => none

/-- The diagnostics among outcomes. -/
def failed (outcomes : List (Except Diagnostic Patch)) : List Diagnostic :=
  outcomes.filterMap fun x => match x with | .ok _ => none | .error d => some d

theorem mem_filled {outcomes : List (Except Diagnostic Patch)} :
    q ∈ filled outcomes ↔ .ok q ∈ outcomes := by
  unfold filled
  rw [List.mem_filterMap]
  constructor
  · rintro ⟨x, hx, heq⟩
    cases x with
    | ok q' =>
      cases heq
      exact hx
    | error d => cases heq
  · intro h
    exact ⟨_, h, rfl⟩

/-- Without failures every outcome is a patch. -/
theorem exists_of_not_failed {outcomes : List (Except Diagnostic Patch)}
    (h : failed outcomes = []) {x : Except Diagnostic Patch} (hx : x ∈ outcomes) :
    ∃ q, x = .ok q := by
  cases x with
  | ok q => exact ⟨q, rfl⟩
  | error d =>
    have hd : d ∈ failed outcomes := List.mem_filterMap.mpr ⟨_, hx, rfl⟩
    rw [h] at hd
    cases hd

/-- The outcome for a slot. -/
def outcome (l : Linker) (ps : List Placement) (x : Placement × LocatedFixup) :
    Except Diagnostic Patch :=
  match l.patchOf ps x.1 x.2.toFixup with
  | .error e => .error { problem := .fixup e, span := x.2.span }
  | .ok q => .ok q

theorem patchOf_of_outcome {x : Placement × LocatedFixup} (h : l.outcome ps x = .ok q) :
    l.patchOf ps x.1 x.2.toFixup = .ok q := by
  unfold outcome at h
  split at h
  · cases h
  · rename_i q' hq
    cases h
    exact hq

theorem patches_eq (hfits : ∀ p ∈ ps, p.fits = true) :
    l.patches ps = (slots ps).map (l.outcome ps) := by
  rw [patches, slots, List.filter_eq_self.mpr hfits, List.map_flatMap]
  congr 1
  funext p
  rw [List.map_map]
  rfl

/-- The patches of slots that share no address change different addresses. -/
theorem nodup_keys (hps : ∀ p ∈ ps, p.InOrder)
    (hapart : ps.Pairwise fun p q => ∀ a, p.Covers a → ¬ q.Covers a) :
    (((filled ((slots ps).map (l.outcome ps))).flatMap Patch.writes).map Prod.fst).Nodup := by
  rw [List.map_flatMap, List.Nodup, List.pairwise_flatMap]
  refine ⟨fun q _ => ?_, ?_⟩
  · rw [Patch.keys_writes]
    exact List.nodup_range'
  · unfold filled
    rw [List.pairwise_filterMap, List.pairwise_map]
    refine (pairwise_slots hps hapart).imp_of_mem ?_
    intro x y hx hy hxy q hq r hr a ha b hb heq
    have hqok : l.outcome ps x = .ok q := by
      split at hq
      · cases hq
        assumption
      · cases hq
    have hrok : l.outcome ps y = .ok r := by
      split at hr
      · cases hr
        assumption
      · cases hr
    obtain ⟨hxp, hxf⟩ := mem_slots.mp hx
    obtain ⟨hyp, hyf⟩ := mem_slots.mp hy
    have hxa := (mem_keys_of_patchOf (hps _ hxp) hxf (patchOf_of_outcome hqok)).mp ha
    have hyb := (mem_keys_of_patchOf (hps _ hyp) hyf (patchOf_of_outcome hrok)).mp hb
    exact hxy a hxa (heq ▸ hyb)

/-- Every slot gets the bytes of its patch, and nothing else changes. -/
theorem cell_patched (hps : ∀ p ∈ ps, p.InOrder) (hfits : ∀ p ∈ ps, p.fits = true)
    (hapart : ps.Pairwise fun p q => ∀ a, p.Covers a → ¬ q.Covers a)
    (hfailed : failed (l.patches ps) = []) (m : ByteMap Nat) :
    (∀ p ∈ ps, ∀ f ∈ p.chunk.fixups, ∃ q, l.patchOf ps p f.toFixup = .ok q ∧
      ∀ i b, q.bytes[i]? = some b →
        ((filled (l.patches ps)).foldl ByteMap.applyPatch m).cell (q.address.toInt.toNat + i) =
          { m.cell (q.address.toInt.toNat + i) with byte := b }) ∧
    ∀ a, (∀ p ∈ ps, ∀ f ∈ p.chunk.fixups, ¬ p.SlotAt f.toFixup a) →
      ((filled (l.patches ps)).foldl ByteMap.applyPatch m).cell a = m.cell a := by
  have hkeys := nodup_keys (l := l) hps hapart
  rw [patches_eq hfits] at hfailed ⊢
  rw [ByteMap.foldl_applyPatch]
  refine ⟨fun p hp f hf => ?_, fun a ha => ?_⟩
  · have hx : l.outcome ps (p, f) ∈ (slots ps).map (l.outcome ps) :=
      List.mem_map_of_mem (mem_slots.mpr ⟨hp, hf⟩)
    obtain ⟨q, hq⟩ := exists_of_not_failed hfailed hx
    refine ⟨q, patchOf_of_outcome hq, fun i b hb => ?_⟩
    rw [hq] at hx
    have hmem := List.mem_flatMap.mpr ⟨q, mem_filled.mpr hx, Patch.mem_writes.mpr ⟨i, hb, rfl⟩⟩
    exact ByteMap.cell_patchAll_of_mem hkeys hmem
  · refine ByteMap.cell_patchAll_of_not_mem fun hmem => ?_
    rw [List.map_flatMap] at hmem
    obtain ⟨q, hq, hqa⟩ := List.mem_flatMap.mp hmem
    obtain ⟨x, hx, hxq⟩ := List.mem_map.mp (mem_filled.mp hq)
    obtain ⟨hxp, hxf⟩ := mem_slots.mp hx
    exact ha x.1 hxp x.2 hxf
      ((mem_keys_of_patchOf (hps _ hxp) hxf (patchOf_of_outcome hxq)).mp hqa)

end Linker

/-! ## Values of slots -/

theorem toNat_lowByte (i : Int) : (UInt8.ofInt i).toNat = (i % 256).toNat := by
  rw [UInt8.ofInt, UInt8.toNat_ofNat']
  omega

/-- What remains of a number above its low byte. -/
theorem toInt_highPart (n : Int64) : (n >>> 8).toInt = n.toInt / 256 := by
  have h : (n >>> 8).toBitVec = n.toBitVec.sshiftRight 8 := rfl
  rw [← Int64.toInt_toBitVec, h, BitVec.toInt_sshiftRight, Int.shiftRight_eq_div_pow]
  rfl

/-- A byte that is read as a signed number. -/
theorem toInt_lowByte {i : Int} (hlow : -128 ≤ i) (hhigh : i ≤ 127) :
    (UInt8.ofInt i).toInt8.toInt = i := by
  have h : (UInt8.ofInt i).toInt8.toInt = ((UInt8.ofInt i).toNat : Int).bmod (2 ^ 8) :=
    BitVec.toInt_eq_toNat_bmod _
  rw [h, toNat_lowByte, Int.bmod_def]
  split <;> omega

namespace Patch

variable {q : Patch} {n : Int64}

/-- A branch goes from the byte behind its slot to the target. -/
theorem bytes_of_branch (hkind : q.kind = .rel8) (hvalue : q.value = n - (q.address + 1))
    (hlow : -128 ≤ q.value) (hhigh : q.value ≤ 127) (haddress : 0 ≤ q.address.toInt)
    (hspace : q.address.toInt < addressSpace) :
    ∃ b, q.bytes = [b] ∧ q.address.toInt + 1 + b.toInt8.toInt = n.toInt := by
  have hspace' : (addressSpace : Int) = 65536 := rfl
  have hlow' : -128 ≤ q.value.toInt := Int64.le_iff_toInt_le.mp hlow
  have hhigh' : q.value.toInt ≤ 127 := Int64.le_iff_toInt_le.mp hhigh
  refine ⟨UInt8.ofInt q.value.toInt, by rw [bytes, if_pos hkind], ?_⟩
  rw [toInt_lowByte hlow' hhigh']
  have hnext : (q.address + 1).toInt = q.address.toInt + 1 := by
    rw [Int64.toInt_add]
    exact Int.bmod_eq_of_le (by simp; omega) (by simp; omega)
  -- the difference is small and so was not reduced
  have hdiff : q.value.toInt = (n.toInt - (q.address.toInt + 1)).bmod (2 ^ 64) := by
    rw [hvalue, Int64.toInt_sub, hnext]
  have hmin := n.le_toInt
  have hmax := n.toInt_lt
  rw [Int.bmod_def] at hdiff
  split at hdiff <;> omega

/-- A word is stored with its low byte first. -/
theorem bytes_of_word (hkind : q.kind ≠ .rel8) (hvalue : q.value = n) (hlow : 0 ≤ n)
    (hhigh : n ≤ 0xFFFF) :
    ∃ lo hi, q.bytes = [lo, hi] ∧ (lo.toNat + 256 * hi.toNat : Int) = n.toInt := by
  have hlow' : 0 ≤ n.toInt := Int64.le_iff_toInt_le.mp hlow
  have hhigh' : n.toInt ≤ 0xFFFF := Int64.le_iff_toInt_le.mp hhigh
  refine ⟨UInt8.ofInt n.toInt, UInt8.ofInt (n >>> 8).toInt, by rw [bytes, if_neg hkind, hvalue], ?_⟩
  rw [toInt_highPart, toNat_lowByte, toNat_lowByte]
  omega

end Patch

end Z80Backend
