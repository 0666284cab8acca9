import Mathlib.Algebra.Group.Nat.Defs
import Mathlib.Data.List.Induction
import Mathlib.Data.List.Nodup
import Z80Backend.Proofs.Image.Patching

/-! # Relocation

    An image that is linked without a report is the relocated program: every
    chunk stands at an address of its own, every byte outside of slots is
    where its chunk says, every slot leads to the target of its fixup, and
    nothing else is written (`Linker.Relocates`).

    What a name means is said here on its own (`Linker.Means`), in the order
    of look-up: a label of the chunk, a chunk, a symbol of the linker, a
    constant, an enum member. -/

namespace Z80Backend

/-! ## Places -/

namespace Placement

theorem map_chunk_placeAll (cursor : Int64) (cs : List Chunk) :
    (placeAll cursor cs).1.map (·.chunk) = cs := by
  induction cs generalizing cursor with
  | nil => rfl
  | cons c cs ih =>
    rw [placeAll, List.map_cons, ih]
    rfl

theorem map_chunk_placeSections (layout : Layout) (cs : List Chunk) (cursor : Int64)
    (ss : List Section) :
    (placeSections layout cs cursor ss).map (·.chunk) =
      ss.flatMap fun s => cs.filter (·.home == s) := by
  induction ss generalizing cursor with
  | nil => rfl
  | cons s ss ih =>
    rw [placeSections, List.map_append, map_chunk_placeAll, ih, List.flatMap_cons]

/-- The chunks of the three sections are all chunks. -/
theorem perm_sections {cs : List Chunk} (h : ∀ c ∈ cs, c.home ∈ [Section.code, .data, .var]) :
    ([Section.code, .data, .var].flatMap fun s => cs.filter (·.home == s)).Perm cs := by
  induction cs with
  | nil => exact .refl _
  | cons c cs ih =>
    have hrest := ih fun c' hc' => h c' (List.mem_cons_of_mem c hc')
    simp only [List.flatMap_cons, List.flatMap_nil, List.append_nil] at hrest ⊢
    have hhome := h c List.mem_cons_self
    simp only [List.mem_cons, List.not_mem_nil, or_false] at hhome
    rcases hhome with hhome | hhome | hhome
    · rw [List.filter_cons_of_pos (by simp [hhome]), List.filter_cons_of_neg (by simp [hhome]),
        List.filter_cons_of_neg (by simp [hhome])]
      exact hrest.cons c
    · rw [List.filter_cons_of_neg (by simp [hhome]), List.filter_cons_of_pos (by simp [hhome]),
        List.filter_cons_of_neg (by simp [hhome])]
      exact List.perm_middle.trans (hrest.cons c)
    · rw [List.filter_cons_of_neg (by simp [hhome]), List.filter_cons_of_neg (by simp [hhome]),
        List.filter_cons_of_pos (by simp [hhome]), ← List.append_assoc]
      refine List.perm_middle.trans (.cons c ?_)
      rw [List.append_assoc]
      exact hrest

/-- Every chunk of a known section gets a place. -/
theorem perm_ofChunks (layout : Layout) {cs : List Chunk}
    (h : ∀ c ∈ cs, c.home ∈ [Section.code, .data, .var]) :
    ((ofChunks layout cs).map (·.chunk)).Perm cs := by
  rw [ofChunks, map_chunk_placeSections]
  exact perm_sections h

end Placement

/-! ## Names -/

/-- The last entry with the name has the value. -/
def IsLast (name : String) (entries : List (String × Int64)) (v : Int64) : Prop :=
  ∃ before after, entries = before ++ (name, v) :: after ∧ ∀ x ∈ after, x.1 ≠ name

theorem lastOf_cases (name : String) (entries : List (String × Int64)) :
    (∃ v, lastOf name entries = some v ∧ IsLast name entries v) ∨
      (lastOf name entries = none ∧ ∀ x ∈ entries, x.1 ≠ name) := by
  unfold lastOf
  induction entries using List.reverseRecOn with
  | nil => exact .inr ⟨rfl, by simp⟩
  | append_singleton entries x ih =>
    obtain ⟨key, v⟩ := x
    rw [List.reverse_append, List.reverse_singleton, List.singleton_append, List.lookup_cons]
    by_cases hname : name = key
    · subst hname
      rw [beq_self_eq_true]
      exact .inl ⟨v, rfl, entries, [], rfl, by simp⟩
    · have hkey : (name == key) = false := by simpa using hname
      rw [hkey]
      rcases ih with ⟨w, hw, before, after, rfl, hafter⟩ | ⟨hnone, hall⟩
      · refine .inl ⟨w, hw, before, after ++ [(key, v)], by simp, ?_⟩
        intro x hx
        rcases List.mem_append.mp hx with hx | hx
        · exact hafter x hx
        · rw [List.mem_singleton.mp hx]
          exact fun heq => hname heq.symm
      · refine .inr ⟨hnone, fun x hx => ?_⟩
        rcases List.mem_append.mp hx with hx | hx
        · exact hall x hx
        · rw [List.mem_singleton.mp hx]
          exact fun heq => hname heq.symm

namespace Linker

/-- The value that a name has in a placed chunk.  `consts` and `enums` are the
    constants and enum members of the environment. -/
inductive Means (l : Linker) (consts enums : String → Option Int64) (ps : List Placement)
    (p : Placement) (name : String) : Int64 → Prop where
  | label {v} (h : IsLast name (p.labels.map fun (x, a) => (x.name, a)) v) :
      Means l consts enums ps p name v
  | chunk {q} (hlabel : ∀ x ∈ p.chunk.labels, x.name ≠ name) (hq : q ∈ ps)
      (hname : q.chunk.name = name) : Means l consts enums ps p name q.start
  | symbol {v} (hlabel : ∀ x ∈ p.chunk.labels, x.name ≠ name)
      (hchunk : ∀ q ∈ ps, q.chunk.name ≠ name)
      (h : IsLast name (l.symbols.map fun s => (s.name, s.denotes)) v) :
      Means l consts enums ps p name v
  | const {v} (hlabel : ∀ x ∈ p.chunk.labels, x.name ≠ name)
      (hchunk : ∀ q ∈ ps, q.chunk.name ≠ name) (hsymbol : ∀ s ∈ l.symbols, s.name ≠ name)
      (h : consts name = some v) : Means l consts enums ps p name v
  | enum {v} (hlabel : ∀ x ∈ p.chunk.labels, x.name ≠ name)
      (hchunk : ∀ q ∈ ps, q.chunk.name ≠ name) (hsymbol : ∀ s ∈ l.symbols, s.name ≠ name)
      (hconst : consts name = none) (h : enums name = some v) : Means l consts enums ps p name v

/-- The target of a fixup: the addend, together with the value of the symbol if
    there is one. -/
inductive Targets (l : Linker) (consts enums : String → Option Int64) (ps : List Placement)
    (p : Placement) (f : Fixup) : Int64 → Prop where
  | absolute (h : f.symbol = "") : Targets l consts enums ps p f f.addend
  | relative {v} (h : f.symbol ≠ "") (hv : Means l consts enums ps p f.symbol v) :
      Targets l consts enums ps p f (f.addend + v)

variable {l : Linker} {consts enums : String → Option Int64} {ps : List Placement}
  {p : Placement} {name : String} {v : Int64}

/-- Names that are distinct tell placements apart, and a placed chunk finds its
    own labels. -/
theorem localNames_eq (hfits : ∀ p ∈ ps, p.fits = true)
    (hnames : (ps.map (·.chunk.name)).Nodup) (hp : p ∈ ps) :
    localNames ps p.chunk.name = p.labels.map fun (x, a) => (x.name, a) := by
  have hmem : p ∈ ps.filter fun q => q.fits && q.chunk.name == p.chunk.name :=
    List.mem_filter.mpr ⟨hp, by simp [hfits p hp]⟩
  unfold localNames
  split
  · rename_i q hq
    have hfound := List.mem_filter.mp (List.mem_of_getLast? hq)
    have hsame : q.chunk.name = p.chunk.name := by simpa using (Bool.and_eq_true_iff.mp hfound.2).2
    have hqp : q = p := List.inj_on_of_nodup_map hnames hfound.1 hp hsame
    rw [hqp]
  · rename_i hnone
    rw [List.getLast?_eq_none_iff] at hnone
    rw [hnone] at hmem
    cases hmem

/-- A chunk is found before the symbols of the linker. -/
theorem moduleNames_cases (hfits : ∀ p ∈ ps, p.fits = true) (name : String) :
    (∃ q ∈ ps, q.chunk.name = name ∧ lastOf name (l.moduleNames ps) = some q.start) ∨
    (∀ q ∈ ps, q.chunk.name ≠ name) ∧
      ((∃ v, lastOf name (l.moduleNames ps) = some v ∧
          IsLast name (l.symbols.map fun s => (s.name, s.denotes)) v) ∨
        lastOf name (l.moduleNames ps) = none ∧ ∀ s ∈ l.symbols, s.name ≠ name) := by
  have hsplit : lastOf name (l.moduleNames ps) =
      (lastOf name (ps.map fun p => (p.chunk.name, p.start))).or
        (lastOf name (l.symbols.map fun s => (s.name, s.denotes))) := by
    rw [moduleNames, List.filter_eq_self.mpr hfits, lastOf, List.reverse_append,
      List.lookup_append]
    rfl
  rw [hsplit]
  rcases lastOf_cases name (ps.map fun p => (p.chunk.name, p.start)) with
    ⟨v, hv, before, after, heq, _⟩ | ⟨hnone, hall⟩
  · obtain ⟨q, hq, hqv⟩ : ∃ q ∈ ps, (q.chunk.name, q.start) = (name, v) := by
      refine List.mem_map.mp ?_
      rw [heq]
      exact List.mem_append_right _ List.mem_cons_self
    cases hqv
    exact .inl ⟨q, hq, rfl, by rw [hv]; rfl⟩
  · refine .inr ⟨fun q hq => hall _ (List.mem_map_of_mem hq), ?_⟩
    rw [hnone, Option.none_or]
    rcases lastOf_cases name (l.symbols.map fun s => (s.name, s.denotes)) with h | ⟨h, hsyms⟩
    · exact .inl h
    · exact .inr ⟨h, fun s hs => hsyms _ (List.mem_map_of_mem hs)⟩

/-- Look-up gives what the name means. -/
theorem means_of_value? (hfits : ∀ p ∈ ps, p.fits = true)
    (hnames : (ps.map (·.chunk.name)).Nodup)
    (henv : ∀ name, l.resolver.value? name = (consts name).or (enums name)) (hp : p ∈ ps)
    (h : l.value? ps p.chunk.name name = some v) : l.Means consts enums ps p name v := by
  rw [value?, localNames_eq hfits hnames hp] at h
  rcases lastOf_cases name (p.labels.map fun (x, a) => (x.name, a)) with
    ⟨w, hw, hlast⟩ | ⟨hnone, hall⟩
  · rw [hw] at h
    cases h
    exact .label hlast
  · have hlabel : ∀ x ∈ p.chunk.labels, x.name ≠ name := by
      intro x hx
      exact hall _ (List.mem_map_of_mem (List.mem_map_of_mem hx))
    rw [hnone, Option.none_or] at h
    rcases moduleNames_cases (l := l) hfits name with
      ⟨q, hq, hname, hlast⟩ | ⟨hchunk, ⟨w, hw, hlast⟩ | ⟨hnone, hsymbol⟩⟩
    · rw [hlast] at h
      cases h
      exact .chunk hlabel hq hname
    · rw [hw] at h
      cases h
      exact .symbol hlabel hchunk hlast
    · rw [hnone, Option.none_or, henv] at h
      cases hconst : consts name with
      | some w =>
        rw [hconst] at h
        cases h
        exact .const hlabel hchunk hsymbol hconst
      | none =>
        rw [hconst, Option.none_or] at h
        exact .enum hlabel hchunk hsymbol hconst h

theorem targets_of_target (hfits : ∀ p ∈ ps, p.fits = true)
    (hnames : (ps.map (·.chunk.name)).Nodup)
    (henv : ∀ name, l.resolver.value? name = (consts name).or (enums name)) (hp : p ∈ ps)
    {f : Fixup} {n : Int64} (h : l.target ps p.chunk.name f = .ok n) :
    l.Targets consts enums ps p f n := by
  unfold target at h
  split at h
  · rename_i hsymbol
    cases h
    exact .absolute hsymbol
  · rename_i hsymbol
    split at h
    · rename_i v hv
      cases h
      exact .relative hsymbol (means_of_value? hfits hnames henv hp hv)
    · cases h

end Linker

/-! ## Images -/

/-- A chunk that can be linked: it is in a known section, its length is a
    64-bit number, and its slots are apart and in the addresses it occupies. -/
structure Chunk.IsLinkable (c : Chunk) : Prop where
  home : c.home ∈ [Section.code, .data, .var]
  length : c.bytes.length < 2 ^ 63
  inside : c.SlotsInside
  apart : c.SlotsApart

namespace Linker

/-- The image is the relocated program. -/
structure Relocates (l : Linker) (consts enums : String → Option Int64) (chunks : List Chunk)
    (img : Image) : Prop where
  /-- Every chunk has a place. -/
  perm : (img.placements.map (·.chunk)).Perm chunks
  placed : ∀ p ∈ img.placements, p.fits = true
  inside : ∀ p ∈ img.placements,
    0 ≤ p.start.toInt ∧ p.start.toInt + p.chunk.size.toInt ≤ addressSpace
  apart : img.placements.Pairwise fun p q => ∀ a, p.Covers a → ¬ q.Covers a
  /-- Bytes outside of slots are those of the chunk. -/
  bytes : ∀ p ∈ img.placements, ¬ 0 < p.chunk.reserved → ∀ i b, p.chunk.bytes[i]? = some b →
    (∀ f ∈ p.chunk.fixups, ¬ f.Occupies i) →
    img.bytes.get (p.start.toInt.toNat + i) = (b, true)
  /-- A branch goes from the byte behind its slot to its target. -/
  branch : ∀ p ∈ img.placements, ∀ f ∈ p.chunk.fixups, f.kind = .rel8 →
    ∃ n, l.Targets consts enums img.placements p f.toFixup n ∧
      ∃ a : Nat, (a : Int) = p.start.toInt + f.offset.toInt ∧
        (a + 1 : Int) + (img.bytes.get a).1.toInt8.toInt = n.toInt
  /-- Any other slot holds its target with the low byte first. -/
  word : ∀ p ∈ img.placements, ∀ f ∈ p.chunk.fixups, f.kind ≠ .rel8 →
    ∃ n, l.Targets consts enums img.placements p f.toFixup n ∧
      ∃ a : Nat, (a : Int) = p.start.toInt + f.offset.toInt ∧
        ((img.bytes.get a).1.toNat + 256 * (img.bytes.get (a + 1)).1.toNat : Int) = n.toInt
  /-- Only chunks with bytes are written. -/
  written : ∀ a, (img.bytes.get a).2 = true ↔
    ∃ p ∈ img.placements, ¬ 0 < p.chunk.reserved ∧ p.Covers a

variable {l : Linker} {consts enums : String → Option Int64} {chunks : List Chunk} {x : Linked}

/-- What linking comes to when it gives a result. -/
theorem link_eq_ok (h : l.link chunks = .ok x) :
    (∀ p ∈ Placement.ofChunks l.layout chunks, p.isRunaway = false) ∧
    x.image.placements = Placement.ofChunks l.layout chunks ∧
    x.image.bytes = (filled (l.patches x.image.placements)).foldl ByteMap.applyPatch
      (({} : ByteMap Nat).writeAll x.image.placements 0 x.image.placements).1 ∧
    x.diagnostics =
      (x.image.placements.filter (!·.fits)).map (fun p =>
        { problem := .layout (.overflow p.chunk.home p.chunk.name p.stop)
          span := p.chunk.span }) ++
      (({} : ByteMap Nat).writeAll x.image.placements 0 x.image.placements).2 ++
      failed (l.patches x.image.placements) := by
  unfold link at h
  dsimp only at h
  split at h
  · cases h
  · rename_i hrun
    split at h
    · cases h
    · cases h
      refine ⟨fun p hp => ?_, rfl, rfl, rfl⟩
      simpa using List.find?_eq_none.mp hrun p hp

/-- A placement that fits and does not run away lies in the address space. -/
theorem inside_of_fits {p : Placement} (hfits : p.fits = true) (hrun : p.isRunaway = false) :
    0 ≤ p.start.toInt ∧ p.start.toInt + p.chunk.size.toInt ≤ addressSpace := by
  rw [Placement.isRunaway, hfits, Bool.true_and, decide_eq_false_iff_not, Int.not_lt] at hrun
  refine ⟨?_, hrun⟩
  rw [Placement.fits, Bool.not_eq_true', Bool.or_eq_false_iff, decide_eq_false_iff_not,
    Int64.not_lt] at hfits
  exact Int64.le_iff_toInt_le.mp hfits.1

/-- A chunk without a place, a collision and a slot that cannot be filled are all
    reported. -/
theorem link_of_clean (h : l.link chunks = .ok x) (hclean : x.diagnostics = []) :
    (∀ p ∈ x.image.placements, p.fits = true ∧
      0 ≤ p.start.toInt ∧ p.start.toInt + p.chunk.size.toInt ≤ addressSpace) ∧
    (({} : ByteMap Nat).writeAll x.image.placements 0 x.image.placements).2 = [] ∧
    failed (l.patches x.image.placements) = [] := by
  obtain ⟨hrun, hps, _, hdiag⟩ := link_eq_ok h
  rw [hclean] at hdiag
  obtain ⟨hfront, hfailed⟩ := List.append_eq_nil_iff.mp hdiag.symm
  obtain ⟨hover, hwrite⟩ := List.append_eq_nil_iff.mp hfront
  refine ⟨fun p hp => ?_, hwrite, hfailed⟩
  have hfits : p.fits = true := by
    have hnot := List.filter_eq_nil_iff.mp (List.map_eq_nil_iff.mp hover) p hp
    simpa using hnot
  exact ⟨hfits, inside_of_fits hfits (hrun p (hps ▸ hp))⟩

/-- A slot that was filled leads to the target of its fixup. -/
theorem slot_of_patch {ps : List Placement} {p : Placement} {f : LocatedFixup} {q : Patch}
    {m : ByteMap Nat} (hp : p.InOrder) (hf : f ∈ p.chunk.fixups)
    (hq : l.patchOf ps p f.toFixup = .ok q)
    (hm : ∀ i b, q.bytes[i]? = some b → (m.get (q.address.toInt.toNat + i)).1 = b) :
    ∃ n, l.target ps p.chunk.name f.toFixup = .ok n ∧
      ∃ a : Nat, (a : Int) = p.start.toInt + f.offset.toInt ∧
        (f.kind = .rel8 → (a + 1 : Int) + (m.get a).1.toInt8.toInt = n.toInt) ∧
        (f.kind ≠ .rel8 →
          ((m.get a).1.toNat + 256 * (m.get (a + 1)).1.toNat : Int) = n.toInt) := by
  obtain ⟨n, hn, hkind, haddress, hbranch, hword⟩ := patchOf_eq_ok hq
  obtain ⟨hexact, hlow, hhigh⟩ := hp.toInt_address hf
  rw [← haddress] at hexact
  refine ⟨n, hn, q.address.toInt.toNat, by omega, fun hrel => ?_, fun hrel => ?_⟩
  · obtain ⟨hvalue, hmin, hmax⟩ := hbranch hrel
    have hwidth : f.width = 1 := by rw [Fixup.width, if_pos hrel]
    obtain ⟨b, hbytes, hb⟩ := Patch.bytes_of_branch (hkind.trans hrel) hvalue hmin hmax
      (by omega) (by omega)
    have hget : (m.get q.address.toInt.toNat).1 = b := hm 0 b (by rw [hbytes]; rfl)
    rw [hget]
    omega
  · obtain ⟨hvalue, hmin, hmax⟩ := hword hrel
    obtain ⟨lo, hi, hbytes, hlohi⟩ :=
      Patch.bytes_of_word (fun h => hrel (hkind ▸ h)) hvalue hmin hmax
    have hlo : (m.get q.address.toInt.toNat).1 = lo := hm 0 lo (by rw [hbytes]; rfl)
    have hhi : (m.get (q.address.toInt.toNat + 1)).1 = hi := hm 1 hi (by rw [hbytes]; rfl)
    rw [hlo, hhi]
    exact hlohi

/-- A cleanly linked image is the relocated program. -/
theorem link_relocates (l : Linker) (consts enums : String → Option Int64) (chunks : List Chunk)
    (x : Linked) (henv : ∀ name, l.resolver.value? name = (consts name).or (enums name))
    (hnames : (chunks.map (·.name)).Nodup) (hchunks : ∀ c ∈ chunks, c.IsLinkable)
    (hlink : l.link chunks = .ok x) (hclean : x.diagnostics = []) :
    l.Relocates consts enums chunks x.image := by
  obtain ⟨_, hplaces, hbytes, _⟩ := link_eq_ok hlink
  obtain ⟨hplaced, hwrite, hfailed⟩ := link_of_clean hlink hclean
  have hperm : (x.image.placements.map (·.chunk)).Perm chunks := by
    rw [hplaces]
    exact Placement.perm_ofChunks l.layout fun c hc => (hchunks c hc).home
  have hfits : ∀ p ∈ x.image.placements, p.fits = true := fun p hp => (hplaced p hp).1
  have horder : ∀ p ∈ x.image.placements, p.InOrder := by
    intro p hp
    have hc := hchunks p.chunk (hperm.mem_iff.mp (List.mem_map_of_mem hp))
    exact ⟨⟨(hplaced p hp).2.1, (hplaced p hp).2.2, hc.length⟩, hc.inside, hc.apart⟩
  have hdistinct : (x.image.placements.map (·.chunk.name)).Nodup := by
    have h := (hperm.map Chunk.name).nodup_iff.mpr hnames
    rwa [List.map_map] at h
  have hwrote : ByteMap.Wrote 0 x.image.placements {}
      (({} : ByteMap Nat).writeAll x.image.placements 0 x.image.placements).1 :=
    ByteMap.wrote_of_clean (fun a => .inl (ByteMap.cell_empty a))
      (fun p hp => ⟨hfits p hp, (horder p hp).toInside⟩) (Prod.ext rfl hwrite)
  generalize (({} : ByteMap Nat).writeAll x.image.placements 0 x.image.placements).1 = m at *
  obtain ⟨hslots, hframe⟩ := cell_patched horder hfits hwrote.apart hfailed m
  rw [← hbytes] at hslots hframe
  have hfilled : ∀ p ∈ x.image.placements, ∀ f ∈ p.chunk.fixups,
      ∃ n, l.Targets consts enums x.image.placements p f.toFixup n ∧
        ∃ a : Nat, (a : Int) = p.start.toInt + f.offset.toInt ∧
          (f.kind = .rel8 → (a + 1 : Int) + (x.image.bytes.get a).1.toInt8.toInt = n.toInt) ∧
          (f.kind ≠ .rel8 → ((x.image.bytes.get a).1.toNat +
            256 * (x.image.bytes.get (a + 1)).1.toNat : Int) = n.toInt) := by
    intro p hp f hf
    obtain ⟨q, hq, hcell⟩ := hslots p hp f hf
    obtain ⟨n, hn, hslot⟩ := slot_of_patch (horder p hp) hf hq fun i b hb => by
      rw [ByteMap.get, hcell i b hb]
    exact ⟨n, targets_of_target hfits hdistinct henv hp hn, hslot⟩
  exact
    { perm := hperm
      placed := hfits
      inside := fun p hp => (hplaced p hp).2
      apart := hwrote.apart
      bytes := by
        intro p hp hres i b hb hfree
        obtain ⟨hcovers, hbyte⟩ := Placement.covers_of_byte (horder p hp).toInside hres hb
        obtain ⟨k, hk⟩ := List.mem_iff_getElem?.mp hp
        have hcell := hframe (p.start.toInt.toNat + i) fun q hq f hf hslot => by
          have hqp := hwrote.eq_of_covers hq hp ((horder q hq).covers_of_slotAt hf hslot) hcovers
          subst hqp
          exact hfree f hf ((horder q hq).slotAt_iff_occupies.mp hslot)
        rw [ByteMap.get, hcell, hwrote.held k p _ hk hcovers, ByteMap.heldBy, hbyte]
        rfl
      branch := by
        intro p hp f hf hkind
        obtain ⟨n, hn, a, ha, hbranch, _⟩ := hfilled p hp f hf
        exact ⟨n, hn, a, ha, hbranch hkind⟩
      word := by
        intro p hp f hf hkind
        obtain ⟨n, hn, a, ha, _, hword⟩ := hfilled p hp f hf
        exact ⟨n, hn, a, ha, hword hkind⟩
      written := by
        intro a
        rw [ByteMap.get, hbytes, ByteMap.foldl_applyPatch, ByteMap.written_patchAll]
        exact hwrote.written_iff (fun p hp => (horder p hp).toInside) a }

end Linker

/-- A loop that branches to itself and then calls `Chunk.callee`. -/
def Chunk.caller : Chunk where
  name := "caller"
  lines := [.label "loop" {}, .data [0x10, 0] "",
    .fixup { kind := .rel8, offset := 1, symbol := "loop", addend := 0, opcode := [0x10] },
    .data [0xCD, 0, 0] "",
    .fixup { kind := .abs16, offset := 3, symbol := "callee", addend := 0, opcode := [0xCD] }]

def Chunk.callee : Chunk where
  name := "callee"
  lines := [.data [0xC9] ""]

def Chunk.buffer : Chunk where
  name := "buffer"
  home := .var
  lines := [.reserve 16 ""]

/-- Chunks with a branch, a call and reserved addresses. -/
theorem Linker.caller_relocates :
    (∀ c ∈ [Chunk.caller, .callee, .buffer], c.IsLinkable) ∧
    ∃ x, ({} : Linker).link [.caller, .callee, .buffer] = .ok x ∧ x.diagnostics = [] ∧
      ({} : Linker).Relocates (fun _ => none) (fun _ => none) [.caller, .callee, .buffer]
        x.image := by
  have hchunks : ∀ c ∈ [Chunk.caller, .callee, .buffer], c.IsLinkable := by
    intro c hc
    simp only [List.mem_cons, List.not_mem_nil, or_false] at hc
    rcases hc with rfl | rfl | rfl
    · refine ⟨by decide, by decide, ?_, ?_⟩
      · unfold Chunk.SlotsInside
        decide
      · refine List.pairwise_cons.mpr ⟨fun g hg i hf hg' => ?_, List.pairwise_singleton _ _⟩
        obtain rfl := List.mem_singleton.mp hg
        have h₁ : (i : Int) < 2 := hf.2
        have h₂ : (3 : Int) ≤ i := hg'.1
        omega
    · exact ⟨by decide, by decide, nofun, .nil⟩
    · exact ⟨by decide, by decide, nofun, .nil⟩
  have hlink : ∃ x, ({} : Linker).link [.caller, .callee, .buffer] = .ok x ∧
      x.diagnostics = [] := by
    have h : (match ({} : Linker).link [.caller, .callee, .buffer] with
        | .ok x => x.diagnostics.isEmpty
        | .error _ => false) = true := by decide +kernel
    split at h
    · rename_i x hx
      exact ⟨x, hx, List.isEmpty_iff.mp h⟩
    · cases h
  obtain ⟨x, hx, hclean⟩ := hlink
  exact ⟨hchunks, x, hx, hclean,
    link_relocates {} _ _ _ x (fun _ => rfl) (by decide) hchunks hx hclean⟩

/-- A chunk that reserves one address although it has four bytes, the last two
    of them a slot. -/
def Chunk.overhanging : Chunk where
  name := "overhanging"
  lines := [.data [0, 0, 0, 0] "", .reserve 1 "",
    .fixup { kind := .abs16, offset := 2, symbol := "", addend := 0x1234, opcode := [] }]

/-- A chunk of four bytes without slots. -/
def Chunk.neighbour : Chunk where
  name := "neighbour"
  lines := [.data [1, 2, 3, 4] ""]

/-- It is not enough that slots lie in the bytes of their chunk: behind the
    addresses that the chunk reserves stands another one, and a byte of it that
    is in none of its slots is overwritten. -/
theorem Linker.overhanging_overwrites_neighbour :
    ([Chunk.overhanging, .neighbour].map (·.name)).Nodup ∧
    (∀ c ∈ [Chunk.overhanging, .neighbour], c.home = .code ∧ c.SlotsApart ∧
      ∀ f ∈ c.fixups, 0 ≤ f.offset.toInt ∧ f.offset.toInt + f.width ≤ c.bytes.length) ∧
    (¬ 0 < Chunk.neighbour.reserved ∧ Chunk.neighbour.fixups = [] ∧
      Chunk.neighbour.bytes[1]? = some 2) ∧
    ∃ x, ({} : Linker).link [.overhanging, .neighbour] = .ok x ∧ x.diagnostics = [] ∧
      ∃ p ∈ x.image.placements, p.chunk = .neighbour ∧
        x.image.bytes.get (p.start.toInt.toNat + 1) = (0x34, true) := by
  refine ⟨by decide, ?_, by decide, ?_⟩
  · intro c hc
    simp only [List.mem_cons, List.not_mem_nil, or_false] at hc
    rcases hc with rfl | rfl
    · exact ⟨rfl, List.pairwise_singleton _ _, by decide⟩
    · exact ⟨rfl, .nil, by decide⟩
  · have h : (match ({} : Linker).link [.overhanging, .neighbour] with
        | .ok x => x.diagnostics.isEmpty && decide (∃ p ∈ x.image.placements,
            p.chunk = .neighbour ∧ x.image.bytes.get (p.start.toInt.toNat + 1) = (0x34, true))
        | .error _ => false) = true := by decide +kernel
    split at h
    · rename_i x hx
      rw [Bool.and_eq_true, List.isEmpty_iff, decide_eq_true_eq] at h
      exact ⟨x, hx, h⟩
    · cases h

end Z80Backend
