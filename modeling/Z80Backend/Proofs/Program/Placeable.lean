import Mathlib.Algebra.Group.Nat.Defs
import Z80Backend.Program
import Z80Backend.Proofs.Assembly.RoundTrip
import Z80Backend.Proofs.Function.Outline
import Z80Backend.Proofs.Image.Patching

/-! # Chunks that can be placed

    Directives are checked before they reach a chunk, and the slots of a chunk
    come from its own instructions or data.  So whatever a module is lowered to,
    its chunks are in a section, pinned to an address or not at all, aligned to a
    positive number, and their slots lie inside them (`Chunk.IsPlaceable`).

    One lemma for each kind of item shows this of its chunk, `isPlaceable_lowerItem`
    of one step of lowering, and `isPlaceable_lower` of a whole module. -/

namespace Z80Backend

/-- The number of addresses that a chunk takes. -/
def Chunk.extent (c : Chunk) : Nat :=
  if 0 < c.reserved then c.reserved.toInt.toNat else c.bytes.length

/-- What placement can rely on. -/
structure Chunk.IsPlaceable (c : Chunk) : Prop where
  home : c.home ∈ [Section.code, .data, .var]
  align : 0 < c.align.toInt
  pin : ∀ n, c.pin = some n → 0 ≤ n.toInt ∧ n.toInt ≤ 0xFFFF
  slots : c.extent < 2 ^ 63 → c.SlotsInside

/-! ## Slots -/

/-- Slots at positions among the bytes of a chunk that reserves nothing. -/
theorem Chunk.slotsInside_of_bytes {c : Chunk} (hreserved : c.reserved = 0)
    (h : ∀ f ∈ c.fixups, ∃ k, f.offset = Int64.ofNat k ∧ k + f.width ≤ c.bytes.length)
    (hextent : c.extent < 2 ^ 63) : c.SlotsInside := by
  have hbytes : ¬ 0 < c.reserved := by
    rw [hreserved]
    decide
  rw [extent, if_neg hbytes] at hextent
  intro f hf
  obtain ⟨k, hk, hle⟩ := h f hf
  rw [toInt_size_of_bytes hbytes hextent, hk, Int64.toInt_ofNat_of_lt (by omega)]
  omega

/-- The slots of instructions lie in their bytes. -/
theorem Line.exists_slot {ls : List Line} {pos : Nat} {f : LocatedFixup}
    (h : ∀ l ∈ ls, l.IsAssembled) (hf : f ∈ listFixups pos ls) :
    ∃ k, f.offset = Int64.ofNat k ∧ k + f.width ≤ pos + (listBytes ls).length := by
  induction ls generalizing pos with
  | nil => simp [listFixups] at hf
  | cons l ls ih =>
    rw [listFixups, List.mem_append] at hf
    rw [listBytes_cons, List.length_append]
    rcases hf with hf | hf
    · cases l with
      | instr i code =>
        obtain ⟨x, hx, rfl⟩ := List.mem_map.mp hf
        rcases code.slot_closes with hnone | ⟨y, k, hone, hk, hclose⟩
        · rw [hnone] at hx
          cases hx
        · rw [hone] at hx
          obtain rfl := List.mem_singleton.mp hx
          refine ⟨pos + k, by rw [Int64.ofNat_add, ← hk], ?_⟩
          show pos + k + (if x.kind = .rel8 then 1 else 2) ≤
            pos + (code.bytes.length + (listBytes ls).length)
          omega
      | label name span => cases hf
      | data bs text => exact absurd (h _ List.mem_cons_self) id
      | fixup f => exact absurd (h _ List.mem_cons_self) id
      | reserve n text => exact absurd (h _ List.mem_cons_self) id
    · obtain ⟨k, hk, hle⟩ := ih (fun l hl => h l (List.mem_cons_of_mem _ hl)) hf
      refine ⟨k, hk, ?_⟩
      rw [size] at hle
      omega

/-- Only a reservation reserves anything. -/
theorem Line.listReserved_eq_zero {ls : List Line} (h : ∀ l ∈ ls, ∀ n text, l ≠ .reserve n text) :
    listReserved ls = 0 := by
  unfold listReserved
  induction ls with
  | nil => rfl
  | cons l ls ih =>
    have hrest := ih fun l hl => h l (List.mem_cons_of_mem _ hl)
    cases l with
    | reserve n text => exact absurd rfl (h _ List.mem_cons_self n text)
    | instr | label | data | fixup => exact hrest

/-! ## Chunks of items -/

/-- The slots of initialisers lie in their bytes. -/
theorem DataDecl.exists_slot {d : DataDecl} {r : Resolver} {es : List Expr} {pos : Nat} {f : Fixup}
    (hf : f ∈ (d.initAll r pos es).filterMap (·.fixup)) :
    ∃ k, f.offset = Int64.ofNat k ∧
      k + f.width ≤ pos + ((d.initAll r pos es).flatMap (·.bytes)).length := by
  induction es generalizing pos with
  | nil => simp [initAll] at hf
  | cons e es ih =>
    have hbyte : (d.initByte r e).fixup = none := by
      unfold initByte
      dsimp only
      split
      · rfl
      · split <;> rfl
    have hword : ∀ g, (d.initWord r pos e).fixup = some g →
        g.offset = Int64.ofNat pos ∧ g.width = 2 ∧ (d.initWord r pos e).bytes.length = 2 := by
      intro g hg
      unfold initWord at hg ⊢
      split at hg
      · cases hg
      · split at hg
        · cases hg
        · rename_i hsym
          cases hg
          rw [if_neg hsym]
          exact ⟨rfl, rfl, rfl⟩
    obtain ⟨g, hg, hfixup⟩ := List.mem_filterMap.mp hf
    rw [initAll] at hg ⊢
    rw [List.flatMap_cons, List.length_append]
    rcases List.mem_cons.mp hg with rfl | hg
    · split at hfixup
      · rw [hbyte] at hfixup
        cases hfixup
      · rename_i hbytes
        obtain ⟨hoffset, hwidth, hlen⟩ := hword f hfixup
        refine ⟨pos, hoffset, ?_⟩
        rw [if_neg hbytes, hwidth, hlen]
        omega
    · obtain ⟨k, hk, hle⟩ := ih (List.mem_filterMap.mpr ⟨g, hg, hfixup⟩)
      exact ⟨k, hk, by omega⟩

theorem FuncDecl.isPlaceable_lower (d : FuncDecl) (r : Resolver) (decls : Declarations) (n : Int) :
    (d.lower r decls { counter := n }).1.IsPlaceable where
  home := List.mem_cons_self
  align := by
    show 0 < (1 : Int64).toInt
    decide
  pin := nofun
  slots hextent := by
    refine Chunk.slotsInside_of_bytes ?_ (fun f hf => ?_) hextent
    · refine Line.listReserved_eq_zero fun l hl k text heq => ?_
      subst heq
      exact isAssembled_lines hl
    · obtain ⟨k, hk, hle⟩ := Line.exists_slot (fun l hl => isAssembled_lines hl) hf
      rw [Nat.zero_add] at hle
      exact ⟨k, hk, hle⟩

/-- Fixups that stand behind the bytes keep their positions and take no room. -/
theorem Line.listFixups_notes (span : Span) (pos : Nat) (fs : List Fixup) :
    listFixups pos (fs.map fun f => .fixup { f with span }) = fs.map (fun f => { f with span }) ∧
      listBytes (fs.map fun f => .fixup { f with span }) = [] := by
  induction fs generalizing pos with
  | nil => exact ⟨rfl, rfl⟩
  | cons f fs ih =>
    obtain ⟨hfixups, hbytes⟩ := ih pos
    refine ⟨?_, hbytes⟩
    rw [List.map_cons, listFixups]
    show _ :: listFixups pos _ = _
    rw [hfixups]
    rfl

theorem DataDecl.isPlaceable_lower {d : DataDecl} {r : Resolver} {size : Int64} {c : Chunk}
    {errors : List LayoutError} (h : d.lower r = .ok (some (size, c), errors)) :
    c.IsPlaceable := by
  unfold DataDecl.lower at h
  split at h
  · cases h
  split at h
  · cases h
  cases h
  refine ⟨List.mem_cons_of_mem _ List.mem_cons_self, ?_, by simp, fun hextent => ?_⟩
  · show 0 < (1 : Int64).toInt
    decide
  refine Chunk.slotsInside_of_bytes ?_ (fun f hf => ?_) hextent
  · refine Line.listReserved_eq_zero fun l hl n text heq => ?_
    subst heq
    rcases List.mem_cons.mp hl with hdata | hnote
    · cases hdata
    · obtain ⟨f, _, hf⟩ := List.mem_map.mp hnote
      cases hf
  · rw [Chunk.fixups, Line.listFixups, (Line.listFixups_notes _ _ _).1] at hf
    obtain ⟨g, hg, rfl⟩ := List.mem_map.mp hf
    obtain ⟨k, hk, hle⟩ := exists_slot hg
    refine ⟨k, hk, ?_⟩
    rw [Chunk.bytes, Line.listBytes_cons, (Line.listFixups_notes _ 0 _).2, Line.bytes]
    simp only [List.length_append, List.length_nil]
    have hwidth : ({ g with span := d.span } : LocatedFixup).width = g.width := rfl
    rw [hwidth]
    omega

/-- The chunk of reserved storage has no slots. -/
theorem VarDecl.isPlaceable_lower {d : VarDecl} {r : Resolver} {c : Chunk}
    (h : d.lower r = .ok c) : c.IsPlaceable := by
  unfold VarDecl.lower at h
  split at h
  · cases h
  cases h
  refine ⟨List.mem_cons_of_mem _ (List.mem_cons_of_mem _ List.mem_cons_self), ?_, nofun,
    fun _ f hf => ?_⟩
  · show 0 < (1 : Int64).toInt
    decide
  · cases hf

/-! ## Directives -/

namespace Directives

variable {r : Resolver} {ds : Directives}

/-- Every pin is an address. -/
def InRange (ds : Directives) : Prop :=
  ∀ s n, ds.pin s = some n → 0 ≤ n.toInt ∧ n.toInt ≤ 0xFFFF

theorem address?_inRange {x : SectionDirective} {n : Int64} (h : address? r x = .ok (some n)) :
    0 ≤ n.toInt ∧ n.toInt ≤ 0xFFFF := by
  unfold address? at h
  split at h
  · cases h
  split at h
  · cases h
  split at h
  · cases h
  · rename_i hrange
    cases h
    rw [Bool.or_eq_true, decide_eq_true_eq, decide_eq_true_eq, not_or, Int64.not_lt,
      Int64.not_lt] at hrange
    exact ⟨Int64.le_iff_toInt_le.mp hrange.1, Int64.le_iff_toInt_le.mp hrange.2⟩

/-- A directive that is taken into account pins nothing elsewhere. -/
theorem InRange.apply (h : ds.InRange) (x : SectionDirective) : (ds.apply r x).1.InRange := by
  -- alignments are kept apart from pins
  have halign : ∀ (ds : Directives) (errors : List LayoutError), ds.InRange →
      (if x.align < 0 then (ds, errors ++ [LayoutError.sectionAlign x.kind x.align])
        else if 0 < x.align then
          ({ ds with align := fun s => if s = x.kind then x.align else ds.align s }, errors)
        else (ds, errors)).1.InRange := by
    intro ds errors hds
    split
    · exact hds
    split
    · exact hds
    · exact hds
  unfold Directives.apply
  cases hx : address? r x with
  | error e => exact halign ds [e] h
  | ok n? =>
    cases n? with
    | none => exact halign ds [] h
    | some n =>
      refine halign _ [] fun s k hk => ?_
      dsimp only at hk
      split at hk
      · cases hk
        exact address?_inRange hx
      · exact h s k hk

/-- A chunk that goes where the directives say. -/
theorem InRange.place (h : ds.InRange) {c : Chunk} (hc : c.IsPlaceable) :
    (ds.place c).1.InRange ∧ (ds.place c).2.IsPlaceable := by
  have haligned : (if 1 < ds.align c.home then { c with align := ds.align c.home }
      else c).IsPlaceable := by
    split
    · rename_i hlt
      have hone := Int64.lt_iff_toInt_lt.mp hlt
      refine ⟨hc.home, ?_, hc.pin, hc.slots⟩
      have htoInt : (1 : Int64).toInt = 1 := rfl
      show 0 < (ds.align c.home).toInt
      omega
    · exact hc
  unfold Directives.place
  dsimp only
  generalize (if 1 < ds.align c.home then { c with align := ds.align c.home } else c) = c'
    at haligned ⊢
  split
  · rename_i n hn
    refine ⟨fun s k hk => ?_, ⟨haligned.home, haligned.align, fun k hk => ?_, haligned.slots⟩⟩
    · dsimp only at hk
      split at hk
      · cases hk
      · exact h s k hk
    · cases hk
      exact h _ _ hn
  · exact ⟨h, haligned⟩

end Directives

/-! ## Modules -/

namespace ModuleState

variable {r : Resolver} {m m' : ModuleState}

/-- All chunks so far can be placed, and the next ones will be. -/
structure IsPlaceable (m : ModuleState) : Prop where
  directives : m.directives.InRange
  chunks : ∀ c ∈ m.program.chunks, c.IsPlaceable

theorem IsPlaceable.add (h : m.IsPlaceable) {c : Chunk} (hc : c.IsPlaceable) :
    (m.add c).IsPlaceable := by
  obtain ⟨hdirectives, hplaced⟩ := h.directives.place hc
  refine ⟨hdirectives, fun c' hc' => ?_⟩
  rcases List.mem_append.mp hc' with hc' | hc'
  · exact h.chunks c' hc'
  · rwa [List.mem_singleton.mp hc']

theorem isPlaceable_lowerItem {item : Item} (h : m.IsPlaceable) (hm : m.lowerItem r item = .ok m') :
    m'.IsPlaceable := by
  cases item with
  | op d =>
    cases hm
    exact h
  | external d =>
    cases hm
    exact h
  | place x =>
    cases hm
    exact ⟨h.directives.apply x, h.chunks⟩
  | func d =>
    simp only [lowerItem, lowerFunction] at hm
    split at hm
    · cases hm
    · cases hm
      apply IsPlaceable.add
      · exact ⟨h.directives, h.chunks⟩
      · exact d.isPlaceable_lower r m.session.decls m.session.counter
  | data d =>
    simp only [lowerItem] at hm
    split at hm
    · cases hm
    · cases hm
      exact ⟨h.directives, h.chunks⟩
    · rename_i size c errors hlower
      cases hm
      apply IsPlaceable.add
      · exact ⟨h.directives, h.chunks⟩
      · exact DataDecl.isPlaceable_lower hlower
  | var d =>
    simp only [lowerItem] at hm
    split at hm
    · cases hm
      exact ⟨h.directives, h.chunks⟩
    · rename_i c hlower
      cases hm
      exact h.add (VarDecl.isPlaceable_lower hlower)

theorem isPlaceable_lowerAll {items : List Item} (h : m.IsPlaceable)
    (hm : items.foldlM (lowerItem r) m = .ok m') : m'.IsPlaceable := by
  induction items generalizing m with
  | nil =>
    cases hm
    exact h
  | cons item items ih =>
    rw [List.foldlM_cons] at hm
    cases hitem : m.lowerItem r item with
    | error fault =>
      rw [hitem] at hm
      cases hm
    | ok m₁ =>
      rw [hitem] at hm
      exact ih (isPlaceable_lowerItem h hitem) hm

end ModuleState

/-- The chunks of a module can be placed. -/
theorem Module.isPlaceable_lower {m : Module} {r : Resolver} {s s' : Session} {program : Program}
    (h : m.lower r s = .ok (program, s')) : ∀ c ∈ program.chunks, c.IsPlaceable := by
  unfold Module.lower at h
  dsimp only at h
  split at h
  · cases h
  · rename_i x hx
    cases h
    have hstart : (ModuleState.mk (m.items.foldl (Session.declare r) (s, [])).1 {}
        { externals := (m.items.foldl (Session.declare r) (s, [])).2 }).IsPlaceable :=
      ⟨fun _ _ hpin => (by cases hpin), fun c hc => absurd hc List.not_mem_nil⟩
    exact (ModuleState.isPlaceable_lowerAll hstart hx).chunks

end Z80Backend
