import Mathlib.Algebra.Group.Nat.Defs
import Z80Backend.Image.Link

/-! # Writing of chunks

    Chunks that are written without a collision cover different addresses.
    Each address that a chunk covers then holds the byte of the chunk, or
    stays without one when the chunk only reserves addresses, and no other
    address changes (`Wrote`). -/

namespace Z80Backend

/-! ## Claims -/

namespace ByteMap

/-- A cell after an owner claimed it, with a byte or without. -/
def claimed (owner : Nat) (b? : Option UInt8) (c : ByteCell Nat) : ByteCell Nat :=
  { byte := b?.getD c.byte, written := b?.isSome || c.written, owner := some owner }

/-- A claim that is granted was not refused by another owner, and changes only
    the cell that is claimed. -/
theorem claim_eq_ok {m m' : ByteMap Nat} {addr owner : Nat} {b? : Option UInt8}
    (h : (match b? with
      | some b => m.write addr b owner
      | none => m.reserve addr owner) = .ok m') :
    ((m.cell addr).owner = none ∨ (m.cell addr).owner = some owner) ∧
      m'.cell addr = claimed owner b? (m.cell addr) ∧
      ∀ a, a ≠ addr → m'.cell a = m.cell a := by
  cases b? with
  | some b =>
    dsimp only at h
    rw [write] at h
    split at h
    · rename_i other hother
      split at h
      · rename_i heq
        cases h
        rw [hother, heq]
        exact ⟨.inr rfl, cell_set_self _ _ _, fun a ha => cell_set_of_ne _ _ ha⟩
      · cases h
    · rename_i hnone
      cases h
      exact ⟨.inl hnone, cell_set_self _ _ _, fun a ha => cell_set_of_ne _ _ ha⟩
  | none =>
    dsimp only at h
    rw [reserve] at h
    split at h
    · rename_i other hother
      split at h
      · rename_i heq
        cases h
        refine ⟨.inr (heq ▸ hother), ?_, fun a _ => rfl⟩
        rw [claimed, ← heq, ← hother]
        simp
      · cases h
    · rename_i hnone
      cases h
      refine ⟨.inl hnone, ?_, fun a ha => cell_set_of_ne _ _ ha⟩
      rw [cell_set_self, claimed]
      simp

/-- What claims of different addresses do when none is refused. -/
theorem claimAll_of_granted {owner : Nat} {cs : List (Nat × Option UInt8)} {m m' : ByteMap Nat}
    (hkeys : (cs.map Prod.fst).Nodup) (h : m.claimAll owner [] cs = (m', [])) :
    (∀ x ∈ cs, ((m.cell x.1).owner = none ∨ (m.cell x.1).owner = some owner) ∧
      m'.cell x.1 = claimed owner x.2 (m.cell x.1)) ∧
    ∀ a, a ∉ cs.map Prod.fst → m'.cell a = m.cell a := by
  induction cs generalizing m with
  | nil =>
    cases h
    exact ⟨by simp, fun _ _ => rfl⟩
  | cons x cs ih =>
    obtain ⟨addr, b?⟩ := x
    rw [List.map_cons, List.nodup_cons] at hkeys
    unfold claimAll at h
    dsimp only at h
    split at h
    · rename_i m₁ hm₁
      obtain ⟨howner, hcell, hframe⟩ := claim_eq_ok hm₁
      obtain ⟨hrest, hout⟩ := ih hkeys.2 h
      refine ⟨?_, ?_⟩
      · intro y hy
        rcases List.mem_cons.mp hy with rfl | hy
        · exact ⟨howner, by rw [hout addr hkeys.1, hcell]⟩
        · have hne : y.1 ≠ addr := fun heq => hkeys.1 (List.mem_map.mpr ⟨y, hy, heq⟩)
          rw [← hframe y.1 hne]
          exact hrest y hy
      · intro a ha
        rw [List.map_cons, List.mem_cons, not_or] at ha
        rw [hout a ha.2, hframe a ha.1]
    · rw [List.contains_nil, if_neg Bool.false_ne_true] at h
      cases h

end ByteMap

/-! ## Addresses of a chunk -/

namespace Placement

/-- The chunk occupies the address. -/
def Covers (p : Placement) (a : Nat) : Prop :=
  p.start.toInt ≤ a ∧ (a : Int) < p.start.toInt + p.chunk.size.toInt

/-- The byte of the chunk at an address; a chunk that reserves addresses has
    none. -/
def byteAt (p : Placement) (a : Nat) : Option UInt8 :=
  if 0 < p.chunk.reserved then none else p.chunk.bytes[a - p.start.toInt.toNat]?

/-- The chunk stays in the address space, also when its end is computed
    exactly, and its length is a 64-bit number. -/
structure Inside (p : Placement) : Prop where
  start : 0 ≤ p.start.toInt
  stop : p.start.toInt + p.chunk.size.toInt ≤ addressSpace
  length : p.chunk.bytes.length < 2 ^ 63

end Placement

theorem Chunk.toInt_size_of_bytes {c : Chunk} (h : ¬ 0 < c.reserved)
    (hlen : c.bytes.length < 2 ^ 63) : c.size.toInt = c.bytes.length := by
  rw [size, if_neg h, Int64.toInt_ofNat_of_lt hlen]

/-- A chunk occupies some number of addresses. -/
theorem Chunk.toInt_size_nonneg {c : Chunk} (hlen : c.bytes.length < 2 ^ 63) :
    0 ≤ c.size.toInt := by
  by_cases h : 0 < c.reserved
  · rw [size, if_pos h]
    exact Int.le_of_lt (Int64.lt_iff_toInt_lt.mp h)
  · rw [toInt_size_of_bytes h hlen]
    exact Int.natCast_nonneg _

namespace Placement

variable {p : Placement}

theorem covers_iff (h : p.Inside) {a : Nat} :
    p.Covers a ↔ p.start.toInt.toNat ≤ a ∧
      a < p.start.toInt.toNat + p.chunk.size.toInt.toNat := by
  have hstart := h.start
  have hsize := Chunk.toInt_size_nonneg h.length
  unfold Covers
  omega

/-- The claims of a placement are its addresses. -/
theorem keys_claims (h : p.Inside) :
    p.claims.map Prod.fst =
      List.range' p.start.toInt.toNat p.chunk.size.toInt.toNat := by
  unfold claims
  dsimp only
  by_cases hres : 0 < p.chunk.reserved
  · rw [if_pos hres, List.map_map, Chunk.size, if_pos hres]
    exact List.map_id _
  · rw [if_neg hres, List.map_map, Chunk.toInt_size_of_bytes hres h.length, Int.toNat_natCast]
    apply List.ext_getElem?
    intro i
    simp only [List.getElem?_map, List.getElem?_zipIdx]
    by_cases hi : i < p.chunk.bytes.length
    · simp [hi]
    · simp [hi]

theorem mem_keys_claims (h : p.Inside) {a : Nat} : a ∈ p.claims.map Prod.fst ↔ p.Covers a := by
  rw [keys_claims h, covers_iff h, List.mem_range'_1]

/-- A claim carries the byte of the chunk. -/
theorem byteAt_of_mem_claims {x : Nat × Option UInt8} (hx : x ∈ p.claims) :
    x.2 = p.byteAt x.1 := by
  unfold claims at hx
  unfold byteAt
  dsimp only at hx
  by_cases hres : 0 < p.chunk.reserved
  · rw [if_pos hres] at hx ⊢
    obtain ⟨a, _, rfl⟩ := List.mem_map.mp hx
    rfl
  · rw [if_neg hres] at hx ⊢
    obtain ⟨⟨b, i⟩, hbi, rfl⟩ := List.mem_map.mp hx
    have hb := List.mem_zipIdx_iff_getElem?.mp hbi
    rw [Nat.add_sub_cancel_left]
    exact hb.symm

/-- The bytes of a chunk that has bytes. -/
theorem covers_of_byte (h : p.Inside) (hres : ¬ 0 < p.chunk.reserved) {i : Nat} {b : UInt8}
    (hb : p.chunk.bytes[i]? = some b) :
    p.Covers (p.start.toInt.toNat + i) ∧ p.byteAt (p.start.toInt.toNat + i) = some b := by
  have hi : i < p.chunk.bytes.length := (List.getElem?_eq_some_iff.mp hb).1
  refine ⟨?_, ?_⟩
  · rw [covers_iff h, Chunk.toInt_size_of_bytes hres h.length]
    omega
  · rw [byteAt, if_neg hres, Nat.add_sub_cancel_left]
    exact hb

theorem isSome_byteAt (h : p.Inside) {a : Nat} (ha : p.Covers a) :
    (p.byteAt a).isSome = true ↔ ¬ 0 < p.chunk.reserved := by
  unfold byteAt
  by_cases hres : 0 < p.chunk.reserved
  · simp [hres]
  · rw [covers_iff h, Chunk.toInt_size_of_bytes hres h.length, Int.toNat_natCast] at ha
    have hi : a - p.start.toInt.toNat < p.chunk.bytes.length := by omega
    rw [if_neg hres, List.getElem?_eq_getElem hi]
    exact iff_of_true rfl hres

end Placement

/-! ## Writing -/

namespace ByteMap

/-- Cells are as at the beginning or have an owner below `n`. -/
def OwnedBelow (n : Nat) (m : ByteMap Nat) : Prop :=
  ∀ a, m.cell a = {} ∨ ∃ k, k < n ∧ (m.cell a).owner = some k

/-- What an address that a placement covers holds for its owner. -/
def heldBy (p : Placement) (owner a : Nat) : ByteCell Nat :=
  { byte := (p.byteAt a).getD 0, written := (p.byteAt a).isSome, owner := some owner }

/-- What writing placements does, from owner `n` on. -/
structure Wrote (n : Nat) (ps : List Placement) (m m' : ByteMap Nat) : Prop where
  apart : ps.Pairwise fun p q => ∀ a, p.Covers a → ¬ q.Covers a
  free : ∀ p ∈ ps, ∀ a, p.Covers a → m.cell a = {}
  held : ∀ i p a, ps[i]? = some p → p.Covers a → m'.cell a = heldBy p (n + i) a
  frame : ∀ a, (∀ p ∈ ps, ¬ p.Covers a) → m'.cell a = m.cell a

theorem claims_of_granted {n : Nat} {p : Placement} {m m' : ByteMap Nat} (hm : m.OwnedBelow n)
    (hp : p.Inside) (h : m.claimAll n [] p.claims = (m', [])) :
    (∀ a, p.Covers a → m.cell a = {} ∧ m'.cell a = heldBy p n a) ∧
    (∀ a, ¬ p.Covers a → m'.cell a = m.cell a) ∧ m'.OwnedBelow (n + 1) := by
  have hnodup : (p.claims.map Prod.fst).Nodup := by
    rw [Placement.keys_claims hp]
    exact List.nodup_range'
  obtain ⟨hin, hout⟩ := claimAll_of_granted hnodup h
  have hcovered : ∀ a, p.Covers a → m.cell a = {} ∧ m'.cell a = heldBy p n a := by
    intro a ha
    obtain ⟨x, hx, rfl⟩ := List.mem_map.mp ((Placement.mem_keys_claims hp).mpr ha)
    obtain ⟨howner, hcell⟩ := hin x hx
    have hempty : m.cell x.1 = {} := by
      rcases hm x.1 with hempty | ⟨k, hk, hsome⟩
      · exact hempty
      · rw [hsome] at howner
        rcases howner with hnone | hsame
        · cases hnone
        · cases hsame
          exact absurd hk (Nat.lt_irrefl n)
    refine ⟨hempty, ?_⟩
    rw [hcell, hempty, Placement.byteAt_of_mem_claims hx, claimed, heldBy]
    simp
  have hframe : ∀ a, ¬ p.Covers a → m'.cell a = m.cell a := by
    intro a ha
    exact hout a fun hmem => ha ((Placement.mem_keys_claims hp).mp hmem)
  refine ⟨hcovered, hframe, fun a => ?_⟩
  by_cases ha : p.Covers a
  · rw [(hcovered a ha).2]
    exact .inr ⟨n, Nat.lt_succ_self n, rfl⟩
  · rw [hframe a ha]
    exact (hm a).imp_right fun ⟨k, hk, hsome⟩ => ⟨k, Nat.lt_succ_of_lt hk, hsome⟩

/-- Placements that are written without a collision. -/
theorem wrote_of_clean {all ps : List Placement} {n : Nat} {m m' : ByteMap Nat}
    (hm : m.OwnedBelow n) (hps : ∀ p ∈ ps, p.fits = true ∧ p.Inside)
    (h : m.writeAll all n ps = (m', [])) : Wrote n ps m m' := by
  induction ps generalizing n m with
  | nil =>
    cases h
    exact { apart := .nil, free := by simp, held := by simp, frame := fun _ _ => rfl }
  | cons p ps ih =>
    obtain ⟨hfits, hinside⟩ := hps p List.mem_cons_self
    unfold writeAll at h
    rw [if_pos hfits] at h
    generalize hclaims : m.claimAll n [] p.claims = claims at h
    obtain ⟨m₁, collisions⟩ := claims
    dsimp only at h
    generalize hmore : writeAll all (n + 1) ps m₁ = rest at h
    obtain ⟨m₂, more⟩ := rest
    rw [Prod.mk.injEq, List.append_eq_nil_iff, List.map_eq_nil_iff] at h
    obtain ⟨rfl, rfl, rfl⟩ := h
    obtain ⟨hcovered, hframe, hm₁⟩ := claims_of_granted hm hinside hclaims
    have hrest := ih hm₁ (fun q hq => hps q (List.mem_cons_of_mem p hq)) hmore
    -- a later placement finds its addresses free, and so shares none with this one
    have hapart : ∀ q ∈ ps, ∀ a, p.Covers a → ¬ q.Covers a := by
      intro q hq a hpa hqa
      have hfree := hrest.free q hq a hqa
      rw [(hcovered a hpa).2] at hfree
      cases congrArg ByteCell.owner hfree
    exact
      { apart := List.pairwise_cons.mpr ⟨hapart, hrest.apart⟩
        free := by
          intro q hq a hqa
          rcases List.mem_cons.mp hq with rfl | hq
          · exact (hcovered a hqa).1
          · have hpa : ¬ p.Covers a := fun hpa => hapart q hq a hpa hqa
            rw [← hframe a hpa]
            exact hrest.free q hq a hqa
        held := by
          intro i q a hi hqa
          cases i with
          | zero =>
            cases hi
            rw [hrest.frame a fun q hq => hapart q hq a hqa]
            exact (hcovered a hqa).2
          | succ i =>
            rw [hrest.held i q a hi hqa, Nat.add_right_comm n 1 i, Nat.add_assoc]
        frame := by
          intro a ha
          rw [hrest.frame a fun q hq => ha q (List.mem_cons_of_mem p hq),
            hframe a (ha p List.mem_cons_self)] }

namespace Wrote

variable {ps : List Placement} {m : ByteMap Nat}

/-- An address belongs to one placement only. -/
theorem eq_of_covers {n : Nat} {m₀ : ByteMap Nat} (h : Wrote n ps m₀ m) {p q : Placement}
    (hp : p ∈ ps) (hq : q ∈ ps) {a : Nat} (hpa : p.Covers a) (hqa : q.Covers a) : p = q := by
  have hsame : ps.Pairwise fun p q => p.Covers a → q.Covers a → p = q :=
    h.apart.imp fun hpq hpa hqa => absurd hqa (hpq a hpa)
  have hflip : ps.Pairwise (flip fun p q => p.Covers a → q.Covers a → p = q) :=
    h.apart.imp fun hpq hqa hpa => absurd hqa (hpq a hpa)
  exact hsame.forall_of_forall_of_flip (fun _ _ _ _ => rfl) hflip hp hq hpa hqa

/-- Only chunks with bytes are written. -/
theorem written_iff (h : Wrote 0 ps {} m) (hps : ∀ p ∈ ps, p.Inside) (a : Nat) :
    (m.cell a).written = true ↔ ∃ p ∈ ps, ¬ 0 < p.chunk.reserved ∧ p.Covers a := by
  constructor
  · intro hwritten
    by_cases hcovered : ∃ p ∈ ps, p.Covers a
    · obtain ⟨p, hp, hpa⟩ := hcovered
      obtain ⟨i, hi⟩ := List.mem_iff_getElem?.mp hp
      rw [h.held i p a hi hpa] at hwritten
      exact ⟨p, hp, (Placement.isSome_byteAt (hps p hp) hpa).mp hwritten, hpa⟩
    · rw [h.frame a fun p hp hpa => hcovered ⟨p, hp, hpa⟩, cell_empty] at hwritten
      cases hwritten
  · rintro ⟨p, hp, hres, hpa⟩
    obtain ⟨i, hi⟩ := List.mem_iff_getElem?.mp hp
    rw [h.held i p a hi hpa]
    exact (Placement.isSome_byteAt (hps p hp) hpa).mpr hres

end Wrote

end ByteMap

end Z80Backend
