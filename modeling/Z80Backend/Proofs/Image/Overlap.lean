import Z80Backend.Proofs.Image.Writing

/-! # Overlapping chunks

    Placed chunks may lie across each other in any way.  An address belongs to
    the first chunk, in the order of placement, that covers it
    (`Placement.Owns`), and later chunks do not change it.  Of each chunk it is
    reported which earlier chunks own addresses of it, each once and with the
    lowest of these addresses (`Placement.Collides`).

    * `ByteMap.cell_claimAll` and `ByteMap.mem_claimAll`: what the claims of
      one chunk do to the cells, and which of them are reported
      (`ByteMap.Meets`).
    * `ByteMap.Held.claims` and `ByteMap.Held.writeAll`: one placement, and all
      of them.
    * `ByteMap.writeAll_overlaps`: owners, bytes and reports together. -/

namespace Z80Backend

/-! ## Owners -/

namespace Placement

/-- The placement with the given number stays in the address space and covers
    the address. -/
def CoversAt (ps : List Placement) (i a : Nat) : Prop :=
  ∃ p, ps[i]? = some p ∧ p.fits = true ∧ p.Covers a

/-- Placement `i` is the first one that covers the address. -/
def Owns (ps : List Placement) (i a : Nat) : Prop :=
  CoversAt ps i a ∧ ∀ j, j < i → ¬ CoversAt ps j a

/-- The address is the lowest one of placement `i` that belongs to the earlier
    placement `j`. -/
def Collides (ps : List Placement) (i j a : Nat) : Prop :=
  j < i ∧ CoversAt ps i a ∧ Owns ps j a ∧ ∀ b, b < a → CoversAt ps i b → ¬ Owns ps j b

instance (p : Placement) (a : Nat) : Decidable (p.Covers a) :=
  inferInstanceAs (Decidable (_ ∧ _))

instance (ps : List Placement) (i a : Nat) : Decidable (CoversAt ps i a) :=
  decidable_of_iff (∃ p ∈ ps[i]?, p.fits = true ∧ p.Covers a) (by simp [CoversAt])

instance (ps : List Placement) (i a : Nat) : Decidable (Owns ps i a) :=
  inferInstanceAs (Decidable (_ ∧ ∀ j, j < i → _))

instance (ps : List Placement) (i j a : Nat) : Decidable (Collides ps i j a) :=
  inferInstanceAs (Decidable (_ ∧ _ ∧ _ ∧ ∀ b, b < a → _))

variable {ps : List Placement} {i j a : Nat} {p : Placement}

theorem coversAt_iff (hp : ps[i]? = some p) (hfits : p.fits = true) :
    CoversAt ps i a ↔ p.Covers a := by
  constructor
  · rintro ⟨q, hq, _, hcovers⟩
    cases hp.symm.trans hq
    exact hcovers
  · intro hcovers
    exact ⟨p, hp, hfits, hcovers⟩

/-- An address has one owner. -/
theorem Owns.unique (hi : Owns ps i a) (hj : Owns ps j a) : i = j := by
  rcases Nat.lt_trichotomy i j with hlt | heq | hgt
  · exact absurd hi.1 (hj.2 i hlt)
  · exact heq
  · exact absurd hj.1 (hi.2 j hgt)

/-- An address that is covered has an owner. -/
theorem exists_owns (h : CoversAt ps i a) : ∃ k, k ≤ i ∧ Owns ps k a := by
  induction i using Nat.strongRecOn with
  | _ i ih =>
    by_cases hfirst : ∃ j, j < i ∧ CoversAt ps j a
    · obtain ⟨j, hj, hcovers⟩ := hfirst
      obtain ⟨k, hk, howns⟩ := ih j hj hcovers
      exact ⟨k, by omega, howns⟩
    · exact ⟨i, Nat.le_refl i, h, fun j hj hcovers => hfirst ⟨j, hj, hcovers⟩⟩

/-- Where a placement covers an address of an earlier owner, there is a lowest
    one. -/
theorem exists_collides (hj : j < i) (hcovers : CoversAt ps i a) (howns : Owns ps j a) :
    ∃ b, Collides ps i j b := by
  induction a using Nat.strongRecOn with
  | _ a ih =>
    by_cases hlower : ∃ b, b < a ∧ CoversAt ps i b ∧ Owns ps j b
    · obtain ⟨b, hb, hcovers, howns⟩ := hlower
      exact ih b hb hcovers howns
    · exact ⟨a, hj, hcovers, howns, fun b hb hc ho => hlower ⟨b, hb, hc, ho⟩⟩

/-- Placements collide exactly if two of them cover a common address. -/
theorem no_collides_iff :
    (∀ i j a, ¬ Collides ps i j a) ↔
      ∀ i j a, i ≠ j → CoversAt ps i a → ¬ CoversAt ps j a := by
  constructor
  · intro hnone i j a hne hi hj
    -- the later one of the two meets the owner of the address
    obtain ⟨k, hk, howns⟩ := exists_owns hi
    obtain ⟨k', hk', howns'⟩ := exists_owns hj
    obtain rfl := howns.unique howns'
    rcases Nat.lt_or_gt_of_ne hne with hlt | hgt
    · obtain ⟨b, hcollides⟩ := exists_collides (by omega) hj howns
      exact hnone j k b hcollides
    · obtain ⟨b, hcollides⟩ := exists_collides (by omega) hi howns
      exact hnone i k b hcollides
  · rintro hdisjoint i j a ⟨hj, hcovers, howns, _⟩
    exact hdisjoint i j a (Nat.ne_of_gt hj) hcovers howns.1

end Placement

/-! ## Claims -/

namespace ByteMap

/-- A claim is refused for the owner that the address has already. -/
theorem claim_eq_error {m : ByteMap Nat} {addr owner other : Nat} {b? : Option UInt8}
    (h : (match b? with
      | some b => m.write addr b owner
      | none => m.reserve addr owner) = .error other) :
    (m.cell addr).owner = some other ∧ other ≠ owner := by
  cases b? with
  | some b =>
    dsimp only at h
    rw [write] at h
    split at h
    · rename_i other' hother
      split at h
      · cases h
      · rename_i hne
        cases h
        exact ⟨hother, hne⟩
    · cases h
  | none =>
    dsimp only at h
    rw [reserve] at h
    split at h
    · rename_i other' hother
      split at h
      · cases h
      · rename_i hne
        cases h
        exact ⟨hother, hne⟩
    · cases h

/-- The address has no owner but perhaps the one given. -/
def Grants (m : ByteMap Nat) (owner a : Nat) : Prop :=
  ∀ other, (m.cell a).owner = some other → other = owner

/-- Claims of different addresses change the cells that they are granted, and no
    others. -/
theorem cell_claimAll (owner : Nat) (seen : List Nat) (m : ByteMap Nat)
    {cs : List (Nat × Option UInt8)} (hkeys : (cs.map Prod.fst).Nodup) :
    (∀ x ∈ cs, m.Grants owner x.1 →
      (m.claimAll owner seen cs).1.cell x.1 = claimed owner x.2 (m.cell x.1)) ∧
    ∀ a, (a ∈ cs.map Prod.fst → ¬ m.Grants owner a) →
      (m.claimAll owner seen cs).1.cell a = m.cell a := by
  induction cs generalizing m seen with
  | nil => exact ⟨by simp, fun _ _ => rfl⟩
  | cons x cs ih =>
    obtain ⟨addr, b?⟩ := x
    rw [List.map_cons, List.nodup_cons] at hkeys
    -- the claims behind the first one find their cells as they were
    have hlater : ∀ y ∈ cs, y.1 ≠ addr := by
      intro y hy heq
      exact hkeys.1 (List.mem_map.mpr ⟨y, hy, heq⟩)
    unfold claimAll
    dsimp only
    split
    · rename_i m₁ hm₁
      obtain ⟨howner, hcell, hframe⟩ := claim_eq_ok hm₁
      have hgrants : m.Grants owner addr := by
        intro other hother
        rw [hother] at howner
        rcases howner with hnone | hsame
        · cases hnone
        · exact Option.some.inj hsame
      have hsame : ∀ a, a ≠ addr → (m₁.Grants owner a ↔ m.Grants owner a) := by
        intro a ha
        rw [Grants, Grants, hframe a ha]
      obtain ⟨hin, hout⟩ := ih seen m₁ hkeys.2
      refine ⟨fun y hy hy' => ?_, fun a ha => ?_⟩
      · rcases List.mem_cons.mp hy with rfl | hy
        · rw [hout addr fun hmem => absurd hmem hkeys.1, hcell]
        · have hne := hlater y hy
          rw [hin y hy ((hsame y.1 hne).mpr hy'), hframe y.1 hne]
      · rw [List.map_cons, List.mem_cons] at ha
        have hne : a ≠ addr := by
          rintro rfl
          exact ha (.inl rfl) hgrants
        rw [hout a fun hmem hg => ha (.inr hmem) ((hsame a hne).mp hg), hframe a hne]
    · rename_i other herror
      obtain ⟨howner, hne⟩ := claim_eq_error herror
      have hrefused : ¬ m.Grants owner addr := fun hg => hne (hg other howner)
      have hrest : ∀ seen : List Nat,
          (∀ y ∈ (addr, b?) :: cs, m.Grants owner y.1 →
            (m.claimAll owner seen cs).1.cell y.1 = claimed owner y.2 (m.cell y.1)) ∧
          ∀ a, (a ∈ ((addr, b?) :: cs).map Prod.fst → ¬ m.Grants owner a) →
            (m.claimAll owner seen cs).1.cell a = m.cell a := by
        intro seen
        obtain ⟨hin, hout⟩ := ih seen m hkeys.2
        refine ⟨fun y hy hy' => ?_, fun a ha => ?_⟩
        · rcases List.mem_cons.mp hy with rfl | hy
          · exact absurd hy' hrefused
          · exact hin y hy hy'
        · exact hout a fun hmem => ha (List.mem_cons_of_mem _ hmem)
      split
      · exact hrest seen
      · exact hrest (other :: seen)

/-- The claims of `owner` for the addresses `keys` meet `j`, which was not `seen`
    before, at `a` for the first time. -/
def Meets (m : ByteMap Nat) (owner : Nat) (seen keys : List Nat) (a j : Nat) : Prop :=
  a ∈ keys ∧ (m.cell a).owner = some j ∧ j ≠ owner ∧ j ∉ seen ∧
    ∀ b ∈ keys, b < a → (m.cell b).owner ≠ some j

namespace Meets

variable {m : ByteMap Nat} {owner addr a j : Nat} {seen keys : List Nat}

theorem congr {m' : ByteMap Nat} (hcell : ∀ b ∈ keys, m'.cell b = m.cell b) :
    m'.Meets owner seen keys a j ↔ m.Meets owner seen keys a j := by
  have himp : ∀ {m m' : ByteMap Nat}, (∀ b ∈ keys, m'.cell b = m.cell b) →
      m'.Meets owner seen keys a j → m.Meets owner seen keys a j := by
    rintro m m' hcell ⟨ha, howns, hj, hseen, hfirst⟩
    refine ⟨ha, hcell a ha ▸ howns, hj, hseen, fun b hb hlt => ?_⟩
    rw [← hcell b hb]
    exact hfirst b hb hlt
  exact ⟨himp hcell, himp fun b hb => (hcell b hb).symm⟩

/-- A first address that meets nobody new makes no difference. -/
theorem cons_of_known (hknown : ∀ j, (m.cell addr).owner = some j → j = owner ∨ j ∈ seen) :
    m.Meets owner seen (addr :: keys) a j ↔ m.Meets owner seen keys a j := by
  constructor
  · rintro ⟨hmem, howns, hj, hseen, hfirst⟩
    refine ⟨?_, howns, hj, hseen, fun b hb => hfirst b (List.mem_cons_of_mem addr hb)⟩
    rcases List.mem_cons.mp hmem with rfl | hmem
    · exact absurd (hknown j howns) (not_or.mpr ⟨hj, hseen⟩)
    · exact hmem
  · rintro ⟨ha, howns, hj, hseen, hfirst⟩
    refine ⟨List.mem_cons_of_mem addr ha, howns, hj, hseen, fun b hb hlt => ?_⟩
    rcases List.mem_cons.mp hb with rfl | hb
    · exact fun hsome => absurd (hknown j hsome) (not_or.mpr ⟨hj, hseen⟩)
    · exact hfirst b hb hlt

/-- One that meets somebody new is reported, and this owner is not met again. -/
theorem cons_of_new {other : Nat} (hkeys : ∀ b ∈ keys, addr < b)
    (howner : (m.cell addr).owner = some other) (hne : other ≠ owner) (hnew : other ∉ seen) :
    m.Meets owner seen (addr :: keys) a j ↔
      (a = addr ∧ j = other) ∨ m.Meets owner (other :: seen) keys a j := by
  constructor
  · rintro ⟨hmem, howns, hj, hseen, hfirst⟩
    rcases List.mem_cons.mp hmem with rfl | ha
    · exact .inl ⟨rfl, Option.some.inj (howns.symm.trans howner)⟩
    · have hother : j ≠ other := by
        rintro rfl
        exact hfirst addr List.mem_cons_self (hkeys a ha) howner
      exact .inr ⟨ha, howns, hj, List.not_mem_cons_of_ne_of_not_mem hother hseen,
        fun b hb => hfirst b (List.mem_cons_of_mem addr hb)⟩
  · rintro (⟨rfl, rfl⟩ | ⟨ha, howns, hj, hseen, hfirst⟩)
    · refine ⟨List.mem_cons_self, howner, hne, hnew, fun b hb hlt => ?_⟩
      -- no address of the list is below the first one
      rcases List.mem_cons.mp hb with rfl | hb
      · exact absurd hlt (Nat.lt_irrefl b)
      · exact absurd hlt (Nat.lt_asymm (hkeys b hb))
    · obtain ⟨hother, hseen⟩ := not_or.mp (mt List.mem_cons.mpr hseen)
      refine ⟨List.mem_cons_of_mem addr ha, howns, hj, hseen, fun b hb hlt => ?_⟩
      rcases List.mem_cons.mp hb with rfl | hb
      · rw [howner]
        exact fun hsome => hother (Option.some.inj hsome).symm
      · exact hfirst b hb hlt

end Meets

/-- An owner is reported at the first address where a claim is refused for it,
    unless it was `seen` before. -/
theorem mem_claimAll (owner : Nat) (seen : List Nat) (m : ByteMap Nat)
    {cs : List (Nat × Option UInt8)} (hkeys : (cs.map Prod.fst).Pairwise (· < ·)) :
    (m.claimAll owner seen cs).2.Pairwise (fun x y => x.1 < y.1 ∧ x.2 ≠ y.2) ∧
    ∀ a j, (a, j) ∈ (m.claimAll owner seen cs).2 ↔
      m.Meets owner seen (cs.map Prod.fst) a j := by
  induction cs generalizing m seen with
  | nil => exact ⟨.nil, by simp [claimAll, Meets]⟩
  | cons x cs ih =>
    obtain ⟨addr, b?⟩ := x
    rw [List.map_cons, List.pairwise_cons] at hkeys
    rw [List.map_cons]
    unfold claimAll
    dsimp only
    split
    · rename_i m₁ hm₁
      obtain ⟨howner, _, hframe⟩ := claim_eq_ok hm₁
      obtain ⟨hsorted, hmem⟩ := ih seen m₁ hkeys.2
      refine ⟨hsorted, fun a j => ?_⟩
      -- a claim that is granted is not reported, and hides no later one
      have hknown : ∀ j, (m.cell addr).owner = some j → j = owner ∨ j ∈ seen := by
        intro j hj
        rw [hj] at howner
        rcases howner with hnone | hsame
        · cases hnone
        · exact .inl (Option.some.inj hsame)
      rw [hmem, Meets.cons_of_known hknown]
      exact Meets.congr fun b hb => hframe b (Nat.ne_of_gt (hkeys.1 b hb))
    · rename_i other herror
      obtain ⟨howner, hne⟩ := claim_eq_error herror
      split
      · rename_i hseen
        obtain ⟨hsorted, hmem⟩ := ih seen m hkeys.2
        refine ⟨hsorted, fun a j => ?_⟩
        rw [hmem, Meets.cons_of_known]
        intro j hj
        cases howner.symm.trans hj
        exact .inr (by simpa using hseen)
      · rename_i hseen
        have hnew : other ∉ seen := by simpa using hseen
        obtain ⟨hsorted, hmem⟩ := ih (other :: seen) m hkeys.2
        dsimp only
        refine ⟨List.pairwise_cons.mpr ⟨?_, hsorted⟩, fun a j => ?_⟩
        · rintro ⟨a, j⟩ hx
          obtain ⟨ha, _, _, hj, _⟩ := (hmem a j).mp hx
          refine ⟨hkeys.1 a ha, ?_⟩
          rintro (rfl : other = j)
          exact hj List.mem_cons_self
        · rw [List.mem_cons, hmem, Meets.cons_of_new hkeys.1 howner hne hnew, Prod.mk.injEq]

/-! ## Placements -/

open Placement

/-- The cells as the first `n` placements leave them: those of their owners hold
    what these write, and all others are as at the beginning. -/
structure Held (ps : List Placement) (n : Nat) (m : ByteMap Nat) : Prop where
  owned : ∀ i p a, i < n → ps[i]? = some p → Owns ps i a → m.cell a = heldBy p i a
  free : ∀ a, (∀ i, i < n → ¬ Owns ps i a) → m.cell a = {}

/-- The reports on placement `i`: the earlier placements that own addresses of
    it, each with the lowest of these, in ascending order. -/
structure Reported (ps : List Placement) (i : Nat) (xs : List (Nat × Nat)) : Prop where
  ascending : xs.Pairwise fun x y => x.1 < y.1
  distinct : (xs.map Prod.snd).Nodup
  exact : ∀ a j, (a, j) ∈ xs ↔ Collides ps i j a

/-- The diagnostic for an address of placement `i` and its owner. -/
def overlapAt (ps : List Placement) (i : Nat) (x : Nat × Nat) : Diagnostic :=
  let name := fun k => (ps[k]?.map (·.chunk.name)).getD ""
  { problem := .layout (.overlap x.1 (name i) (name x.2))
    span := (ps[i]?.map (·.chunk.span)).getD {} }

/-- All reports together are none exactly if no placements collide. -/
theorem overlaps_eq_nil_iff {ps : List Placement} {rs : List (List (Nat × Nat))}
    (hlength : rs.length = ps.length) (hrs : ∀ i xs, rs[i]? = some xs → Reported ps i xs) :
    (rs.zipIdx.flatMap fun (xs, i) => xs.map (overlapAt ps i)) = [] ↔
      ∀ i j a, ¬ Collides ps i j a := by
  rw [List.flatMap_eq_nil_iff]
  constructor
  · intro hnil i j a hcollides
    have hi : i < rs.length := by
      obtain ⟨_, ⟨p, hp, _⟩, _⟩ := hcollides
      rw [hlength]
      exact (List.getElem?_eq_some_iff.mp hp).1
    have hget : rs[i]? = some rs[i] := List.getElem?_eq_getElem hi
    have hreport : (a, j) ∈ rs[i] := ((hrs i rs[i] hget).exact a j).mpr hcollides
    have hnone := hnil (rs[i], i) (List.mem_zipIdx_iff_getElem?.mpr hget)
    rw [List.map_eq_nil_iff] at hnone
    rw [hnone] at hreport
    cases hreport
  · rintro hnone ⟨xs, i⟩ hxs
    rw [List.map_eq_nil_iff, List.eq_nil_iff_forall_not_mem]
    rintro ⟨a, j⟩ hreport
    have hreported := hrs i xs (List.mem_zipIdx_iff_getElem?.mp hxs)
    exact hnone i j a ((hreported.exact a j).mp hreport)

namespace Held

variable {ps : List Placement} {n : Nat} {m : ByteMap Nat} {p : Placement}

theorem start (ps : List Placement) : Held ps 0 {} where
  owned i _ _ hi := absurd hi (Nat.not_lt_zero i)
  free a _ := cell_empty a

/-- The owner that a cell has is the owner of its address, if that is one of the
    first placements. -/
theorem owner_iff (h : Held ps n m) {a j : Nat} :
    (m.cell a).owner = some j ↔ j < n ∧ Owns ps j a := by
  by_cases howned : ∃ i, i < n ∧ Owns ps i a
  · obtain ⟨i, hi, howns⟩ := howned
    obtain ⟨q, hq, _, _⟩ := howns.1
    rw [h.owned i q a hi hq howns]
    constructor
    · rintro ⟨⟩
      exact ⟨hi, howns⟩
    · rintro ⟨_, howns'⟩
      rw [howns.unique howns']
      rfl
  · rw [h.free a fun i hi howns => howned ⟨i, hi, howns⟩]
    constructor
    · nofun
    · rintro ⟨hj, howns⟩
      exact absurd ⟨j, hj, howns⟩ howned

/-- An address is granted to a placement if no earlier one owns it. -/
theorem grants_iff (h : Held ps n m) {a : Nat} :
    m.Grants n a ↔ ∀ i, i < n → ¬ Owns ps i a := by
  constructor
  · intro hg i hi howns
    exact absurd (hg i (h.owner_iff.mpr ⟨hi, howns⟩)) (Nat.ne_of_lt hi)
  · intro hfree other hother
    obtain ⟨hlt, howns⟩ := h.owner_iff.mp hother
    exact absurd howns (hfree other hlt)

/-- A placement that leaves the address space claims nothing and is not
    reported. -/
theorem skip (h : Held ps n m) (hp : ps[n]? = some p) (hfits : p.fits = false) :
    Held ps (n + 1) m ∧ Reported ps n [] := by
  have hnone : ∀ a, ¬ CoversAt ps n a := by
    rintro a ⟨q, hq, hfits', _⟩
    cases hp.symm.trans hq
    rw [hfits] at hfits'
    cases hfits'
  constructor
  · refine ⟨fun i q a hi hq howns => ?_, fun a ha => h.free a fun i hi => ha i (by omega)⟩
    rcases Nat.lt_succ_iff_lt_or_eq.mp hi with hlt | rfl
    · exact h.owned i q a hlt hq howns
    · exact absurd howns.1 (hnone a)
  · refine ⟨.nil, .nil, fun a j => ⟨nofun, fun hc => absurd hc.2.1 (hnone a)⟩⟩

/-- One placement takes the addresses that nobody owns, and is reported where it
    meets others. -/
theorem claims (h : Held ps n m) (hp : ps[n]? = some p) (hfits : p.fits = true)
    (hinside : p.Inside) :
    Held ps (n + 1) (m.claimAll n [] p.claims).1 ∧
      Reported ps n (m.claimAll n [] p.claims).2 := by
  have hkeys : (p.claims.map Prod.fst).Pairwise (· < ·) := by
    rw [keys_claims hinside]
    exact List.pairwise_lt_range'
  have hmem : ∀ a, a ∈ p.claims.map Prod.fst ↔ CoversAt ps n a := by
    intro a
    rw [mem_keys_claims hinside, coversAt_iff hp hfits]
  have howner : ∀ a, Owns ps n a ↔ CoversAt ps n a ∧ m.Grants n a := by
    intro a
    rw [h.grants_iff]
    constructor
    · intro howns
      exact ⟨howns.1, fun i hi hi' => howns.2 i hi hi'.1⟩
    · rintro ⟨hcovers, hfree⟩
      refine ⟨hcovers, fun i hi hi' => ?_⟩
      obtain ⟨k, hk, howns⟩ := exists_owns hi'
      exact hfree k (by omega) howns
  constructor
  · obtain ⟨hin, hout⟩ := cell_claimAll n [] m
      (hkeys.imp fun hlt => Nat.ne_of_lt hlt)
    refine ⟨fun i q a hi hq howns => ?_, fun a ha => ?_⟩
    · rcases Nat.lt_succ_iff_lt_or_eq.mp hi with hlt | rfl
      · -- an address with an earlier owner is refused
        rw [hout a fun _ hg => h.grants_iff.mp hg i hlt howns]
        exact h.owned i q a hlt hq howns
      · cases hp.symm.trans hq
        obtain ⟨hcovers, hgrants⟩ := (howner a).mp howns
        obtain ⟨x, hx, rfl⟩ := List.mem_map.mp ((hmem a).mpr hcovers)
        rw [hin x hx hgrants, h.free x.1 (h.grants_iff.mp hgrants), byteAt_of_mem_claims hx,
          claimed, heldBy]
        simp
    · rw [hout a fun hcovers hg => ?_]
      · exact h.free a fun i hi => ha i (by omega)
      · exact ha n (Nat.lt_succ_self n) ((howner a).mpr ⟨(hmem a).mp hcovers, hg⟩)
  · obtain ⟨hsorted, hexact⟩ := mem_claimAll n [] m hkeys
    refine ⟨hsorted.imp fun hxy => hxy.1, ?_, fun a j => ?_⟩
    · rw [List.Nodup, List.pairwise_map]
      exact hsorted.imp fun hxy => hxy.2
    · simp only [hexact a j, Meets, hmem, ne_eq, h.owner_iff]
      constructor
      · rintro ⟨hcovers, ⟨hj, howns⟩, _, _, hfirst⟩
        exact ⟨hj, hcovers, howns, fun b hb hb' hb'' => hfirst b hb' hb ⟨hj, hb''⟩⟩
      · rintro ⟨hj, hcovers, howns, hfirst⟩
        exact ⟨hcovers, ⟨hj, howns⟩, Nat.ne_of_lt hj, by simp,
          fun b hb hlt hb' => hfirst b hlt hb hb'.2⟩

/-- All placements from a number on, by induction on those that are left. -/
theorem writeAll {qs : List Placement} (h : Held ps n m)
    (hqs : ∀ i q, qs[i]? = some q → ps[n + i]? = some q)
    (hps : ∀ q ∈ qs, q.fits = true → q.Inside) :
    Held ps (n + qs.length) (m.writeAll ps n qs).1 ∧
      ∃ rs : List (List (Nat × Nat)), rs.length = qs.length ∧
        (∀ i xs, rs[i]? = some xs → Reported ps (n + i) xs) ∧
        (m.writeAll ps n qs).2 =
          (rs.zipIdx n).flatMap fun (xs, i) => xs.map (overlapAt ps i) := by
  induction qs generalizing n m with
  | nil => exact ⟨h, [], rfl, by simp, rfl⟩
  | cons p qs ih =>
    have hp : ps[n]? = some p := hqs 0 p rfl
    have hrest : ∀ i q, qs[i]? = some q → ps[n + 1 + i]? = some q := by
      intro i q hq
      have hshift := hqs (i + 1) q hq
      rwa [Nat.add_comm i 1, ← Nat.add_assoc] at hshift
    have hlen : n + (p :: qs).length = n + 1 + qs.length := by
      rw [List.length_cons]
      omega
    have hps' := fun q hq => hps q (List.mem_cons_of_mem p hq)
    -- the reports on this placement go before those on the later ones
    have hcons : ∀ {xs : List (Nat × Nat)} {rs : List (List (Nat × Nat))}, Reported ps n xs →
        (∀ i ys, rs[i]? = some ys → Reported ps (n + 1 + i) ys) →
        ∀ i ys, (xs :: rs)[i]? = some ys → Reported ps (n + i) ys := by
      intro xs rs hxs hrs i ys hi
      cases i with
      | zero =>
        cases hi
        exact hxs
      | succ i =>
        have hys := hrs i ys hi
        rwa [Nat.add_assoc, Nat.add_comm 1 i] at hys
    unfold ByteMap.writeAll
    rw [hlen]
    by_cases hfits : p.fits = true
    · rw [if_pos hfits]
      dsimp only
      obtain ⟨hheld, hxs⟩ := h.claims hp hfits (hps p List.mem_cons_self hfits)
      obtain ⟨hend, rs, hlength, hrs, heq⟩ := ih hheld hrest hps'
      refine ⟨hend, _ :: rs, by rw [List.length_cons, hlength, List.length_cons], hcons hxs hrs, ?_⟩
      rw [heq, List.zipIdx_cons, List.flatMap_cons]
      simp [overlapAt, hp]
    · rw [if_neg hfits]
      obtain ⟨hheld, hxs⟩ := h.skip hp (by simpa using hfits)
      obtain ⟨hend, rs, hlength, hrs, heq⟩ := ih hheld hrest hps'
      refine ⟨hend, [] :: rs, by rw [List.length_cons, hlength, List.length_cons],
        hcons hxs hrs, ?_⟩
      rw [heq, List.zipIdx_cons, List.flatMap_cons]
      rfl

end Held

/-- Overlaps are found exactly, and the first claimant wins.  However placements
    lie across each other, each address that is covered belongs to the first
    placement that covers it and holds the byte of that one, or none if it only
    reserves addresses, from the time that this one is written on; all other
    addresses are as at the beginning.  For each placement and each earlier
    owner of addresses of it there is one report, at the lowest of these
    addresses, and there are no others.  So nothing is reported exactly if no
    two placements cover a common address. -/
theorem writeAll_overlaps (ps : List Placement) (hps : ∀ p ∈ ps, p.fits = true → p.Inside) :
    let m := (({} : ByteMap Nat).writeAll ps 0 ps).1
    let ds := (({} : ByteMap Nat).writeAll ps 0 ps).2
    (∀ i p a, ps[i]? = some p → Owns ps i a → m.cell a = heldBy p i a ∧
      ∀ k, i < k → (({} : ByteMap Nat).writeAll ps 0 (ps.take k)).1.cell a = heldBy p i a) ∧
    (∀ a, (∀ i, ¬ CoversAt ps i a) → m.cell a = {}) ∧
    (∃ rs : List (List (Nat × Nat)), rs.length = ps.length ∧
      (∀ i xs, rs[i]? = some xs → Reported ps i xs) ∧
      ds = rs.zipIdx.flatMap fun (xs, i) => xs.map (overlapAt ps i)) ∧
    (ds = [] ↔ ∀ i j a, i ≠ j → CoversAt ps i a → ¬ CoversAt ps j a) := by
  intro m ds
  have hall : ∀ i q, ps[i]? = some q → ps[0 + i]? = some q := by
    intro i q hq
    rwa [Nat.zero_add]
  obtain ⟨hheld, rs, hlength, hrs, heq⟩ := (Held.start ps).writeAll hall hps
  rw [Nat.zero_add] at hheld
  simp only [Nat.zero_add] at hrs
  have hbound : ∀ {i a}, Owns ps i a → i < ps.length := by
    rintro i a ⟨⟨p, hp, _⟩, _⟩
    exact (List.getElem?_eq_some_iff.mp hp).1
  refine ⟨fun i p a hp howns => ⟨hheld.owned i p a (hbound howns) hp howns, fun k hk => ?_⟩,
    fun a ha => hheld.free a fun i _ howns => ha i howns.1, ⟨rs, hlength, hrs, heq⟩, ?_⟩
  · -- the first placements alone leave the address the same
    have htake : ∀ i q, (ps.take k)[i]? = some q → ps[0 + i]? = some q := by
      intro i q hq
      rw [List.getElem?_take] at hq
      split at hq
      · rwa [Nat.zero_add]
      · cases hq
    obtain ⟨hfirst, _⟩ := (Held.start ps).writeAll htake
      (fun q hq => hps q (List.mem_of_mem_take hq))
    refine hfirst.owned i p a ?_ hp howns
    have hlt := hbound howns
    rw [List.length_take]
    omega
  · rw [show ds = _ from heq, overlaps_eq_nil_iff hlength hrs, no_collides_iff]

/-- Code across a table and across addresses that are reserved in part over that
    table. -/
def contested : List Placement :=
  [{ chunk := { name := "table", lines := [.data [1, 2, 3] ""] }, start := 16 },
   { chunk := { name := "field", lines := [.reserve 4 ""] }, start := 18 },
   { chunk := { name := "code", lines := [.data [7, 8, 9, 10, 11, 12, 13] ""] }, start := 17 }]

theorem contested_overlaps :
    (∀ p ∈ contested, p.fits = true → p.Inside) ∧
    let m := (({} : ByteMap Nat).writeAll contested 0 contested).1
    let ds := (({} : ByteMap Nat).writeAll contested 0 contested).2
    m.cell 18 = { byte := 3, written := true, owner := some 0 } ∧
    m.cell 20 = { byte := 0, written := false, owner := some 1 } ∧
    m.cell 22 = { byte := 12, written := true, owner := some 2 } ∧
    m.cell 24 = {} ∧
    Collides contested 2 0 17 ∧ Collides contested 2 1 19 ∧ ds ≠ [] := by
  have hinside : ∀ p ∈ contested, p.fits = true → p.Inside := by
    intro p hp _
    simp only [contested, List.mem_cons, List.not_mem_nil, or_false] at hp
    rcases hp with rfl | rfl | rfl <;> exact ⟨by decide, by decide, by decide⟩
  obtain ⟨howned, hfree, _, hclean⟩ := writeAll_overlaps contested hinside
  refine ⟨hinside, (howned 0 _ 18 rfl (by decide)).1, (howned 1 _ 20 rfl (by decide)).1,
    (howned 2 _ 22 rfl (by decide)).1, hfree 24 fun i hi => ?_, by decide, by decide,
    fun hnil => ?_⟩
  · have hlt : i < 3 := by
      obtain ⟨p, hp, _⟩ := hi
      exact (List.getElem?_eq_some_iff.mp hp).1
    exact absurd hi ((by decide : ∀ i, i < 3 → ¬ CoversAt contested i 24) i hlt)
  · exact hclean.mp hnil 0 2 17 (by decide) (by decide) (by decide)

end ByteMap

end Z80Backend
