import Mathlib.Algebra.Group.Int.Defs
import Mathlib.Algebra.GroupWithZero.Nat
import Z80Backend.Proofs.Image.Relocation
import Z80Backend.Proofs.Program.Placeable

/-! # Placement is exact

    Placement adds alignments and sizes on 64 bits.  As long as they add up to
    less than a 64-bit number holds, it is what it would be on all integers: each
    chunk starts at the least multiple of its alignment that is not below its pin
    or the end of the chunk before, and it is placed exactly if it ends inside the
    address space.

    * `IsLeastMultiple` is alignment on the integers, and
      `isLeastMultiple_alignUp` says that `alignUp` computes it.
    * `Placement.Laid` and `Layout.Lays` are placement on the integers, within a
      section and from section to section; `Placement.laid_placeAll` and
      `Placement.lays_placeSections` say that chunks are placed so.
    * `Linker.link_places`: linking what a module is lowered to.
    * `Linker.places_wrong`: past 64 bits a chunk comes to lie below its pin, and
      another is written to addresses that do not exist. -/

namespace Z80Backend

/-! ## Alignment -/

/-- The least multiple of `align` that is not below `n`. -/
structure IsLeastMultiple (align n k : Int) : Prop where
  dvd : align ∣ k
  le : n ≤ k
  least : ∀ m, align ∣ m → n ≤ m → k ≤ m

/-- A multiple less than one step above is the least one. -/
theorem IsLeastMultiple.of_lt {align n k : Int} (hdvd : align ∣ k) (hle : n ≤ k)
    (hlt : k < n + align) : IsLeastMultiple align n k := by
  refine ⟨hdvd, hle, fun m hm hnm => ?_⟩
  -- two multiples that are less than one step apart are the same
  by_cases hmk : k ≤ m
  · exact hmk
  · have hstep : align ∣ k - m := Int.dvd_sub hdvd hm
    have hfar : align ≤ k - m := Int.le_of_dvd (by omega) hstep
    omega

/-- Rounding up is exact where the sum fits a number. -/
theorem isLeastMultiple_alignUp {n align : Int64} (halign : 0 < align.toInt) (hn : 0 ≤ n.toInt)
    (hsum : n.toInt + align.toInt < 2 ^ 63) :
    IsLeastMultiple align.toInt n.toInt (alignUp n align).toInt ∧
      (alignUp n align).toInt < n.toInt + align.toInt := by
  have hone : (1 : Int64).toInt = 1 := rfl
  unfold alignUp
  by_cases hsmall : align ≤ 1
  · have heq : align.toInt = 1 := by
      have hle := Int64.le_iff_toInt_le.mp hsmall
      omega
    rw [if_pos hsmall]
    refine ⟨.of_lt ?_ (Int.le_refl _) (by omega), by omega⟩
    rw [heq]
    exact Int.one_dvd _
  · rw [if_neg hsmall]
    have hadd : (n + align).toInt = n.toInt + align.toInt := by
      rw [Int64.toInt_add]
      exact Int.bmod_eq_of_le (by omega) (by omega)
    have hsub : (n + align - 1).toInt = n.toInt + align.toInt - 1 := by
      rw [Int64.toInt_sub, hadd, hone]
      exact Int.bmod_eq_of_le (by omega) (by omega)
    -- the quotient and its product with the alignment are below the sum
    have hquot : ((n + align - 1) / align).toInt = (n.toInt + align.toInt - 1) / align.toInt := by
      have hnonneg : 0 ≤ (n.toInt + align.toInt - 1) / align.toInt :=
        Int.ediv_nonneg (by omega) (by omega)
      have hle : (n.toInt + align.toInt - 1) / align.toInt ≤ n.toInt + align.toInt - 1 :=
        Int.ediv_le_self _ (by omega)
      rw [Int64.toInt_div, hsub, Int.tdiv_eq_ediv_of_nonneg (by omega)]
      exact Int.bmod_eq_of_le (by omega) (by omega)
    have hlow : (n.toInt + align.toInt - 1) / align.toInt * align.toInt ≤
        n.toInt + align.toInt - 1 := Int.ediv_mul_le _ (by omega)
    have hhigh : n.toInt + align.toInt - 1 <
        (n.toInt + align.toInt - 1) / align.toInt * align.toInt + align.toInt := by
      have hlt := Int.lt_ediv_add_one_mul_self (n.toInt + align.toInt - 1) halign
      rwa [Int.add_mul, Int.one_mul] at hlt
    have hprod : ((n + align - 1) / align * align).toInt =
        (n.toInt + align.toInt - 1) / align.toInt * align.toInt := by
      rw [Int64.toInt_mul, hquot]
      exact Int.bmod_eq_of_le (by omega) (by omega)
    rw [hprod]
    exact ⟨.of_lt (Int.dvd_mul_left _ _) (by omega) (by omega), by omega⟩

/-! ## Chunks in a section -/

theorem Chunk.toInt_size {c : Chunk} (h : c.extent < 2 ^ 63) : c.size.toInt = c.extent := by
  unfold extent at h ⊢
  unfold size
  by_cases hreserved : 0 < c.reserved
  · have hpos : 0 < c.reserved.toInt := Int64.lt_iff_toInt_lt.mp hreserved
    rw [if_pos hreserved, if_pos hreserved]
    omega
  · rw [if_neg hreserved] at h
    rw [if_neg hreserved, if_neg hreserved, Int64.toInt_ofNat_of_lt h]

namespace Placement

/-- Placement within a section, on the integers: each chunk starts at the least
    multiple of its alignment that is not below its pin or, without one, the
    cursor.  The cursor moves past a chunk that ends in the address space, and
    that chunk is placed; behind any other it stays where the chunk was tried. -/
inductive Laid : Int → List Placement → Int → Prop where
  | nil {cursor : Int} : Laid cursor [] cursor
  | placed {cursor stop : Int} {p : Placement} {ps : List Placement}
      (hstart : IsLeastMultiple p.chunk.align.toInt ((p.chunk.pin.map (·.toInt)).getD cursor)
        p.start.toInt)
      (hfits : p.fits = true) (hinside : p.start.toInt + p.chunk.extent ≤ addressSpace)
      (hrest : Laid (p.start.toInt + p.chunk.extent) ps stop) : Laid cursor (p :: ps) stop
  | passed {cursor stop : Int} {p : Placement} {ps : List Placement}
      (hstart : IsLeastMultiple p.chunk.align.toInt ((p.chunk.pin.map (·.toInt)).getD cursor)
        p.start.toInt)
      (hfits : p.fits = false) (houtside : addressSpace < p.start.toInt + p.chunk.extent)
      (hstop : p.stop.toInt = p.start.toInt + p.chunk.extent)
      (hrest : Laid p.start.toInt ps stop) : Laid cursor (p :: ps) stop

variable {c : Chunk} {cursor : Int64} {bound : Nat}

/-- One chunk is placed exactly, when the cursor is below a bound that leaves
    room for its alignment and its size. -/
theorem exact_ofChunk (hc : c.IsPlaceable) (hcursor : 0 ≤ cursor.toInt)
    (hbound : cursor.toInt ≤ bound) (hspace : addressSpace ≤ bound)
    (hroom : bound + c.align.toInt.toNat + c.extent < 2 ^ 63) :
    IsLeastMultiple c.align.toInt ((c.pin.map (·.toInt)).getD cursor.toInt)
        (ofChunk cursor c).start.toInt ∧
      0 ≤ (ofChunk cursor c).start.toInt ∧
      (ofChunk cursor c).start.toInt < bound + c.align.toInt ∧
      (ofChunk cursor c).stop.toInt = (ofChunk cursor c).start.toInt + c.extent := by
  have halign := hc.align
  have hspace' : (addressSpace : Int) = 65536 := rfl
  have hfrom : ((c.pin.map (·.toInt)).getD cursor.toInt) = (c.pin.getD cursor).toInt := by
    cases c.pin <;> rfl
  have hrange : 0 ≤ (c.pin.getD cursor).toInt ∧ (c.pin.getD cursor).toInt ≤ bound := by
    cases hpin : c.pin with
    | none => exact ⟨hcursor, hbound⟩
    | some n =>
      have hn := hc.pin n hpin
      rw [Option.getD_some]
      omega
  obtain ⟨hleast, hlt⟩ := isLeastMultiple_alignUp halign hrange.1 (by omega)
  have hle := hleast.le
  rw [hfrom]
  refine ⟨hleast, ?_, ?_, ?_⟩
  · show 0 ≤ (alignUp (c.pin.getD cursor) c.align).toInt
    omega
  · show (alignUp (c.pin.getD cursor) c.align).toInt < bound + c.align.toInt
    omega
  · show ((alignUp (c.pin.getD cursor) c.align) + c.size).toInt =
      (alignUp (c.pin.getD cursor) c.align).toInt + c.extent
    rw [Int64.toInt_add, Chunk.toInt_size (by omega)]
    exact Int.bmod_eq_of_le (by omega) (by omega)

/-- A chunk whose end is exact is placed if it ends in the address space. -/
theorem fits_iff {p : Placement} (hstart : 0 ≤ p.start.toInt)
    (hstop : p.stop.toInt = p.start.toInt + p.chunk.extent) :
    p.fits = true ↔ p.start.toInt + p.chunk.extent ≤ addressSpace := by
  have hspace : (Int64.ofNat addressSpace).toInt = addressSpace := rfl
  have hneg : ¬ p.start < 0 := by
    rw [Int64.lt_iff_toInt_lt]
    exact Int.not_lt.mpr hstart
  rw [fits, Bool.not_eq_true', Bool.or_eq_false_iff, decide_eq_false_iff_not,
    decide_eq_false_iff_not, and_iff_right hneg, Int64.lt_iff_toInt_lt, hspace, hstop, Int.not_lt]

/-- Chunks are placed exactly one after the other.  Each of them moves the bound
    for the cursor up by its alignment. -/
theorem laid_placeAll {cs : List Chunk} (hcs : ∀ c ∈ cs, c.IsPlaceable)
    (hcursor : 0 ≤ cursor.toInt) (hbound : cursor.toInt ≤ bound) (hspace : addressSpace ≤ bound)
    (hroom : ∀ c ∈ cs, bound + (cs.map (·.align.toInt.toNat)).sum + c.extent < 2 ^ 63) :
    Laid cursor.toInt (placeAll cursor cs).1 (placeAll cursor cs).2.toInt ∧
      0 ≤ (placeAll cursor cs).2.toInt ∧
      (placeAll cursor cs).2.toInt ≤ bound + (cs.map (·.align.toInt.toNat)).sum := by
  induction cs generalizing cursor bound with
  | nil => exact ⟨.nil, hcursor, by simpa [placeAll] using hbound⟩
  | cons c cs ih =>
    simp only [List.map_cons, List.sum_cons] at hroom ⊢
    have hroom₀ := hroom c List.mem_cons_self
    have halign := (hcs c List.mem_cons_self).align
    obtain ⟨hleast, hnonneg, hlt, hstop⟩ := exact_ofChunk (hcs c List.mem_cons_self) hcursor hbound
      hspace (by omega)
    have hfits := fits_iff hnonneg hstop
    -- where the next chunk is tried is below the bound moved up
    have hnext : 0 ≤ (ofChunk cursor c).next.toInt ∧
        (ofChunk cursor c).next.toInt ≤ (bound + c.align.toInt.toNat : Nat) := by
      unfold next
      split
      · rename_i hplaced
        have hinside := hfits.mp hplaced
        rw [hstop]
        have hextent : (ofChunk cursor c).chunk.extent = c.extent := rfl
        omega
      · omega
    obtain ⟨hlaid, hlow, hhigh⟩ := ih
      (fun c' hc' => hcs c' (List.mem_cons_of_mem _ hc')) hnext.1 hnext.2 (by omega)
      (fun c' hc' => by
        have hroom' := hroom c' (List.mem_cons_of_mem _ hc')
        omega)
    refine ⟨?_, hlow, by
      show (placeAll (ofChunk cursor c).next cs).2.toInt ≤ _
      omega⟩
    show Laid cursor.toInt (ofChunk cursor c :: (placeAll (ofChunk cursor c).next cs).1)
      (placeAll (ofChunk cursor c).next cs).2.toInt
    by_cases hplaced : (ofChunk cursor c).fits = true
    · have hmoved : (ofChunk cursor c).next.toInt =
          (ofChunk cursor c).start.toInt + (ofChunk cursor c).chunk.extent := by
        rw [next, if_pos hplaced, hstop]
        rfl
      rw [hmoved] at hlaid
      exact .placed hleast hplaced (hfits.mp hplaced) hlaid
    · have hstayed : (ofChunk cursor c).next = (ofChunk cursor c).start := by
        rw [next, if_neg hplaced]
      have houtside : addressSpace <
          (ofChunk cursor c).start.toInt + (ofChunk cursor c).chunk.extent := by
        rw [← Int.not_le]
        exact fun hinside => hplaced (hfits.mpr hinside)
      rw [hstayed] at hlaid ⊢
      exact .passed hleast (Bool.eq_false_iff.mpr hplaced) houtside hstop hlaid

/-- Where chunks that are laid from a cursor on come to lie. -/
theorem Laid.mem {cursor stop : Int} {ps : List Placement} (h : Laid cursor ps stop)
    (hps : ∀ p ∈ ps, p.chunk.IsPlaceable) (hcursor : 0 ≤ cursor) :
    0 ≤ stop ∧ ∀ p ∈ ps, 0 ≤ p.start.toInt ∧
      (p.fits = true → p.start.toInt + p.chunk.extent ≤ addressSpace) ∧
      (p.fits = false → p.stop.toInt = p.start.toInt + p.chunk.extent) := by
  -- a pin is not below zero, and neither is the cursor
  have hfrom : ∀ {cursor : Int} {p : Placement}, p.chunk.IsPlaceable → 0 ≤ cursor →
      IsLeastMultiple p.chunk.align.toInt ((p.chunk.pin.map (·.toInt)).getD cursor)
        p.start.toInt → 0 ≤ p.start.toInt := by
    intro cursor p hp hcursor hleast
    refine Int.le_trans ?_ hleast.le
    cases hpin : p.chunk.pin with
    | none => exact hcursor
    | some n => exact (hp.pin n hpin).1
  induction h with
  | nil => exact ⟨hcursor, nofun⟩
  | @placed cursor stop p ps hleast hfits hinside _ ih =>
    have hstart := hfrom (hps p List.mem_cons_self) hcursor hleast
    obtain ⟨hstop, hall⟩ := ih (fun q hq => hps q (List.mem_cons_of_mem _ hq)) (by omega)
    refine ⟨hstop, fun q hq => ?_⟩
    rcases List.mem_cons.mp hq with rfl | hq
    · exact ⟨hstart, fun _ => hinside, fun hnot => absurd (hfits.symm.trans hnot) (by decide)⟩
    · exact hall q hq
  | @passed cursor stop p ps hleast hfits _ hend _ ih =>
    have hstart := hfrom (hps p List.mem_cons_self) hcursor hleast
    obtain ⟨hstop, hall⟩ := ih (fun q hq => hps q (List.mem_cons_of_mem _ hq)) hstart
    refine ⟨hstop, fun q hq => ?_⟩
    rcases List.mem_cons.mp hq with rfl | hq
    · exact ⟨hstart, fun hyes => absurd (hfits.symm.trans hyes) (by decide), fun _ => hend⟩
    · exact hall q hq

end Placement

/-! ## Sections -/

namespace Layout

/-- The layout of a section that is free of faults. -/
theorem get_of_valid {l : Layout} (h : l.fault? = none) {s : Section}
    (hs : s ∈ [Section.code, .data, .var]) :
    0 < (l.get s).align.toInt ∧
      ∀ n, (l.get s).base = some n → 0 ≤ n.toInt ∧ n.toInt ≤ 0xFFFF := by
  have hone : (1 : Int64).toInt = 1 := rfl
  have hfault := List.findSome?_eq_none_iff.mp h s hs
  unfold SectionLayout.fault? at hfault
  dsimp only at hfault
  have halign : ∀ {x : SectionLayout},
      (if x.align < 1 then some (LayoutFault.align s x.align) else none) = none →
        0 < x.align.toInt := by
    intro x hx
    split at hx
    · cases hx
    · rename_i hlt
      rw [Int64.lt_iff_toInt_lt] at hlt
      omega
  split at hfault
  · rename_i n hbase
    split at hfault
    · cases hfault
    · rename_i hrange
      rw [not_or, Int64.not_lt, Int64.not_lt] at hrange
      refine ⟨halign hfault, fun k hk => ?_⟩
      rw [hbase] at hk
      cases hk
      exact ⟨Int64.le_iff_toInt_le.mp hrange.1, Int64.le_iff_toInt_le.mp hrange.2⟩
  · rename_i hbase
    refine ⟨halign hfault, fun k hk => ?_⟩
    rw [hbase] at hk
    cases hk

/-- Placement from section to section, on the integers: a section starts at the
    least multiple of its alignment that is not below its base or, without one,
    the end of the section before. -/
inductive Lays (l : Layout) (chunks : List Chunk) :
    Int → List Section → List Placement → Prop where
  | nil {cursor : Int} : Lays l chunks cursor [] []
  | cons {cursor base stop : Int} {s : Section} {ss : List Section} {ps qs : List Placement}
      (hbase : IsLeastMultiple (l.get s).align.toInt (((l.get s).base.map (·.toInt)).getD cursor)
        base)
      (hchunks : ps.map (·.chunk) = chunks.filter (·.home == s))
      (hlaid : Placement.Laid base ps stop) (hrest : Lays l chunks stop ss qs) :
      Lays l chunks cursor (s :: ss) (ps ++ qs)

/-- All alignments of sections and of the chunks in them. -/
def padding (l : Layout) (chunks : List Chunk) (ss : List Section) : Nat :=
  (ss.map fun s => (l.get s).align.toInt.toNat +
    ((chunks.filter (·.home == s)).map (·.align.toInt.toNat)).sum).sum

/-- Addresses, alignments and the size of any chunk add up to less than what a
    64-bit number holds. -/
def StaysExact (l : Layout) (chunks : List Chunk) : Prop :=
  ∀ n ∈ 0 :: chunks.map (·.extent),
    addressSpace + l.padding chunks [.code, .data, .var] + n < 2 ^ 63

instance (l : Layout) (chunks : List Chunk) : Decidable (l.StaysExact chunks) :=
  inferInstanceAs (Decidable (∀ n ∈ 0 :: chunks.map (·.extent),
    addressSpace + l.padding chunks [.code, .data, .var] + n < 2 ^ 63))

end Layout

namespace Placement

variable {l : Layout} {chunks : List Chunk}

/-- Chunks are placed exactly from section to section. -/
theorem lays_placeSections (hcs : ∀ c ∈ chunks, c.IsPlaceable) {ss : List Section}
    (hss : ∀ s ∈ ss, 0 < (l.get s).align.toInt ∧
      ∀ n, (l.get s).base = some n → 0 ≤ n.toInt ∧ n.toInt ≤ 0xFFFF)
    {cursor : Int64} {bound : Nat} (hcursor : 0 ≤ cursor.toInt) (hbound : cursor.toInt ≤ bound)
    (hspace : addressSpace ≤ bound)
    (hroom : ∀ n ∈ 0 :: chunks.map (·.extent), bound + l.padding chunks ss + n < 2 ^ 63) :
    l.Lays chunks cursor.toInt ss (placeSections l chunks cursor ss) := by
  induction ss generalizing cursor bound with
  | nil => exact .nil
  | cons s ss ih =>
    obtain ⟨halign, hbase⟩ := hss s List.mem_cons_self
    have hpadding : l.padding chunks (s :: ss) = (l.get s).align.toInt.toNat +
        ((chunks.filter (·.home == s)).map (·.align.toInt.toNat)).sum + l.padding chunks ss := by
      simp only [Layout.padding, List.map_cons, List.sum_cons]
    rw [hpadding] at hroom
    have hroom₀ := hroom 0 List.mem_cons_self
    have hspace' : (addressSpace : Int) = 65536 := rfl
    have hfrom : (((l.get s).base.map (·.toInt)).getD cursor.toInt) =
        ((l.get s).base.getD cursor).toInt := by
      cases (l.get s).base <;> rfl
    have hrange : 0 ≤ ((l.get s).base.getD cursor).toInt ∧
        ((l.get s).base.getD cursor).toInt ≤ bound := by
      cases hn : (l.get s).base with
      | none => exact ⟨hcursor, hbound⟩
      | some n =>
        have hn' := hbase n hn
        rw [Option.getD_some]
        omega
    obtain ⟨hleast, hlt⟩ := isLeastMultiple_alignUp halign hrange.1 (by omega)
    have hle := hleast.le
    have hstart : (alignUp ((l.get s).base.getD cursor) (l.get s).align).toInt ≤
        (bound + (l.get s).align.toInt.toNat : Nat) := by omega
    obtain ⟨hlaid, hlow, hhigh⟩ := laid_placeAll
      (fun c (hc : c ∈ chunks.filter (·.home == s)) => hcs c (List.mem_filter.mp hc).1)
      (by omega) hstart (by omega)
      (fun c hc => by
        have hroom' := hroom c.extent
          (List.mem_cons_of_mem _ (List.mem_map_of_mem (List.mem_filter.mp hc).1))
        omega)
    rw [← Int.natCast_add] at hhigh
    have hrest := ih (fun s hs => hss s (List.mem_cons_of_mem _ hs)) hlow hhigh (by omega)
      (fun n hn => by
        have hroom' := hroom n hn
        omega)
    refine .cons ?_ (map_chunk_placeAll _ _) hlaid hrest
    rw [hfrom]
    exact hleast

/-- Where the chunks of sections come to lie. -/
theorem mem_of_lays {cursor : Int} {ss : List Section} {ps : List Placement}
    (h : l.Lays chunks cursor ss ps) (hcs : ∀ c ∈ chunks, c.IsPlaceable)
    (hss : ∀ s ∈ ss, ∀ n, (l.get s).base = some n → 0 ≤ n.toInt ∧ n.toInt ≤ 0xFFFF)
    (hcursor : 0 ≤ cursor) :
    ∀ p ∈ ps, p.chunk ∈ chunks ∧ 0 ≤ p.start.toInt ∧
      (p.fits = true → p.start.toInt + p.chunk.extent ≤ addressSpace) ∧
      (p.fits = false → p.stop.toInt = p.start.toInt + p.chunk.extent) := by
  induction h with
  | nil => exact nofun
  | @cons cursor base stop s ss ps qs hbase hchunks hlaid _ ih =>
    have hlow : 0 ≤ base := by
      refine Int.le_trans ?_ hbase.le
      cases hn : (l.get s).base with
      | none => exact hcursor
      | some n => exact (hss s List.mem_cons_self n hn).1
    have hmem : ∀ p ∈ ps, p.chunk ∈ chunks := by
      intro p hp
      have hin : p.chunk ∈ ps.map (·.chunk) := List.mem_map_of_mem hp
      rw [hchunks] at hin
      exact (List.mem_filter.mp hin).1
    obtain ⟨hstop, hall⟩ := hlaid.mem (fun p hp => hcs _ (hmem p hp)) hlow
    have hrest := ih (fun s hs => hss s (List.mem_cons_of_mem _ hs)) hstop
    intro p hp
    rcases List.mem_append.mp hp with hp | hp
    · exact ⟨hmem p hp, hall p hp⟩
    · exact hrest p hp

end Placement

/-! ## Linking -/

namespace Linker

variable {l : Linker} {chunks : List Chunk}

/-- A slot inside a chunk that ends in the address space is there, too. -/
theorem patch_inside {ps : List Placement} {p : Placement} {f : LocatedFixup} {q : Patch}
    (hslots : p.chunk.SlotsInside) (hstart : 0 ≤ p.start.toInt)
    (hstop : p.start.toInt + p.chunk.size.toInt ≤ addressSpace) (hf : f ∈ p.chunk.fixups)
    (hq : l.patchOf ps p f.toFixup = .ok q) :
    0 ≤ q.address.toInt ∧ q.address.toInt + q.bytes.length ≤ addressSpace := by
  obtain ⟨hlow, hhigh⟩ := hslots f hf
  obtain ⟨n, -, -, haddress, -⟩ := patchOf_eq_ok hq
  have hspace : (addressSpace : Int) = 65536 := rfl
  have hexact : q.address.toInt = p.start.toInt + f.offset.toInt := by
    rw [haddress, Int64.toInt_add]
    exact Int.bmod_eq_of_le (by omega) (by omega)
  rw [length_bytes_of_patchOf hq, hexact]
  omega

/-- The claims of a chunk in the address space stay there. -/
theorem claims_inside {p : Placement} (hstart : 0 ≤ p.start.toInt)
    (hstop : p.start.toInt + p.chunk.extent ≤ addressSpace) :
    ∀ y ∈ p.claims, y.1 < addressSpace := by
  intro y hy
  unfold Placement.claims at hy
  unfold Chunk.extent at hstop
  dsimp only at hy
  by_cases hreserved : 0 < p.chunk.reserved
  · rw [if_pos hreserved] at hy hstop
    obtain ⟨a, ha, rfl⟩ := List.mem_map.mp hy
    have hrange := List.mem_range'_1.mp ha
    show a < addressSpace
    omega
  · rw [if_neg hreserved] at hy hstop
    obtain ⟨⟨b, i⟩, hbi, rfl⟩ := List.mem_map.mp hy
    have hi := (List.getElem?_eq_some_iff.mp (List.mem_zipIdx_iff_getElem?.mp hbi)).1
    show p.start.toInt.toNat + i < addressSpace
    omega

/-- Linking gives a result if no chunk and no patch leaves the address space. -/
theorem exists_link
    (hchunks : ∀ p ∈ Placement.ofChunks l.layout chunks, p.isRunaway = false)
    (hpatches : ∀ q ∈ filled (l.patches (Placement.ofChunks l.layout chunks)),
      0 ≤ q.address.toInt ∧ q.address.toInt + q.bytes.length ≤ addressSpace) :
    ∃ x, l.link chunks = .ok x ∧
      x.patches = filled (l.patches (Placement.ofChunks l.layout chunks)) := by
  have hrunaway : (Placement.ofChunks l.layout chunks).find? (·.isRunaway) = none :=
    List.find?_eq_none.mpr fun p hp => by rw [hchunks p hp]; exact Bool.false_ne_true
  have hfits :
      (filled (l.patches (Placement.ofChunks l.layout chunks))).find? (!·.fits) = none := by
    refine List.find?_eq_none.mpr fun q hq => ?_
    obtain ⟨hlow, hhigh⟩ := hpatches q hq
    simp [Patch.fits, hlow, hhigh]
  unfold link
  dsimp only
  rw [hrunaway]
  dsimp only
  split
  · rename_i q hq
    exact absurd (hfits.symm.trans hq) nofun
  · exact ⟨_, rfl, rfl⟩

/-- Everything that a module is lowered to is placed exactly, under a layout that
    is valid and as long as the sums stay below what a number holds.

    Linking gives a result, so no address outside the address space is written or
    patched.  Every chunk of the module is tried once, where placement on the
    integers says.  A placed chunk lies in the address space; for any other there
    is a diagnostic with the end that it would have had. -/
theorem link_places {m : Module} {r : Resolver} {s s' : Session} {program : Program}
    (l : Linker) (hlower : m.lower r s = .ok (program, s')) (hlayout : l.layout.fault? = none)
    (hexact : l.layout.StaysExact program.chunks) :
    ∃ x, l.link program.chunks = .ok x ∧
      (x.image.placements.map (·.chunk)).Perm program.chunks ∧
      l.layout.Lays program.chunks 0 [.code, .data, .var] x.image.placements ∧
      (∀ p ∈ x.image.placements, p.fits = true → 0 ≤ p.start.toInt ∧
        p.start.toInt + p.chunk.extent ≤ addressSpace ∧
        ∀ y ∈ p.claims, y.1 < addressSpace) ∧
      (∀ p ∈ x.image.placements, p.fits = false → ∃ stop : Int64,
        stop.toInt = p.start.toInt + p.chunk.extent ∧
        { problem := .layout (.overflow p.chunk.home p.chunk.name stop),
          span := p.chunk.span } ∈ x.diagnostics) ∧
      ∀ q ∈ x.patches, 0 ≤ q.address.toInt ∧
        q.address.toInt + q.bytes.length ≤ addressSpace := by
  have hcs := Module.isPlaceable_lower hlower
  have hvalid : ∀ s ∈ [Section.code, .data, .var], 0 < (l.layout.get s).align.toInt ∧
      ∀ n, (l.layout.get s).base = some n → 0 ≤ n.toInt ∧ n.toInt ≤ 0xFFFF :=
    fun s hs => Layout.get_of_valid hlayout hs
  have hlays : l.layout.Lays program.chunks (0 : Int64).toInt [.code, .data, .var]
      (Placement.ofChunks l.layout program.chunks) :=
    Placement.lays_placeSections hcs hvalid (by decide) (by decide) (Nat.le_refl _) hexact
  have hmem := Placement.mem_of_lays hlays hcs (fun s hs => (hvalid s hs).2) (by decide)
  have hextent : ∀ p ∈ Placement.ofChunks l.layout program.chunks,
      p.chunk.extent < 2 ^ 63 ∧ p.chunk.size.toInt = p.chunk.extent := by
    intro p hp
    have hroom := hexact p.chunk.extent
      (List.mem_cons_of_mem _ (List.mem_map_of_mem (hmem p hp).1))
    exact ⟨by omega, Chunk.toInt_size (by omega)⟩
  have hrunaway : ∀ p ∈ Placement.ofChunks l.layout program.chunks, p.isRunaway = false := by
    intro p hp
    obtain ⟨-, -, hinside, -⟩ := hmem p hp
    rw [Placement.isRunaway, (hextent p hp).2]
    cases hfits : p.fits with
    | false => rfl
    | true => simpa using hinside hfits
  have hpatches : ∀ q ∈ filled (l.patches (Placement.ofChunks l.layout program.chunks)),
      0 ≤ q.address.toInt ∧ q.address.toInt + q.bytes.length ≤ addressSpace := by
    intro q hq
    obtain ⟨p, hp, hslot⟩ := List.mem_flatMap.mp (mem_filled.mp hq)
    obtain ⟨hp, hfits⟩ := List.mem_filter.mp hp
    obtain ⟨f, hf, hpatch⟩ := List.mem_map.mp hslot
    obtain ⟨hchunk, hstart, hinside, -⟩ := hmem p hp
    split at hpatch
    · cases hpatch
    · rename_i q' hq'
      cases hpatch
      refine patch_inside ((hcs _ hchunk).slots (hextent p hp).1) hstart ?_ hf hq'
      rw [(hextent p hp).2]
      exact hinside hfits
  obtain ⟨x, hx, hfilled⟩ := exists_link hrunaway hpatches
  obtain ⟨-, hplaces, -, hdiags⟩ := link_eq_ok hx
  refine ⟨x, hx, ?_, ?_, ?_, ?_, ?_⟩
  · rw [hplaces]
    exact Placement.perm_ofChunks l.layout fun c hc => (hcs c hc).home
  · rw [hplaces]
    exact hlays
  · intro p hp hfits
    obtain ⟨-, hstart, hinside, -⟩ := hmem p (hplaces ▸ hp)
    exact ⟨hstart, hinside hfits, claims_inside hstart (hinside hfits)⟩
  · intro p hp hfits
    obtain ⟨-, -, -, hstop⟩ := hmem p (hplaces ▸ hp)
    refine ⟨p.stop, hstop hfits, ?_⟩
    rw [hdiags]
    refine List.mem_append_left _ (List.mem_append_left _ ?_)
    exact List.mem_map.mpr ⟨p, List.mem_filter.mpr ⟨hp, by rw [hfits]; rfl⟩, rfl⟩
  · rw [hfilled]
    exact hpatches

/-- An aligned function at a pinned address, a table that refers to it, and a
    variable that does not fit behind them. -/
def estate : Module where
  name := "estate"
  items :=
    [ .place { kind := .code, address := .number 0x8001, align := 16 },
      .func { name := "main", body := [.label "again" {}, .instr (.of "jr" [.ofName "again"])] },
      .data { name := "table", type := { name := "word", len := 2 },
              values := [.name "main", .number 7] },
      .var { name := "field", type := { name := "byte", len := 0x8000 } } ]

/-- What the module becomes. -/
def estateProgram : Program × Session := (estate.lower .empty {}).toOption.getD ({}, {})

theorem estate_places :
    estate.lower .empty {} = .ok estateProgram ∧
      ({} : Layout).StaysExact estateProgram.1.chunks ∧
      ∃ x, ({} : Linker).link estateProgram.1.chunks = .ok x ∧
        ({} : Layout).Lays estateProgram.1.chunks 0 [.code, .data, .var] x.image.placements ∧
        ∀ p ∈ x.image.placements, p.fits = false → ∃ stop : Int64,
          stop.toInt = p.start.toInt + p.chunk.extent ∧
          { problem := .layout (.overflow p.chunk.home p.chunk.name stop),
            span := p.chunk.span } ∈ x.diagnostics := by
  have hlower : estate.lower .empty {} = .ok estateProgram := rfl
  have hexact : ({} : Layout).StaysExact estateProgram.1.chunks := by decide +kernel
  obtain ⟨x, hx, -, hlays, -, hover, -⟩ := link_places {} hlower (by decide) hexact
  exact ⟨hlower, hexact, x, hx, hlays, hover⟩

/-- A function that is pinned to 100 and aligned to the largest number. -/
def stranded : Module where
  name := "stranded"
  items :=
    [ .place { kind := .code, address := .number 100, align := 0x7FFFFFFFFFFFFFFF },
      .func { name := "main", returns := ["af", "bc", "de", "hl"] } ]

/-- A variable as large as a number can say, behind a function. -/
def swollen : Module where
  name := "swollen"
  items :=
    [ .func { name := "main", returns := ["af", "bc", "de", "hl"] },
      .var { name := "field", type := { name := "byte", len := 0x7FFFFFFFFFFFFFFF } } ]

/-- Past 64 bits sums come out too small: a function is placed below its pin
    without a diagnostic, and a variable that ends far outside the address space
    is written. -/
theorem places_wrong :
    (∃ program s' x, stranded.lower .empty {} = .ok (program, s') ∧
      ({} : Linker).link program.chunks = .ok x ∧ x.diagnostics = [] ∧
      x.image.placements.map (fun p => (p.chunk.pin, p.fits, p.start)) =
        [(some 100, true, 0)]) ∧
    ∃ program s', swollen.lower .empty {} = .ok (program, s') ∧
      ({} : Linker).link program.chunks = .error (.address 2) :=
  ⟨⟨_, _, _, rfl, rfl, rfl, rfl⟩, _, _, rfl, rfl⟩

end Linker

end Z80Backend
