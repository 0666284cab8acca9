import Z80Backend.Proofs.Address.Folding

/-! # Paths that stay in their object

    Fields and constant subscripts lead from an object to parts of it.  A part
    lies inside the whole as long as the type that each step starts from spans
    its parts (`Resolver.Spans`), and this is not checked: a reference takes two
    bytes but is walked into as if it were the object it refers to, a record may
    have the name of a scalar, and the size of an array may leave 64 bits.

    * `Place.Inside.field` and `Place.Inside.elem`: one step.
    * `Place.inside_of_follow`: all steps of a path.
    * `Place.resolve_inside`: what the resolved address denotes. -/

namespace Z80Backend

/-! ## Types and their parts -/

namespace Resolver

/-- Each field lies inside its record. -/
def IsLaidOut (r : Resolver) : Prop :=
  ∀ name l, r.layout? name = some l → ∀ f ∈ l.fields, 0 ≤ f.offset.toInt ∧
    ∃ n, r.sizeOf f.type = .ok n ∧ f.offset.toInt + n.toInt ≤ l.size.toInt

/-- The type takes the bytes of all its parts.  It is no reference, the size of
    a record is that of its layout, and the size of an array is exact. -/
structure Spans (r : Resolver) (t : TypeRef) : Prop where
  direct : t.isRef = false
  record : t.isArray = false → ∀ l, r.layout? t.name = some l → r.elemSize t.name = .ok l.size
  array : t.isArray = true → ∀ n, r.elemSize t.name = .ok n →
    (n * t.len).toInt = n.toInt * t.len.toInt

variable {r : Resolver} {t : TypeRef}

theorem sizeOf_of_direct (h : t.isRef = false) {n : Int64} (hn : r.elemSize t.name = .ok n) :
    r.sizeOf t = .ok (if t.isArray then n * t.len else n) := by
  rw [sizeOf, h, if_neg Bool.false_ne_true, hn]

theorem fieldOf_eq_ok {f : String} {fld : Field} (h : r.fieldOf t f = .ok fld) :
    t.isArray = false ∧ ∃ l, r.layout? t.name = some l ∧ fld ∈ l.fields := by
  unfold fieldOf at h
  split at h
  · cases h
  rename_i harray
  split at h
  · cases h
  rename_i l hl
  split at h
  · rename_i fld' hfld
    cases h
    exact ⟨by simpa using harray, l, hl, List.mem_of_find?_eq_some hfld⟩
  · cases h

theorem Spans.field (hr : r.IsLaidOut) (ht : r.Spans t) {f : String} {fld : Field}
    (h : r.fieldOf t f = .ok fld) :
    ∃ whole size, r.sizeOf t = .ok whole ∧ r.sizeOf fld.type = .ok size ∧
      0 ≤ fld.offset.toInt ∧ fld.offset.toInt + size.toInt ≤ whole.toInt := by
  obtain ⟨harray, l, hl, hmem⟩ := fieldOf_eq_ok h
  obtain ⟨hoffset, size, hsize, hend⟩ := hr t.name l hl fld hmem
  have hwhole := sizeOf_of_direct ht.direct (ht.record harray l hl)
  rw [harray, if_neg Bool.false_ne_true] at hwhole
  exact ⟨l.size, size, hwhole, hsize, hoffset, hend⟩

theorem Spans.elem (ht : r.Spans t) (harray : t.isArray = true) {n size : Int64}
    (hsize : r.sizeOf t.elem = .ok size) (hn : ¬ (n < 0 ∨ t.len ≤ n)) :
    ∃ whole, r.sizeOf t = .ok whole ∧ whole.toInt = size.toInt * t.len.toInt ∧
      0 ≤ n.toInt ∧ n.toInt + 1 ≤ t.len.toInt := by
  rw [sizeOf_elem] at hsize
  have hwhole := sizeOf_of_direct ht.direct hsize
  rw [harray, if_pos rfl] at hwhole
  obtain ⟨hlow, hhigh⟩ := not_or.mp hn
  rw [Int64.not_lt, Int64.le_iff_toInt_le] at hlow
  rw [Int64.not_le, Int64.lt_iff_toInt_lt] at hhigh
  exact ⟨size * t.len, hwhole, ht.array harray size hsize, hlow, hhigh⟩

end Resolver

/-! ## Paths -/

namespace Place

/-- Is the place a storage name with fields and constant subscripts only? -/
def isFixed : Place → Bool
  | name _ => true
  | field b _ | elem b (.const _) => b.isFixed
  | _ => false

section

variable (scope : Scope) (r : Resolver)

/-- The storage that a place starts from. -/
def object : Place → Option Storage
  | name n => scope n
  | field b _ | elem b _ | elemAt b _ | add b _ | sub b _ => b.object
  | literal _ | missing => none

/-- Each step of the path starts from a type that spans its parts. -/
def Spanned : Place → Prop
  | field b _ | elem b _ => b.Spanned ∧ ∀ t, b.typeIn scope r = some t → r.Spans t
  | _ => True

end

variable {scope : Scope} {r : Resolver} {p : Place}

theorem hasIndex_of_isFixed (h : p.isFixed = true) : p.hasIndex = false := by
  induction p with
  | name n => rfl
  | field b f ih => exact ih h
  | elem b i ih =>
    cases i with
    | const e => exact ih h
    | reg8 | reg16 | memHL | memIndexed | missing => cases h
  | elemAt | add | sub | literal | missing => cases h

theorem indexing_of_isFixed (h : p.isFixed = true) (σ : String → UInt16) (s : Cpu) :
    p.indexing scope r σ s = 0 := by
  induction p with
  | name n => rfl
  | field b f ih => exact ih h
  | elem b i ih =>
    cases i with
    | const e => exact ih h
    | reg8 | reg16 | memHL | memIndexed | missing => cases h
  | elemAt | add | sub | literal | missing => cases h

theorem start_of_object {st : Storage} (h : p.object scope = some st) (σ : String → UInt16)
    (s : Cpu) : p.start scope σ s = st.home.address σ s := by
  induction p with
  | name n =>
    show ((scope n).map _).getD 0 = _
    rw [show scope n = some st from h]
    rfl
  | field b f ih | elem b i ih | add b off ih | sub b off ih => exact ih h
  | elemAt b inner ih _ => exact ih h
  | literal e => cases h
  | missing => cases h

/-- A part that is reached with `o` bytes before it lies in the object, if it
    has a size at all. -/
def Inside (r : Resolver) (st : Storage) (o : Int) (t : TypeRef) : Prop :=
  ∀ size, r.sizeOf t = .ok size → ∃ whole, r.sizeOf st.target = .ok whole ∧
    (0 ≤ size.toInt → 0 ≤ o ∧ o + size.toInt ≤ whole.toInt)

namespace Inside

variable {st : Storage} {o : Int} {t : TypeRef}

/-- A field lies where its record does. -/
theorem field (h : Inside r st o t) (hr : r.IsLaidOut) (ht : r.Spans t) {f : String}
    {fld : Field} (hfld : r.fieldOf t f = .ok fld) :
    Inside r st (o + fld.offset.toInt) fld.type := by
  obtain ⟨record, size, hrecord, hsize, hoffset, hend⟩ := ht.field hr hfld
  obtain ⟨whole, hwhole, hbound⟩ := h record hrecord
  intro size' hsize'
  cases hsize.symm.trans hsize'
  refine ⟨whole, hwhole, fun hpos => ?_⟩
  -- a field of some size makes the record as large
  have hreached := hbound (by omega)
  omega

/-- An element lies where its array does. -/
theorem elem (h : Inside r st o t) (ht : r.Spans t) (harray : t.isArray = true) {n size : Int64}
    (hsize : r.sizeOf t.elem = .ok size) (hn : ¬ (n < 0 ∨ t.len ≤ n)) :
    Inside r st (o + n.toInt * size.toInt) t.elem := by
  obtain ⟨array, harraySize, hexact, hlow, hhigh⟩ := ht.elem harray hsize hn
  obtain ⟨whole, hwhole, hbound⟩ := h array harraySize
  intro size' hsize'
  cases hsize.symm.trans hsize'
  refine ⟨whole, hwhole, fun hpos => ?_⟩
  -- the element before the end of the array, as whole numbers of elements
  have harrayPos : 0 ≤ array.toInt := by
    rw [hexact]
    exact Int.mul_nonneg hpos (by omega)
  have hfirst : 0 ≤ n.toInt * size.toInt := Int.mul_nonneg hlow hpos
  have hlast : (n.toInt + 1) * size.toInt ≤ t.len.toInt * size.toInt :=
    Int.mul_le_mul_of_nonneg_right hhigh hpos
  have hreached := hbound harrayPos
  rw [Int.mul_comm] at hexact
  rw [Int.add_mul, Int.one_mul] at hlast
  omega

end Inside

/-- A path stays in its object, by induction on the place.  What each step adds
    is measured against the type that it starts from, so the invariant speaks of
    the part that was reached so far. -/
theorem inside_of_follow (hr : r.IsLaidOut) (hfixed : p.isFixed = true)
    (hspanned : p.Spanned scope r) {path : Path} (h : Path.follow scope r p = .ok path) :
    ∃ st, p.object scope = some st ∧ Inside r st (p.displacement scope r) path.type := by
  induction p generalizing path with
  | name n =>
    -- the path starts with the whole object
    obtain ⟨st, hst, rfl⟩ := Path.follow_name_eq_ok h
    have htype : (Path.ofStorage st).type = st.target := by
      obtain ⟨home, t⟩ := st
      cases home <;> rfl
    refine ⟨st, hst, fun size hsize => ?_⟩
    rw [htype] at hsize
    refine ⟨size, hsize, fun hpos => ⟨Int.le_refl 0, ?_⟩⟩
    rw [displacement]
    omega
  | field b f ih =>
    obtain ⟨q, fld, hb, hfld, rfl⟩ := Path.follow_field_eq_ok h
    obtain ⟨st, hobject, hinside⟩ := ih hfixed hspanned.1 hb
    obtain ⟨e, hfollows⟩ := Path.follows_of_follow (σ := fun _ => 0) hb
    have hadded : (b.fieldOffset scope r f).toInt = fld.offset.toInt := by
      rw [fieldOffset, hfollows.type, Option.bind_some, hfld]
      rfl
    refine ⟨st, hobject, ?_⟩
    rw [displacement, hadded]
    exact hinside.field hr (hspanned.2 q.type hfollows.type) hfld
  | elem b i ih =>
    obtain ⟨q, t, size, hb, helem, hcase⟩ := Path.follow_elem_eq_ok h
    obtain ⟨c, rfl, hc⟩ | ⟨hi, -⟩ := hcase
    · obtain ⟨n, hn, hrange, rfl⟩ := Path.atConst_eq_ok hc
      obtain ⟨st, hobject, hinside⟩ := ih hfixed hspanned.1 hb
      obtain ⟨e, hfollows⟩ := Path.follows_of_follow (σ := fun _ => 0) hb
      obtain ⟨harray, rfl, hsize⟩ := Path.element_eq_ok helem
      have hconstant : c.constant r = n := by
        rw [Expr.constant, hn]
      refine ⟨st, hobject, ?_⟩
      rw [displacement, hconstant, Path.elemSize_of_element helem hfollows.type]
      exact hinside.elem (hspanned.2 q.type hfollows.type) harray hsize hrange
    · cases i with
      | const c => exact absurd rfl (hi c)
      | reg8 | reg16 | memHL | memIndexed | missing => cases hfixed
  | elemAt | add | sub | literal | missing => cases hfixed

/-- Where fields lie inside their records, a storage name with fields and
    constant subscripts whose types span their parts resolves to an address
    inside the object that is named: the storage, or what it refers to in a slot
    that holds an address.  The address denotes the start of the object plus the
    offsets of the steps, as long as its code does not overwrite the slot, and
    the bytes found there are bytes of the object. -/
theorem resolve_inside (scope : Scope) (r : Resolver) (p : Place) (hr : r.IsLaidOut)
    (hfixed : p.isFixed = true) (hspanned : p.Spanned scope r) (x : Resolved)
    (hx : p.resolve scope r = .ok x) (size : Int64) (hsize : r.sizeOf x.type = .ok size) :
    ∃ st whole, p.object scope = some st ∧ r.sizeOf st.target = .ok whole ∧
      (∀ (σ : String → UInt16) (s : Cpu),
        (∀ y ∈ p.cells scope r σ s, y ∉ x.address.scratch σ s) →
        x.address.Denotes σ s (st.home.address σ s + UInt16.ofInt (p.displacement scope r))) ∧
      ∀ k, p.displacement scope r ≤ k → k < p.displacement scope r + size.toInt →
        0 ≤ k ∧ k < whole.toInt := by
  cases hpath : Path.follow scope r p with
  | error err =>
    rw [resolve, hpath] at hx
    cases hx
  | ok path =>
    obtain ⟨st, hobject, hinside⟩ := inside_of_follow hr hfixed hspanned hpath
    obtain ⟨e, hfollows⟩ := Path.follows_of_follow (σ := fun _ => 0) hpath
    have htype : x.type = path.type := by
      have hresolved := (reaches_of_resolve (σ := fun _ => 0) hx).1
      rw [hfollows.type] at hresolved
      exact (Option.some.inj hresolved).symm
    rw [htype] at hsize
    obtain ⟨whole, hwhole, hbound⟩ := hinside size hsize
    refine ⟨st, whole, hobject, hwhole, ?_, ?_⟩
    · intro σ s hclear
      obtain ⟨-, b, e, scale, hreach, hmeans⟩ := reaches_of_resolve (σ := σ) hx
      have hdenotes := hreach.denotes (s := s) fun y hy => hclear y ((hmeans s).2 y hy)
      have hlocation : p.location scope r σ s =
          st.home.address σ s + UInt16.ofInt (p.displacement scope r) := by
        rw [location, indexing_of_isFixed hfixed, Int.add_zero, UInt16.ofInt_add, ofInt_toNat,
          start_of_object hobject]
      -- elements of size 0 matter to runtime subscripts only
      have hnoIndex : p.hasIndex = true → r.IsSized := by
        intro hindex
        rw [hasIndex_of_isFixed hfixed] at hindex
        cases hindex
      rw [← hlocation, location_eq_address_of_hasIndex hnoIndex hpath, ← (hmeans s).1]
      exact hdenotes
    · intro k hlow hhigh
      have hreached := hbound (by omega)
      omega

theorem isLaidOut_gridResolver : gridResolver.IsLaidOut := by
  intro name l h f hf
  simp only [gridResolver] at h
  split at h
  · cases h
    obtain rfl := List.mem_singleton.mp hf
    exact ⟨by decide, 4, rfl, by decide⟩
  · split at h
    · cases h
      obtain rfl := List.mem_singleton.mp hf
      exact ⟨by decide, 2, rfl, by decide⟩
    · cases h

/-- `grid[3].row[2]` -/
def gridCorner : Place :=
  .elem (.field (.elem (.name "grid") (.const (.number 3))) "row") (.const (.number 2))

/-- Its byte is number 22 of the 24 of four cells. -/
theorem gridCorner_inside : gridResolver.IsLaidOut ∧ gridCorner.Spanned gridScope gridResolver ∧
    ∃ x st whole, gridCorner.resolve gridScope gridResolver = .ok x ∧
      gridCorner.object gridScope = some st ∧ gridResolver.sizeOf st.target = .ok whole ∧
      x.address.Denotes (fun _ => 0x4000) Address.rowCpu 0x4016 ∧ 22 < whole.toInt := by
  have hspans : ∀ t ∈ [{ name := "byte", len := 4 }, { name := "cell" },
      ({ name := "cell", len := 4 } : TypeRef)], gridResolver.Spans t := by
    intro t ht
    simp only [List.mem_cons, List.not_mem_nil, or_false] at ht
    rcases ht with rfl | rfl | rfl
    · exact ⟨rfl, nofun, fun _ n hn => by cases hn; decide⟩
    · exact ⟨rfl, fun _ l hl => by cases hl; rfl, nofun⟩
    · exact ⟨rfl, nofun, fun _ n hn => by cases hn; decide⟩
  have hspanned : gridCorner.Spanned gridScope gridResolver := by
    refine ⟨⟨⟨trivial, fun t ht => ?_⟩, fun t ht => ?_⟩, fun t ht => ?_⟩
    · cases ht
      exact hspans _ (by decide)
    · cases ht
      exact hspans _ (by decide)
    · cases ht
      exact hspans _ (by decide)
  have hx : gridCorner.resolve gridScope gridResolver = .ok _ := rfl
  obtain ⟨st, whole, hobject, hwhole, hdenotes, hinside⟩ := resolve_inside gridScope gridResolver
    gridCorner isLaidOut_gridResolver rfl hspanned _ hx 1 rfl
  have hoffset : gridCorner.displacement gridScope gridResolver = 22 := by decide +kernel
  rw [hoffset] at hdenotes hinside
  refine ⟨isLaidOut_gridResolver, hspanned, _, st, whole, hx, hobject, hwhole, ?_,
    (hinside 22 (by decide) (by decide)).2⟩
  have hstart := hdenotes (fun _ => 0x4000) Address.rowCpu (not_mem_of_all (by decide +kernel))
  cases hobject
  exact hstart

/-- The place is resolved, and has a byte outside of its object. -/
def Escapes (scope : Scope) (r : Resolver) (p : Place) : Prop :=
  p.isFixed = true ∧ ∃ x size st whole, p.resolve scope r = .ok x ∧
    r.sizeOf x.type = .ok size ∧ p.object scope = some st ∧ r.sizeOf st.target = .ok whole ∧
    ∃ k, p.displacement scope r ≤ k ∧ k < p.displacement scope r + size.toInt ∧
      ¬ (0 ≤ k ∧ k < whole.toInt)

/-- Nodes of a list, and a record with the name of a scalar. -/
def nodeResolver : Resolver where
  value? := fun _ => none
  layout? := fun name =>
    if name = "node" then
      some { name := "node", size := 4, fields := [⟨"value", 0, { name := "word" }⟩,
        ⟨"next", 2, { name := "node", isRef := true }⟩] }
    else if name = "word" then
      some { name := "word", size := 8, fields := [⟨"far", 6, { name := "byte" }⟩] }
    else none

/-- A reference to a node and one to a row, a node, a word, and more words than
    64 bits can count the bytes of. -/
def nodeScope : Scope := fun name =>
  if name = "head" then some ⟨.global "head", { name := "node", isRef := true }⟩
  else if name = "row" then some ⟨.frame (-2), { name := "byte", len := 4, isRef := true }⟩
  else if name = "list" then some ⟨.global "list", { name := "node" }⟩
  else if name = "count" then some ⟨.global "count", { name := "word" }⟩
  else if name = "all" then some ⟨.global "all", { name := "word", len := 4611686018427387904 }⟩
  else none

/-- A global or frame reference is walked into, and so is one in a field; a
    record with the name of a scalar has fields behind its end, and so has an
    array whose size overflows. -/
theorem paths_escape : nodeResolver.IsLaidOut ∧
    (field (name "head") "next").Escapes nodeScope nodeResolver ∧
    (elem (name "row") (.const (.number 3))).Escapes nodeScope nodeResolver ∧
    (field (field (name "list") "next") "next").Escapes nodeScope nodeResolver ∧
    (field (name "count") "far").Escapes nodeScope nodeResolver ∧
    (elem (name "all") (.const (.number 5))).Escapes nodeScope nodeResolver := by
  refine ⟨?_, ⟨rfl, _, 2, _, 2, rfl, rfl, rfl, rfl, 2, ?_⟩,
    ⟨rfl, _, 1, _, 2, rfl, rfl, rfl, rfl, 3, ?_⟩, ⟨rfl, _, 2, _, 4, rfl, rfl, rfl, rfl, 4, ?_⟩,
    ⟨rfl, _, 1, _, 2, rfl, rfl, rfl, rfl, 6, ?_⟩, ⟨rfl, _, 2, _, _, rfl, rfl, rfl, rfl, 10, ?_⟩⟩
  · intro name l h f hf
    simp only [nodeResolver] at h
    split at h
    · cases h
      simp only [List.mem_cons, List.not_mem_nil, or_false] at hf
      rcases hf with rfl | rfl
      · exact ⟨by decide, 2, rfl, by decide⟩
      · exact ⟨by decide, 2, rfl, by decide⟩
    · split at h
      · cases h
        obtain rfl := List.mem_singleton.mp hf
        exact ⟨by decide, 1, rfl, by decide⟩
      · cases h
  all_goals decide +kernel

end Place

end Z80Backend
