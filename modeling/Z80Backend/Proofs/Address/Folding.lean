import Z80Backend.Proofs.Address.Places

/-! # Folding of typed places

    The address of a typed place is a sum with three kinds of terms: the
    address of the storage that the place starts from, the constants met on
    the way, and at most one subscript that is known at run time only.  Here
    the sum is taken of whole integers and reduced to 16 bits at its end, in
    whatever order the terms were met.

    * `Place.start`, `Place.displacement` and `Place.indexing` are the terms,
      and `Place.location` is the sum.
    * `Place.IsFaulty`: the place has a second runtime subscript on one path,
      a constant subscript that is out of range, a subscript of something that
      is no array, or a field of an array.
    * `Place.resolve_folds`: a resolved address denotes the sum, and a faulty
      place is not resolved. -/

namespace Z80Backend

/-! ## Sums of integers -/

theorem toNat_ofInt (i : Int) : (UInt16.ofInt i).toNat = (i % 65536).toNat := by
  rw [UInt16.ofInt, UInt16.toNat_ofNat']
  omega

theorem ofInt_toNat (w : UInt16) : UInt16.ofInt w.toNat = w := by
  have hw := w.toNat_lt
  rw [← UInt16.toNat_inj, toNat_ofInt]
  omega

/-- Immediates are integers modulo `2 ^ 16`. -/
theorem ofInt_toInt (n : Int64) : UInt16.ofInt n.toInt = imm n := by
  have hn : n.toInt = (n.toUInt64.toNat : Int).bmod (2 ^ 64) := BitVec.toInt_eq_toNat_bmod _
  have hlt := n.toUInt64.toNat_lt
  rw [← UInt16.toNat_inj, toNat_ofInt, imm, UInt64.toNat_toUInt16, hn, Int.bmod_def]
  split <;> omega

/-! ## Terms -/

/-- Every record and union has a positive size. -/
def Resolver.IsSized (r : Resolver) : Prop := ∀ name l, r.layout? name = some l → 0 < l.size

theorem Resolver.IsSized.elemSize_pos {r : Resolver} (hr : r.IsSized) {name : String} {n : Int64}
    (h : r.elemSize name = .ok n) : 0 < n := by
  unfold elemSize at h
  split at h
  · cases h
    decide
  · split at h
    · cases h
      decide
    · split at h
      · rename_i l hl
        cases h
        exact hr name l hl
      · cases h

/-- An element is neither a reference nor an array, so its size is that of its
    name. -/
theorem Resolver.sizeOf_elem (r : Resolver) (t : TypeRef) :
    r.sizeOf t.elem = r.elemSize t.name := by
  cases h : r.elemSize t.name <;> simp [sizeOf, TypeRef.elem, TypeRef.isArray, h]

namespace Place

section

variable (scope : Scope) (r : Resolver)

/-- The address of the storage that a place starts from. -/
def start (σ : String → UInt16) (s : Cpu) : Place → UInt16
  | name n => ((scope n).map (·.home.address σ s)).getD 0
  | field b _ | elem b _ | elemAt b _ | add b _ | sub b _ => b.start σ s
  | literal _ | missing => 0

/-- The sum of the field offsets, the constant offsets, and the constant
    subscripts times the sizes of their elements. -/
def displacement : Place → Int
  | field b f => b.displacement + (b.fieldOffset scope r f).toInt
  | elem b (.const e) => b.displacement + (e.constant r).toInt * (b.elemSize scope r).toInt
  | elem b _ | elemAt b _ => b.displacement
  | add b off => b.displacement + (off.constant r).toInt
  | sub b off => b.displacement - (off.constant r).toInt
  | name _ | literal _ | missing => 0

/-- The sum of the runtime subscripts times the sizes of their elements. -/
def indexing (σ : String → UInt16) (s : Cpu) : Place → Int
  | elem b (.const _) => b.indexing σ s
  | elem b i => b.indexing σ s + (i.value r s).toNat * (b.elemSize scope r).toInt
  | elemAt b p =>
    let inner := UInt16.ofInt ((p.start scope σ s).toNat + p.displacement scope r + p.indexing σ s)
    b.indexing σ s + (s.read (p.isByte scope r) inner).toNat * (b.elemSize scope r).toInt
  | field b _ | add b _ | sub b _ => b.indexing σ s
  | name _ | literal _ | missing => 0

/-- The sum of all terms, modulo `2 ^ 16`. -/
def location (σ : String → UInt16) (s : Cpu) (p : Place) : UInt16 :=
  UInt16.ofInt ((p.start scope σ s).toNat + p.displacement scope r + p.indexing scope r σ s)

end

/-- Is there a subscript on the path that is known at run time only? -/
def hasIndex : Place → Bool
  | elem b (.const _) => b.hasIndex
  | elem _ _ | elemAt _ _ => true
  | field b _ | add b _ | sub b _ => b.hasIndex
  | name _ | literal _ | missing => false

/-- Something is wrong with a step of the path, or with a step of a path in a
    subscript. -/
inductive IsFaulty (scope : Scope) (r : Resolver) : Place → Prop where
  | secondIndex {b i} (hi : ∀ e, i ≠ .const e) (h : b.hasIndex = true) :
      IsFaulty scope r (.elem b i)
  | secondStored {b p} (h : b.hasIndex = true) : IsFaulty scope r (.elemAt b p)
  | outOfRange {b e n t} (hn : e.eval r = .ok n) (ht : b.typeIn scope r = some t)
      (h : n < 0 ∨ t.len ≤ n) : IsFaulty scope r (.elem b (.const e))
  | notArray {b i t} (ht : b.typeIn scope r = some t) (h : t.isArray = false) :
      IsFaulty scope r (.elem b i)
  | notArrayStored {b p t} (ht : b.typeIn scope r = some t) (h : t.isArray = false) :
      IsFaulty scope r (.elemAt b p)
  | fieldOfArray {b f t} (ht : b.typeIn scope r = some t) (h : t.isArray = true) :
      IsFaulty scope r (.field b f)
  | inField {b f} (h : IsFaulty scope r b) : IsFaulty scope r (.field b f)
  | inElem {b i} (h : IsFaulty scope r b) : IsFaulty scope r (.elem b i)
  | inElemAt {b p} (h : IsFaulty scope r b) : IsFaulty scope r (.elemAt b p)
  | inSubscript {b p} (h : IsFaulty scope r p) : IsFaulty scope r (.elemAt b p)
  | inAdd {b off} (h : IsFaulty scope r b) : IsFaulty scope r (.add b off)
  | inSub {b off} (h : IsFaulty scope r b) : IsFaulty scope r (.sub b off)

end Place

/-! ## Steps of a path -/

namespace Path

variable {scope : Scope} {r : Resolver} {b : Place}

/-- The size of an element is known, and positive. -/
theorem elemSize_pos (hr : r.IsSized) {q : Path} {t : TypeRef} {size : Int64}
    (h : element r b q = .ok (t, size)) (htype : b.typeIn scope r = some q.type) :
    0 < b.elemSize scope r := by
  obtain ⟨-, -, hsize⟩ := element_eq_ok h
  rw [Resolver.sizeOf_elem] at hsize
  rw [elemSize_of_element h htype]
  exact hr.elemSize_pos hsize

end Path

namespace Place

variable {σ : String → UInt16} {scope : Scope} {r : Resolver}

/-! ## The sum -/

/-- A place whose terms sum to `k` more than those of another. -/
theorem location_eq_add {p b : Place} {s : Cpu} {k : Int}
    (hstart : p.start scope σ s = b.start scope σ s)
    (hsum : p.displacement scope r + p.indexing scope r σ s =
      b.displacement scope r + b.indexing scope r σ s + k) :
    p.location scope r σ s = b.location scope r σ s + UInt16.ofInt k := by
  rw [location, location, ← UInt16.ofInt_add, hstart]
  congr 1
  omega

/-- A runtime subscript adds its value times the size of an element. -/
theorem location_indexed {p b : Place} {s : Cpu} {v : UInt16} (hsize : 0 < b.elemSize scope r)
    (hstart : p.start scope σ s = b.start scope σ s)
    (hconst : p.displacement scope r = b.displacement scope r)
    (hindex : p.indexing scope r σ s =
      b.indexing scope r σ s + v.toNat * (b.elemSize scope r).toInt) :
    p.location scope r σ s =
      b.location scope r σ s + v * imm (stride (b.elemSize scope r)) := by
  have hstride : stride (b.elemSize scope r) = b.elemSize scope r := by
    rw [stride, if_neg]
    intro hzero
    rw [hzero] at hsize
    exact absurd hsize (by decide)
  rw [hstride, ← ofInt_toInt]
  have hv : v * UInt16.ofInt (b.elemSize scope r).toInt =
      UInt16.ofInt (v.toNat * (b.elemSize scope r).toInt) := by
    rw [UInt16.ofInt_mul, ofInt_toNat]
  rw [hv]
  exact location_eq_add hstart (by rw [hconst, hindex]; omega)

/-- The sum is what is reached from left to right.  Only runtime subscripts need
    elements of some size. -/
theorem location_eq_address_of_hasIndex {p : Place} (hr : p.hasIndex = true → r.IsSized)
    {path : Path} (h : Path.follow scope r p = .ok path) (s : Cpu) :
    p.location scope r σ s = p.address scope r σ s := by
  induction p generalizing path with
  | literal e => cases h
  | missing => cases h
  | name n => simp [location, start, displacement, indexing, address, ofInt_toNat]
  | field b f ih =>
    obtain ⟨q, fld, hb, -, -⟩ := Path.follow_field_eq_ok h
    rw [address, ← ih hr hb, ← ofInt_toInt]
    exact location_eq_add rfl (by simp only [displacement, indexing]; omega)
  | add b off ih =>
    obtain ⟨q, v, hb, -, -⟩ := Path.follow_add_eq_ok h
    rw [address, ← ih hr hb, ← ofInt_toInt]
    exact location_eq_add rfl (by simp only [displacement, indexing]; omega)
  | sub b off ih =>
    obtain ⟨q, v, hb, -, -⟩ := Path.follow_sub_eq_ok h
    rw [address, ← ih hr hb, ← ofInt_toInt, UInt16.sub_eq_add_neg, ← UInt16.ofInt_neg]
    exact location_eq_add rfl (by simp only [displacement, indexing]; omega)
  | elem b i ih =>
    obtain ⟨q, t, size, hb, helem, hcase⟩ := Path.follow_elem_eq_ok h
    obtain ⟨e, hfollows⟩ := Path.follows_of_follow (σ := σ) hb
    rcases hcase with ⟨c, rfl, -⟩ | ⟨hi, -, -⟩
    · rw [address, ← ih hr hb, ← ofInt_toInt, ← ofInt_toInt, ← UInt16.ofInt_mul]
      exact location_eq_add rfl (by simp only [displacement, indexing]; omega)
    · cases i with
      | const c => exact absurd rfl (hi c)
      | reg8 | reg16 | memHL | memIndexed | missing =>
        have hsize := Path.elemSize_pos (hr rfl) helem hfollows.type
        rw [address, ← ih (fun _ => hr rfl) hb]
        · exact location_indexed hsize rfl rfl rfl
        · exact hi
  | elemAt b inner ihb ihi =>
    obtain ⟨q, t, size, q', ix, hb, helem, -, hinner, -⟩ := Path.follow_elemAt_eq_ok h
    obtain ⟨e, hfollows⟩ := Path.follows_of_follow (σ := σ) hb
    have hsize := Path.elemSize_pos (hr rfl) helem hfollows.type
    rw [address, ← ihb (fun _ => hr rfl) hb, ← ihi (fun _ => hr rfl) hinner]
    exact location_indexed hsize rfl rfl rfl

theorem location_eq_address (hr : r.IsSized) {p : Place} {path : Path}
    (h : Path.follow scope r p = .ok path) (s : Cpu) :
    p.location scope r σ s = p.address scope r σ s :=
  location_eq_address_of_hasIndex (fun _ => hr) h s

/-! ## Faults -/

/-- A path has an index exactly where its place has one. -/
theorem isSome_index {p : Place} {path : Path} (h : Path.follow scope r p = .ok path) :
    path.index.isSome = p.hasIndex := by
  induction p generalizing path with
  | literal e => cases h
  | missing => cases h
  | name n =>
    obtain ⟨st, -, rfl⟩ := Path.follow_name_eq_ok h
    rcases st with ⟨_ | _ | _, t⟩ <;> rfl
  | field b f ih =>
    obtain ⟨q, fld, hb, -, rfl⟩ := Path.follow_field_eq_ok h
    rw [hasIndex, ← ih hb]
    exact congrArg Option.isSome (q.index_advance fld.offset)
  | add b off ih =>
    obtain ⟨q, v, hb, -, rfl⟩ := Path.follow_add_eq_ok h
    rw [hasIndex, ← ih hb, Path.index_advance]
  | sub b off ih =>
    obtain ⟨q, v, hb, -, rfl⟩ := Path.follow_sub_eq_ok h
    rw [hasIndex, ← ih hb, Path.index_advance]
  | elem b i ih =>
    obtain ⟨q, t, size, hb, -, hcase⟩ := Path.follow_elem_eq_ok h
    rcases hcase with ⟨c, rfl, hc⟩ | ⟨hi, -, ix, rfl, -⟩
    · obtain ⟨n, -, -, rfl⟩ := Path.atConst_eq_ok hc
      rw [hasIndex, ← ih hb]
      exact congrArg Option.isSome (q.index_advance (n * size))
    · cases i with
      | const c => exact absurd rfl (hi c)
      | reg8 | reg16 | memHL | memIndexed | missing => rfl
  | elemAt b inner ihb ihi =>
    obtain ⟨q, t, size, q', ix, -, -, -, -, rfl, -⟩ := Path.follow_elemAt_eq_ok h
    rfl

/-- Nothing is wrong with a place that can be followed. -/
theorem not_isFaulty_of_follow {p : Place} {path : Path} (h : Path.follow scope r p = .ok path) :
    ¬ p.IsFaulty scope r := by
  -- the type of a place is that of its path
  have htype : ∀ {b : Place} {q : Path} {t : TypeRef}, Path.follow scope r b = .ok q →
      b.typeIn scope r = some t → t = q.type := by
    intro b q t hb ht
    obtain ⟨e, hfollows⟩ := Path.follows_of_follow (σ := fun _ => 0) hb
    exact Option.some.inj (ht.symm.trans hfollows.type)
  intro hfaulty
  induction hfaulty generalizing path with
  | secondIndex hi hindex =>
    obtain ⟨q, t, size, hb, -, hcase⟩ := Path.follow_elem_eq_ok h
    rcases hcase with ⟨c, rfl, -⟩ | ⟨-, hnone, -⟩
    · exact hi c rfl
    · rw [← isSome_index hb, hnone] at hindex
      cases hindex
  | secondStored hindex =>
    obtain ⟨q, t, size, q', ix, hb, -, hnone, -, -⟩ := Path.follow_elemAt_eq_ok h
    rw [← isSome_index hb, hnone] at hindex
    cases hindex
  | outOfRange hn ht hrange =>
    obtain ⟨q, t, size, hb, -, hcase⟩ := Path.follow_elem_eq_ok h
    rcases hcase with ⟨c, hc, hat⟩ | ⟨hi, -⟩
    · cases hc
      obtain ⟨m, hm, hin, -⟩ := Path.atConst_eq_ok hat
      rw [hn] at hm
      cases hm
      rw [htype hb ht] at hrange
      exact hin hrange
    · exact hi _ rfl
  | notArray ht hnot =>
    obtain ⟨q, t, size, hb, helem, -⟩ := Path.follow_elem_eq_ok h
    rw [htype hb ht, (Path.element_eq_ok helem).1] at hnot
    cases hnot
  | notArrayStored ht hnot =>
    obtain ⟨q, t, size, q', ix, hb, helem, -⟩ := Path.follow_elemAt_eq_ok h
    rw [htype hb ht, (Path.element_eq_ok helem).1] at hnot
    cases hnot
  | fieldOfArray ht harr =>
    obtain ⟨q, fld, hb, hfld, -⟩ := Path.follow_field_eq_ok h
    rw [htype hb ht] at harr
    simp [Resolver.fieldOf, harr] at hfld
  | inField _ ih =>
    obtain ⟨q, fld, hb, -⟩ := Path.follow_field_eq_ok h
    exact ih hb
  | inElem _ ih =>
    obtain ⟨q, t, size, hb, -⟩ := Path.follow_elem_eq_ok h
    exact ih hb
  | inElemAt _ ih =>
    obtain ⟨q, t, size, q', ix, hb, -⟩ := Path.follow_elemAt_eq_ok h
    exact ih hb
  | inSubscript _ ih =>
    obtain ⟨q, t, size, q', ix, -, -, -, hinner, -⟩ := Path.follow_elemAt_eq_ok h
    exact ih hinner
  | inAdd _ ih =>
    obtain ⟨q, v, hb, -⟩ := Path.follow_add_eq_ok h
    exact ih hb
  | inSub _ ih =>
    obtain ⟨q, v, hb, -⟩ := Path.follow_sub_eq_ok h
    exact ih hb

end Place

/-! ## Resolved places -/

/-- An address that reaches a value denotes it, in a state whose cells are
    clear of the stack. -/
theorem Address.Reaches.denotes {σ : String → UInt16} {v : Cpu → UInt16}
    {cells : Cpu → List UInt16} {a : Address} (h : Reaches σ v cells a) {s : Cpu}
    (hclear : ∀ x ∈ cells s, x ∉ a.scratch σ s) : a.Denotes σ s (v s) := by
  cases a with
  | absolute sym off => exact h s
  | frame d => exact h s
  | computed steps =>
    obtain ⟨k, hk⟩ := h
    exact hk.leaves hclear

namespace Place

/-- Where types have positive sizes, a resolved place denotes the sum of its
    terms and has the type at the end of its path, as long as the code of the
    address does not overwrite the cells that are read.  A faulty place is
    never resolved. -/
theorem resolve_folds (scope : Scope) (r : Resolver) (p : Place) :
    (r.IsSized → ∀ x, p.resolve scope r = .ok x →
      p.typeIn scope r = some x.type ∧
      ∀ (σ : String → UInt16) (s : Cpu), (∀ y ∈ p.cells scope r σ s, y ∉ x.address.scratch σ s) →
        x.address.Denotes σ s (p.location scope r σ s)) ∧
    (p.IsFaulty scope r → ∃ err, p.resolve scope r = .error err) := by
  constructor
  · intro hr x hx
    refine ⟨(reaches_of_resolve (σ := fun _ => 0) hx).1, fun σ s hclear => ?_⟩
    obtain ⟨-, b, e, scale, hreach, hmeans⟩ := reaches_of_resolve (σ := σ) hx
    have hdenotes := hreach.denotes (s := s) fun y hy => hclear y ((hmeans s).2 y hy)
    unfold resolve at hx
    cases hpath : Path.follow scope r p with
    | error err =>
      rw [hpath] at hx
      cases hx
    | ok path =>
      rw [location_eq_address hr hpath, ← (hmeans s).1]
      exact hdenotes
  · intro hfaulty
    unfold resolve
    cases hpath : Path.follow scope r p with
    | error err => exact ⟨err, rfl⟩
    | ok path => exact absurd hfaulty (not_isFaulty_of_follow hpath)

/-- Cells of six bytes with a row of four in them, and points with two
    columns. -/
def gridResolver : Resolver where
  value? := fun _ => none
  layout? := fun name =>
    if name = "cell" then
      some { name := "cell", size := 6, fields := [⟨"row", 2, { name := "byte", len := 4 }⟩] }
    else if name = "point" then
      some { name := "point", size := 3, fields := [⟨"cols", 1, { name := "byte", len := 2 }⟩] }
    else none

/-- Four cells at a symbol, and a point whose address is in a frame slot. -/
def gridScope : Scope := fun name =>
  if name = "grid" then some ⟨.global "grid", { name := "cell", len := 4 }⟩
  else if name = "at" then some ⟨.ref (-6), { name := "point" }⟩
  else none

/-- `(grid+2)[at.cols[a]].row[2]-1` -/
def gridByte : Place :=
  .sub (.elem (.field (.elemAt (.add (.name "grid") (.number 2))
    (.elem (.field (.name "at") "cols") (.reg8 "A"))) "row") (.const (.number 2))) (.number 1)

theorem isSized_gridResolver : gridResolver.IsSized := by
  intro name l h
  simp only [gridResolver] at h
  split at h
  · cases h
    decide
  · split at h
    · cases h
      decide
    · cases h

/-- The slot holds `0xFBFA`; with two in `a` the subscript is the byte at
    `0xFBFD`, which is `0xFD`.  Behind `grid+2` there are `0xFD` cells of six
    bytes and then `2+2-1` bytes.  A second runtime subscript is refused. -/
theorem gridByte_folds : gridResolver.IsSized ∧
    (∃ x, gridByte.resolve gridScope gridResolver = .ok x ∧ x.type = { name := "byte" } ∧
      x.address.Denotes (fun _ => 0x4000) Address.rowCpu 0x45F3) ∧
    ∃ err, (elem (.field (elem (name "grid") (.reg8 "a")) "row") .memHL).resolve gridScope
      gridResolver = .error err := by
  have hx : gridByte.resolve gridScope gridResolver = .ok _ := rfl
  obtain ⟨-, hdenotes⟩ :=
    (resolve_folds gridScope gridResolver gridByte).1 isSized_gridResolver _ hx
  have hlocation : gridByte.location gridScope gridResolver (fun _ => 0x4000) Address.rowCpu =
      0x45F3 := by decide +kernel
  refine ⟨isSized_gridResolver, ⟨_, hx, rfl, ?_⟩, ?_⟩
  · rw [← hlocation]
    exact hdenotes (fun _ => 0x4000) Address.rowCpu (not_mem_of_all (by decide +kernel))
  · exact (resolve_folds gridScope gridResolver _).2 (.secondIndex nofun rfl)

end Place

end Z80Backend
