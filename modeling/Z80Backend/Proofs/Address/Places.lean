import Z80Backend.Proofs.Address.Effective
import Z80Backend.Proofs.Address.Steps

/-! # Typed places

    The meaning of a typed place, told from left to right and without the
    path that resolving it follows: the address of the storage it starts
    from, plus the offset of each field, plus each subscript times the size
    of an element, plus or minus each constant.

    Resolving keeps the constants before a runtime subscript apart from those
    behind it, and turns the value stored at an inner place into one of four
    kinds of index.  Whatever it does, it ends at the meaning.

    * `Place.address` and `Place.cells` are the meaning of a place and the
      cells consulted on the way.
    * `Path.Follows` says that a path has kept up with a place.
    * `reaches_of_resolve`: a resolved address reaches its place. -/

namespace Z80Backend

/-! ## Meaning -/

/-- Where storage begins. -/
def Home.address (σ : String → UInt16) (s : Cpu) : Home → UInt16
  | .global sym => symbolAddr σ sym
  | .frame d => s.ix + imm d
  | .ref d => s.wordAt (s.ix + imm d)

/-- The cells that tell where storage begins. -/
def Home.cells (s : Cpu) : Home → List UInt16
  | .ref d => cellsAt false (s.ix + imm d)
  | _ => []

/-- The type of what a storage name stands for.  A slot that holds an address
    stands for what is stored there. -/
def Storage.target (x : Storage) : TypeRef :=
  match x.home with
  | .ref _ => { x.type with isRef := false }
  | _ => x.type

/-- The value of a constant expression, and zero for any other. -/
def Expr.constant (r : Resolver) (e : Expr) : Int64 :=
  match e.eval r with
  | .ok n => n
  | .error _ => 0

namespace Subscript

/-- The value of a subscript. -/
def value (r : Resolver) (s : Cpu) : Subscript → UInt16
  | const e => imm (e.constant r)
  | reg8 reg => ((Reg8.ofName? (Text.lower reg)).map fun r => (s.byte r).toUInt16).getD 0
  | reg16 reg => s.named (Text.lower reg)
  | memHL => s.read true s.hl
  | memIndexed reg d => s.read true (s.indexReg (Text.lower reg) + imm (d.constant r))
  | missing => 0

/-- The cells that a subscript consults. -/
def cells (r : Resolver) (s : Cpu) : Subscript → List UInt16
  | memHL => cellsAt true s.hl
  | memIndexed reg d => cellsAt true (s.indexReg (Text.lower reg) + imm (d.constant r))
  | _ => []

end Subscript

/-- The distance between elements of a size.  Elements of no size are told
    apart by one byte. -/
def stride (size : Int64) : Int64 := if size = 0 then 1 else size

namespace Place

section

variable (scope : Scope) (r : Resolver)

/-- The type of what a place names. -/
def typeIn : Place → Option TypeRef
  | name n => (scope n).map Storage.target
  | field b f => (b.typeIn).bind fun t => (r.fieldOf t f).toOption.map (·.type)
  | elem b _ | elemAt b _ => b.typeIn.map TypeRef.elem
  | add b _ | sub b _ => b.typeIn
  | literal _ | missing => none

/-- How far a field is from the start of the record that a place names. -/
def fieldOffset (b : Place) (f : String) : Int64 :=
  (((b.typeIn scope r).bind fun t => (r.fieldOf t f).toOption).map (·.offset)).getD 0

/-- The size of the elements of the array that a place names. -/
def elemSize (b : Place) : Int64 :=
  ((b.typeIn scope r).bind fun t => (r.sizeOf t.elem).toOption).getD 0

/-- Is what a place names one byte? -/
def isByte (p : Place) : Bool :=
  ((p.typeIn scope r).bind fun t => (r.sizeOf t).toOption) == some 1

/-- The address that a place names.  Places that cannot be resolved have no
    address of their own. -/
def address (σ : String → UInt16) (s : Cpu) : Place → UInt16
  | name n => ((scope n).map (·.home.address σ s)).getD 0
  | field b f => b.address σ s + imm (b.fieldOffset scope r f)
  | elem b (.const e) => b.address σ s + imm (e.constant r) * imm (b.elemSize scope r)
  | elem b i => b.address σ s + i.value r s * imm (stride (b.elemSize scope r))
  | elemAt b p =>
    b.address σ s +
      s.read (p.isByte scope r) (p.address σ s) * imm (stride (b.elemSize scope r))
  | add b off => b.address σ s + imm (off.constant r)
  | sub b off => b.address σ s - imm (off.constant r)
  | literal _ | missing => 0

/-- The cells consulted on the way to the address. -/
def cells (σ : String → UInt16) (s : Cpu) : Place → List UInt16
  | name n => ((scope n).map (·.home.cells s)).getD []
  | field b _ | add b _ | sub b _ => b.cells σ s
  | elem b i => b.cells σ s ++ i.cells r s
  | elemAt b p =>
    b.cells σ s ++ (p.cells σ s ++ cellsAt (p.isByte scope r) (p.address scope r σ s))
  | literal _ | missing => []

end

/-- The width of what is found at a place is the size of its type. -/
theorem width_beq_one {scope : Scope} {r : Resolver} {p : Place} {x : Resolved}
    (htype : p.typeIn scope r = some x.type) (hwidth : x.width r ≠ 0) :
    (x.width r == 1) = p.isByte scope r := by
  unfold Resolved.width at hwidth ⊢
  unfold isByte
  rw [htype]
  by_cases harray : x.type.isArray = true
  · simp [harray] at hwidth
  · cases hsize : r.sizeOf x.type with
    | error err => simp [harray, hsize] at hwidth
    | ok n =>
      by_cases hn : 2 < n
      · simp [harray, hsize, hn] at hwidth
      · simp [harray, hn, hsize, Except.toOption]

end Place

/-! ## Paths -/

namespace Path

variable {σ : String → UInt16} {scope : Scope} {r : Resolver}

/-- The base of a path with the constants behind the index added to it. -/
def origin (p : Path) : Base := { p.base with offset := p.base.offset + p.post }

/-- An index that is known at run time only. -/
def IsRuntime (i : Index) : Prop := i ≠ .none ∧ ∀ n, i ≠ .const n

/-- The index of a path brings the value of `e`; without an index nothing was
    set aside to be added behind it. -/
def Indexes (σ : String → UInt16) (p : Path) (e : IndexTree) : Prop :=
  match p.index with
  | none => e = .none ∧ p.post = 0
  | some i => IsRuntime i ∧ ∀ c, Address.indexCode i = .ok c → ∃ k, Address.Fetches σ c e k

/-- A path that has kept up with a place. -/
structure Follows (σ : String → UInt16) (scope : Scope) (r : Resolver) (place : Place) (p : Path)
    (e : IndexTree) : Prop where
  type : place.typeIn scope r = some p.type
  index : p.Indexes σ e
  address : ∀ s, p.origin.address σ s + e.value σ s * imm (stride p.scale) =
    place.address scope r σ s
  cells : ∀ s, ∀ x ∈ p.origin.cells s ++ e.cells σ s, x ∈ place.cells scope r σ s

/-- Going on by a constant moves the origin. -/
theorem address_advance (p : Path) (k : Int64) (s : Cpu) :
    (p.advance k).origin.address σ s = p.origin.address σ s + imm k := by
  have hbase : ∀ (o : Origin) (m n : Int64),
      Base.address σ s ⟨o, m + n⟩ = Base.address σ s ⟨o, m⟩ + imm n := by
    intro o m n
    simp [Base.address, imm_add, UInt16.add_assoc]
  unfold advance
  cases hi : p.index with
  | none =>
    show Base.address σ s ⟨p.base.origin, p.base.offset + k + p.post⟩ = _
    rw [Int64.add_assoc, Int64.add_comm k, ← Int64.add_assoc, hbase]
    rfl
  | some i =>
    show Base.address σ s ⟨p.base.origin, p.base.offset + (p.post + k)⟩ = _
    rw [← Int64.add_assoc, hbase]
    rfl

theorem cells_advance (p : Path) (k : Int64) (s : Cpu) :
    (p.advance k).origin.cells s = p.origin.cells s := by
  unfold advance
  cases p.index <;> rfl

theorem scale_advance (p : Path) (k : Int64) : (p.advance k).scale = p.scale := by
  unfold advance
  cases p.index <;> rfl

theorem indexes_advance {p : Path} {e : IndexTree} (h : p.Indexes σ e) (k : Int64) :
    (p.advance k).Indexes σ e := by
  unfold Indexes at h ⊢
  unfold advance
  cases hi : p.index with
  | none =>
    rw [hi] at h
    simpa [hi] using h
  | some i =>
    rw [hi] at h
    simpa [hi] using h

/-- A path that goes on by a constant keeps up with a place that does. -/
theorem Follows.advance {place place' : Place} {p : Path} {e : IndexTree} {t : TypeRef}
    (h : Follows σ scope r place p e) (k : Int64) (htype : place'.typeIn scope r = some t)
    (haddr : ∀ s, place'.address scope r σ s = place.address scope r σ s + imm k)
    (hcells : ∀ s, ∀ x ∈ place.cells scope r σ s, x ∈ place'.cells scope r σ s) :
    Follows σ scope r place' { p.advance k with type := t } e where
  type := htype
  index := indexes_advance h.index k
  address s := by
    show (p.advance k).origin.address σ s + e.value σ s * imm (stride (p.advance k).scale) = _
    rw [address_advance, scale_advance, haddr, ← h.address s]
    grind
  cells s x hx := by
    apply hcells
    apply h.cells
    rw [← cells_advance p k]
    exact hx

/-- A path without an index takes one. -/
theorem Follows.atIndex {place place' : Place} {p : Path} {e e' : IndexTree} {t : TypeRef}
    {size : Int64} {i : Index} (h : Follows σ scope r place p e) (hnone : p.index = none)
    (hi : IsRuntime i) (hf : ∀ c, Address.indexCode i = .ok c → ∃ k, Address.Fetches σ c e' k)
    (htype : place'.typeIn scope r = some t)
    (haddr : ∀ s, place'.address scope r σ s =
      place.address scope r σ s + e'.value σ s * imm (stride size))
    (hcells : ∀ s, ∀ x ∈ place.cells scope r σ s ++ e'.cells σ s,
      x ∈ place'.cells scope r σ s) :
    Follows σ scope r place' (p.atIndex t size i) e' := by
  have hindex := h.index
  unfold Indexes at hindex
  rw [hnone] at hindex
  obtain ⟨rfl, hpost⟩ := hindex
  -- without an index the path is its base
  have hbase : ∀ s, p.origin.address σ s = place.address scope r σ s := by
    intro s
    have hs := h.address s
    simpa [IndexTree.value] using hs
  refine ⟨htype, ⟨hi, hf⟩, fun s => ?_, fun s x hx => ?_⟩
  · show p.origin.address σ s + e'.value σ s * imm (stride size) = _
    rw [hbase, haddr]
  · apply hcells
    rw [List.mem_append] at hx ⊢
    rcases hx with hx | hx
    · exact .inl (h.cells s x (List.mem_append_left _ hx))
    · exact .inr hx

/-! ## Ends of paths -/

/-- A runtime index always takes code. -/
theorem computed_of_indexedBy {b : Base} {i : Index} {scale : Int64} {a : Address}
    (h : Address.indexedBy b i scale = .ok a) : ∃ steps, a = .computed steps := by
  unfold Address.indexedBy at h
  split at h
  · unfold Address.fromReg at h
    split at h
    · cases h
    · split at h
      · cases h
      · cases h
        exact ⟨_, rfl⟩
  · split at h
    · cases h
    · split at h
      · cases h
      · cases h
        exact ⟨_, rfl⟩

theorem build_of_isRuntime {b : Base} {i : Index} (hi : IsRuntime i) {scale : Int64} {a : Address}
    (h : Address.build b i scale = .ok a) : 0 < scale ∧ Address.indexedBy b i scale = .ok a := by
  unfold Address.build at h
  split at h
  · cases h
  rename_i hscale
  refine ⟨Int64.not_le.1 hscale, ?_⟩
  cases i with
  | none => exact absurd rfl hi.1
  | const n => exact absurd rfl (hi.2 n)
  | reg8 | reg16 | global | slot | memHL | memIndexed | stored | unknown => exact h

/-- The end of a path that has kept up with its place. -/
theorem Follows.reaches {place : Place} {p : Path} {e : IndexTree} {x : Resolved}
    (h : Follows σ scope r place p e) (hx : p.finish = .ok x) :
    x.type = p.type ∧ Address.Reaches σ
      (fun s => p.origin.address σ s + e.value σ s * imm (stride p.scale))
      (fun s => p.origin.cells s ++ e.cells σ s) x.address := by
  have hindex := h.index
  unfold Indexes at hindex
  unfold finish at hx
  cases ha : Address.build p.base (p.index.getD .none) (if p.scale = 0 then 1 else p.scale) with
  | error err =>
    rw [ha] at hx
    cases hx
  | ok a =>
    rw [ha] at hx
    cases hx
    refine ⟨rfl, ?_⟩
    show Address.Reaches σ _ _ (thenAdd a p.post)
    cases hi : p.index with
    | none =>
      rw [hi] at ha hindex
      obtain ⟨rfl, hpost⟩ := hindex
      have hreach : Address.Reaches σ (fun s => p.base.address σ s + (IndexTree.none).value σ s *
          imm (stride p.scale)) (fun s => p.base.cells s ++ (IndexTree.none).cells σ s) a :=
        Address.reaches_build rfl (fun c hc => Address.fetches_of_indexCode rfl hc) ha
      have horigin : p.origin = p.base := by simp [origin, hpost]
      have hsame : thenAdd a p.post = a := by
        cases a <;> simp [thenAdd, hpost, Address.addOffset]
      rw [horigin, hsame]
      exact hreach
    | some i =>
      rw [hi] at ha hindex
      obtain ⟨hscale, hby⟩ := build_of_isRuntime hindex.1 ha
      obtain ⟨steps, rfl⟩ := computed_of_indexedBy hby
      obtain ⟨k, hk⟩ : Address.Reaches σ
          (fun s => p.base.address σ s + e.value σ s * imm (stride p.scale))
          (fun s => p.base.cells s ++ e.cells σ s) (.computed steps) :=
        Address.reaches_indexedBy hindex.2 hscale hby
      -- what was set aside is added behind the index
      have hsum : ∀ s, p.origin.address σ s + e.value σ s * imm (stride p.scale) =
          p.base.address σ s + e.value σ s * imm (stride p.scale) + imm p.post := by
        intro s
        have horigin : p.origin.address σ s = p.base.address σ s + imm p.post := by
          simp [origin, Base.address, imm_add, UInt16.add_assoc]
        rw [horigin]
        grind
      simp only [hsum]
      exact ⟨k, hk.offset p.post⟩

/-! ## Indexes -/

/-- A runtime subscript is an index of the same value. -/
theorem exists_of_subscript {i : Subscript} (hi : ∀ e, i ≠ .const e) {ix : Index}
    (h : Index.ofSubscript r i = .ok ix) :
    ∃ e : IndexTree, e.index = .ok ix ∧ IsRuntime ix ∧
      ∀ s, e.value σ s = i.value r s ∧ e.cells σ s = i.cells r s := by
  cases i with
  | const e => exact absurd rfl (hi e)
  | missing => cases h
  | reg8 reg =>
    cases h
    exact ⟨.reg8 (Text.lower reg), rfl, ⟨by simp, by simp⟩, fun s => ⟨rfl, rfl⟩⟩
  | reg16 reg =>
    cases h
    exact ⟨.reg16 (Text.lower reg), rfl, ⟨by simp, by simp⟩, fun s => ⟨rfl, rfl⟩⟩
  | memHL =>
    cases h
    exact ⟨.memHL, rfl, ⟨by simp, by simp⟩, fun s => ⟨rfl, rfl⟩⟩
  | memIndexed reg d =>
    simp only [Index.ofSubscript] at h
    split at h
    · rename_i v hd
      have hv : d.constant r = v := by simp [Expr.constant, hd]
      split at h
      · cases h
        refine ⟨.memIndexed (Text.lower reg) v, rfl, ⟨by simp, by simp⟩, fun s => ?_⟩
        simp [IndexTree.value, IndexTree.cells, Subscript.value, Subscript.cells, hv]
      · cases h
    · cases h

/-- The scalar stored at an inner place is an index, of whichever kind it
    becomes. -/
theorem exists_of_stored {place : Place} {q : Path} {e : IndexTree} {x : Resolved} {ix : Index}
    (hq : Follows σ scope r place q e) (hx : q.finish = .ok x)
    (h : Index.ofStored r place x = .ok ix) :
    ∃ e' : IndexTree, IsRuntime ix ∧
      (∀ c, Address.indexCode ix = .ok c → ∃ k, Address.Fetches σ c e' k) ∧
      ∀ s, e'.value σ s = s.read (place.isByte scope r) (place.address scope r σ s) ∧
        ∀ y ∈ e'.cells σ s, y ∈ place.cells scope r σ s ++
          cellsAt (place.isByte scope r) (place.address scope r σ s) := by
  obtain ⟨htype, hreach⟩ := hq.reaches hx
  unfold Index.ofStored at h
  dsimp only at h
  split at h
  · cases h
  rename_i hwidth
  rw [Place.width_beq_one (by rw [hq.type, htype]) hwidth] at h
  -- an index that keeps the inner address as it is
  have hstored : ∃ e' : IndexTree, IsRuntime (.stored x.address (place.isByte scope r)) ∧
      (∀ c, Address.indexCode (.stored x.address (place.isByte scope r)) = .ok c →
        ∃ k, Address.Fetches σ c e' k) ∧
      ∀ s, e'.value σ s = s.read (place.isByte scope r) (place.address scope r σ s) ∧
        ∀ y ∈ e'.cells σ s, y ∈ place.cells scope r σ s ++
          cellsAt (place.isByte scope r) (place.address scope r σ s) := by
    refine ⟨.element q.origin e (stride q.scale) (place.isByte scope r), ⟨by simp, by simp⟩,
      fun c hc => hreach.fetches hc, fun s => ⟨?_, fun y hy => ?_⟩⟩
    · simp only [IndexTree.value, hq.address s]
    · simp only [IndexTree.cells, hq.address s] at hy
      rw [List.mem_append] at hy ⊢
      rcases hy with hy | hy
      · exact .inl (hq.cells s y hy)
      · exact .inr hy
  cases ha : x.address with
  | absolute sym off =>
    rw [ha] at h hreach hstored
    have haddr : ∀ s, symbolAddr σ sym + imm off = place.address scope r σ s := by
      intro s
      rw [← hq.address s]
      exact hreach s
    simp only at h
    split at h
    · cases h
      exact hstored
    · cases h
      refine ⟨.global sym off (place.isByte scope r), ⟨by simp, by simp⟩,
        fun c hc => ⟨0, Address.fetches_global hc⟩, fun s => ⟨?_, fun y hy => ?_⟩⟩
      · simp only [IndexTree.value, haddr s]
      · simp only [IndexTree.cells, haddr s] at hy
        exact List.mem_append_right _ hy
  | frame d =>
    rw [ha] at h hreach hstored
    have haddr : ∀ s : Cpu, s.ix + imm d = place.address scope r σ s := by
      intro s
      rw [← hq.address s]
      exact hreach s
    simp only at h
    split at h
    · cases h
      refine ⟨.slot d (place.isByte scope r), ⟨by simp, by simp⟩,
        fun c hc => ⟨0, Address.fetches_slot hc⟩, fun s => ⟨?_, fun y hy => ?_⟩⟩
      · simp only [IndexTree.value, haddr s]
      · simp only [IndexTree.cells, haddr s] at hy
        exact List.mem_append_right _ hy
    · cases h
      exact hstored
  | computed steps =>
    rw [ha] at h hstored
    cases h
    exact hstored

/-! ## Following a place -/

theorem follows_ofStorage {n : String} {st : Storage} (h : scope n = some st) :
    Follows σ scope r (.name n) (ofStorage st) .none := by
  obtain ⟨home, t⟩ := st
  have htype : (Place.name n).typeIn scope r = some (Storage.target ⟨home, t⟩) := by
    show (scope n).map Storage.target = _
    rw [h]
    rfl
  have haddr : ∀ s, (Place.name n).address scope r σ s = home.address σ s := by
    intro s
    show ((scope n).map (·.home.address σ s)).getD 0 = _
    rw [h]
    rfl
  have hcells : ∀ s, (Place.name n).cells scope r σ s = home.cells s := by
    intro s
    show ((scope n).map (·.home.cells s)).getD [] = _
    rw [h]
    rfl
  cases home with
  | global sym =>
    refine ⟨htype, ⟨rfl, rfl⟩, fun s => ?_, fun s x hx => ?_⟩
    · simp [origin, ofStorage, Base.address, IndexTree.value, haddr, Home.address]
    · simp [origin, ofStorage, Base.cells, IndexTree.cells] at hx
  | frame d =>
    refine ⟨htype, ⟨rfl, rfl⟩, fun s => ?_, fun s x hx => ?_⟩
    · simp [origin, ofStorage, Base.address, IndexTree.value, haddr, Home.address]
    · simp [origin, ofStorage, Base.cells, IndexTree.cells] at hx
  | ref d =>
    refine ⟨htype, ⟨rfl, rfl⟩, fun s => ?_, fun s x hx => ?_⟩
    · simp [origin, ofStorage, Base.address, IndexTree.value, haddr, Home.address]
    · simpa [origin, ofStorage, Base.cells, IndexTree.cells, hcells, Home.cells] using hx

/-- The element type and size that a path goes on with. -/
theorem element_eq_ok {b : Place} {p : Path} {t : TypeRef} {size : Int64}
    (h : element r b p = .ok (t, size)) :
    p.type.isArray = true ∧ t = p.type.elem ∧ r.sizeOf p.type.elem = .ok size := by
  unfold element at h
  split at h
  · cases h
  rename_i harray
  split at h
  · cases h
  rename_i hsize
  cases h
  exact ⟨by simpa using harray, rfl, hsize⟩

/-- They are those of the place. -/
theorem elemSize_of_element {b : Place} {p : Path} {t : TypeRef} {size : Int64}
    (h : element r b p = .ok (t, size)) (htype : b.typeIn scope r = some p.type) :
    b.elemSize scope r = size := by
  obtain ⟨-, -, hsize⟩ := element_eq_ok h
  simp [Place.elemSize, htype, hsize, Except.toOption]

theorem type_advance (p : Path) (k : Int64) : (p.advance k).type = p.type := by
  unfold Path.advance
  cases p.index <;> rfl

section

variable {b : Place} {q : Path} {e : IndexTree} (hq : Follows σ scope r b q e)

include hq

/-- A field is a constant number of bytes further on. -/
theorem Follows.field {f : String} {fld : Field} (h : r.fieldOf q.type f = .ok fld) :
    Follows σ scope r (.field b f) { q.advance fld.offset with type := fld.type } e := by
  refine hq.advance fld.offset ?_ (fun s => ?_) fun s x hx => hx
  · show (b.typeIn scope r).bind (fun t => (r.fieldOf t f).toOption.map (·.type)) = _
    simp [hq.type, h, Except.toOption]
  · show b.address scope r σ s + imm (b.fieldOffset scope r f) = _
    simp [Place.fieldOffset, hq.type, h, Except.toOption]

theorem Follows.add {off : Expr} {v : Int64} (h : off.eval r = .ok v) :
    Follows σ scope r (.add b off) (q.advance v) e := by
  refine hq.advance v (t := (q.advance v).type) ?_ (fun s => ?_) fun s x hx => hx
  · rw [type_advance]
    exact hq.type
  · show b.address scope r σ s + imm (off.constant r) = _
    simp [Expr.constant, h]

theorem Follows.sub {off : Expr} {v : Int64} (h : off.eval r = .ok v) :
    Follows σ scope r (.sub b off) (q.advance (-v)) e := by
  have hneg : imm (-v) = -imm v := UInt64.toUInt16_neg _
  refine hq.advance (-v) (t := (q.advance (-v)).type) ?_ (fun s => ?_) fun s x hx => hx
  · rw [type_advance]
    exact hq.type
  · show b.address scope r σ s - imm (off.constant r) = _
    simp [Expr.constant, h, hneg, UInt16.sub_eq_add_neg]

/-- A constant subscript is a constant number of bytes. -/
theorem Follows.elemConst {whole : Place} {p : Path} {size : Int64}
    (hsize : b.elemSize scope r = size) {c : Expr}
    (h : atConst r whole q q.type.elem size c = .ok p) :
    Follows σ scope r (.elem b (.const c)) p e := by
  obtain ⟨n, hc, -, rfl⟩ := atConst_eq_ok h
  refine hq.advance (n * size) ?_ (fun s => ?_) fun s x hx => List.mem_append_left _ hx
  · show (b.typeIn scope r).map TypeRef.elem = _
    rw [hq.type]
    rfl
  · show b.address scope r σ s + imm (c.constant r) * imm (b.elemSize scope r) = _
    simp [Expr.constant, hc, hsize, imm_mul]

/-- A runtime subscript becomes the index. -/
theorem Follows.elem (hnone : q.index = none) {size : Int64} (hsize : b.elemSize scope r = size)
    {i : Subscript} (hi : ∀ c, i ≠ .const c) {ix : Index} (h : Index.ofSubscript r i = .ok ix) :
    ∃ e', Follows σ scope r (.elem b i) (q.atIndex q.type.elem size ix) e' := by
  obtain ⟨e', hindex, hrun, hmeans⟩ := exists_of_subscript (σ := σ) hi h
  refine ⟨e', hq.atIndex hnone hrun (fun c hc => Address.fetches_of_indexCode hindex hc) ?_
    (fun s => ?_) fun s x hx => ?_⟩
  · show (b.typeIn scope r).map TypeRef.elem = _
    rw [hq.type]
    rfl
  · rw [(hmeans s).1, ← hsize]
    cases i with
    | const c => exact absurd rfl (hi c)
    | reg8 | reg16 | memHL | memIndexed | missing => rfl
  · rw [(hmeans s).2] at hx
    exact hx

/-- The scalar at an inner place becomes the index. -/
theorem Follows.elemAt {inner : Place} {q' : Path} {e' : IndexTree} (hnone : q.index = none)
    {size : Int64} (hsize : b.elemSize scope r = size) (hq' : Follows σ scope r inner q' e')
    {x : Resolved} (hx : q'.finish = .ok x) {ix : Index} (h : Index.ofStored r inner x = .ok ix) :
    ∃ e'', Follows σ scope r (.elemAt b inner) (q.atIndex q.type.elem size ix) e'' := by
  obtain ⟨e'', hrun, hf, hmeans⟩ := exists_of_stored hq' hx h
  refine ⟨e'', hq.atIndex hnone hrun hf ?_ (fun s => ?_) fun s y hy => ?_⟩
  · show (b.typeIn scope r).map TypeRef.elem = _
    rw [hq.type]
    rfl
  · rw [(hmeans s).1, ← hsize]
    rfl
  · rw [List.mem_append] at hy
    rcases hy with hy | hy
    · exact List.mem_append_left _ hy
    · exact List.mem_append_right _ ((hmeans s).2 y hy)

end

/-- A path keeps up with its place, by induction on the place. -/
theorem follows_of_follow {place : Place} {p : Path} (h : follow scope r place = .ok p) :
    ∃ e, Follows σ scope r place p e := by
  induction place generalizing p with
  | literal e => cases h
  | missing => cases h
  | name n =>
    obtain ⟨st, hn, rfl⟩ := follow_name_eq_ok h
    exact ⟨.none, follows_ofStorage hn⟩
  | field b f ih =>
    obtain ⟨q, fld, hb, hfld, rfl⟩ := follow_field_eq_ok h
    obtain ⟨e, hq⟩ := ih hb
    exact ⟨e, hq.field hfld⟩
  | add b off ih =>
    obtain ⟨q, v, hb, hoff, rfl⟩ := follow_add_eq_ok h
    obtain ⟨e, hq⟩ := ih hb
    exact ⟨e, hq.add hoff⟩
  | sub b off ih =>
    obtain ⟨q, v, hb, hoff, rfl⟩ := follow_sub_eq_ok h
    obtain ⟨e, hq⟩ := ih hb
    exact ⟨e, hq.sub hoff⟩
  | elem b i ih =>
    obtain ⟨q, t, size, hb, helem, hcase⟩ := follow_elem_eq_ok h
    obtain ⟨e, hq⟩ := ih hb
    have hsize := elemSize_of_element helem hq.type
    obtain ⟨-, rfl, -⟩ := element_eq_ok helem
    rcases hcase with ⟨c, rfl, hat⟩ | ⟨hi, hnone, ix, rfl, hix⟩
    · exact ⟨e, hq.elemConst hsize hat⟩
    · exact hq.elem hnone hsize hi hix
  | elemAt b inner ihb ihi =>
    obtain ⟨q, t, size, q', ix, hb, helem, hnone, hinner, rfl, x, hx, hix⟩ := follow_elemAt_eq_ok h
    obtain ⟨e, hq⟩ := ihb hb
    obtain ⟨e', hq'⟩ := ihi hinner
    have hsize := elemSize_of_element helem hq.type
    obtain ⟨-, rfl, -⟩ := element_eq_ok helem
    exact hq.elemAt hnone hsize hq' hx hix

end Path

/-- A resolved address is the base plus the index times the scale of some
    address expression, which reaches the place. -/
theorem Place.reaches_of_resolve {σ : String → UInt16} {scope : Scope} {r : Resolver} {p : Place}
    {x : Resolved} (h : p.resolve scope r = .ok x) :
    p.typeIn scope r = some x.type ∧ ∃ (b : Base) (e : IndexTree) (scale : Int64),
      Address.Reaches σ (fun s => b.address σ s + e.value σ s * imm scale)
        (fun s => b.cells s ++ e.cells σ s) x.address ∧
      ∀ s, b.address σ s + e.value σ s * imm scale = p.address scope r σ s ∧
        ∀ y ∈ b.cells s ++ e.cells σ s, y ∈ p.cells scope r σ s := by
  unfold resolve at h
  cases hp : Path.follow scope r p with
  | error err =>
    rw [hp] at h
    cases h
  | ok path =>
    rw [hp] at h
    obtain ⟨e, hfollows⟩ := Path.follows_of_follow (σ := σ) hp
    obtain ⟨htype, hreach⟩ := hfollows.reaches h
    refine ⟨by rw [hfollows.type, htype], path.origin, e, stride path.scale, hreach, fun s => ?_⟩
    exact ⟨hfollows.address s, hfollows.cells s⟩

end Z80Backend
