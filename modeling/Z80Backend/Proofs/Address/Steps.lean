import Z80Backend.Address.Access
import Z80Backend.Address.Resolve

/-! # What address code is made of

    Address code uses few kinds of steps: it leaves `af` alone, fetches single
    bytes through registers only, and every symbol in it is the symbol of a
    piece of storage that the place starts from.  This is said once, by
    `Step.Within`, so that facts about all address code need one look at each
    kind of step.

    * `Address.within_build`: an address is within the symbols that it is built
      from.
    * `Place.within_of_resolve`: the address of a place is within the symbols
      of its storage. -/

namespace Z80Backend

/-! ## Pieces of an address -/

namespace Address

theorem forall_mem_doubleAndAdd {P : Step → Prop} (hadd : ∀ x, P (.addHL x)) (n k : Nat) :
    ∀ t ∈ doubleAndAdd n k, P t := by
  induction k with
  | zero => exact List.forall_mem_nil _
  | succ k ih =>
    unfold doubleAndAdd
    split <;> simpa [hadd] using ih

/-- Scaling adds pairs to `hl`, after a copy of it to `de` that may be kept. -/
theorem forall_mem_scaleHL {P : Step → Prop} (hadd : ∀ x, P (.addHL x))
    (hcopy : ∀ dst src, P (.ldReg dst src)) (hpush : P (.push .de)) (hpop : P (.pop .de))
    (scale : Int64) (keepDE : Bool) : ∀ t ∈ scaleHL scale keepDE, P t := by
  have hbody := forall_mem_doubleAndAdd hadd scale.toInt.toNat scale.toInt.toNat.log2
  unfold scaleHL
  dsimp only
  split
  · exact List.forall_mem_nil _
  split
  · intro t ht
    obtain rfl := List.eq_of_mem_replicate ht
    exact hadd .hl
  split <;> simpa [hcopy, hpush, hpop, or_imp, forall_and] using hbody

/-- An index is joined with a pair that waits on the stack, or with the code of
    a base. -/
theorem indexedBy_eq_ok {b : Base} {i : Index} {scale : Int64} {a : Address}
    (h : indexedBy b i scale = .ok a) : ∃ c, indexCode i = .ok c ∧
      ((∃ name r, b.origin = .reg name ∧ WordReg.ofName? name = some r ∧
          a = .computed ([.push r.onStack] ++ c.steps ++ scaleHL scale false ++
            addOffset b.offset ++ [.pop .de, .addHL .de])) ∨
        ∃ d, baseCode b = .ok d ∧ a = .computed (join c d scale)) := by
  unfold indexedBy at h
  split at h
  · rename_i name horigin
    unfold fromReg at h
    split at h
    · cases h
    rename_i r hr
    split at h
    · cases h
    rename_i c hc
    cases h
    exact ⟨c, hc, .inl ⟨name, r, horigin, hr, rfl⟩⟩
  · split at h
    · cases h
    rename_i c hc
    split at h
    · cases h
    rename_i d hd
    cases h
    exact ⟨c, hc, .inr ⟨d, hd, rfl⟩⟩

/-- A constant index is part of a displacement, or an index like any other. -/
theorem atConst_eq_ok {b : Base} {off : Int64} {a : Address} (h : atConst b off = .ok a) :
    (∃ d, a = .frame d) ∨ indexedBy b (.const off) 1 = .ok a := by
  unfold atConst at h
  split at h
  · split at h
    · cases h
      exact .inl ⟨_, rfl⟩
    · exact .inr h
  · exact .inr h

end Address

/-! ## Steps -/

/-- Memory that a register points to. -/
def MemRef.IsNear : MemRef → Prop
  | hl | indexed .. => True
  | symbol .. | address _ => False

/-- Memory at an address, or at a symbol in `S`. -/
def MemRef.IsFar (S : String → Prop) : MemRef → Prop
  | symbol s _ => S s
  | address _ => True
  | hl | indexed .. => False

@[simp] theorem MemRef.isNear_hl : MemRef.hl.IsNear := trivial

@[simp] theorem MemRef.isNear_slot (d : Int64) : (MemRef.slot d).IsNear := trivial

namespace Step

/-- A step of address code whose symbols are in `S`. -/
@[simp] def Within (S : String → Prop) : Step → Prop
  | push r | pop r => r ≠ .af
  | loadByte dst m => dst ≠ .a ∧ m.IsNear
  | loadWord _ m => m.IsFar S
  | ldSym _ s _ => S s
  | ldReg .. | ldByte .. | ldWord .. | exDEHL | addHL _ | inc _ => True
  | storeByte .. | storeWord .. => False

/-- Steps of address code whose symbols are in `S`. -/
def AllWithin (S : String → Prop) (steps : List Step) : Prop := ∀ t ∈ steps, t.Within S

variable {S : String → Prop}

@[simp] theorem allWithin_nil : AllWithin S [] := by simp [AllWithin]

@[simp] theorem allWithin_cons {t : Step} {ts : List Step} :
    AllWithin S (t :: ts) ↔ t.Within S ∧ AllWithin S ts := by
  simp [AllWithin]

@[simp] theorem allWithin_append {ts us : List Step} :
    AllWithin S (ts ++ us) ↔ AllWithin S ts ∧ AllWithin S us := by
  simp [AllWithin, or_imp, forall_and]

end Step

/-! ## Addresses -/

/-- The symbol of the base is in `S`. -/
def Base.Within (S : String → Prop) (b : Base) : Prop := ∀ s, b.origin = .global s → S s

/-- The symbols of an address and of the code that computes it are in `S`. -/
def Address.Within (S : String → Prop) : Address → Prop
  | absolute s _ => S s
  | frame _ => True
  | computed steps => Step.AllWithin S steps

/-- The symbols of an index are in `S`. -/
def Index.Within (S : String → Prop) : Index → Prop
  | global s _ _ => S s
  | stored a _ => a.Within S
  | _ => True

namespace Address

variable {S : String → Prop}

@[simp] theorem allWithin_framePointer (d : Int64) : Step.AllWithin S (framePointer d) := by
  simp [framePointer]

@[simp] theorem allWithin_addOffset (off : Int64) : Step.AllWithin S (addOffset off) := by
  unfold addOffset
  split <;> simp

theorem allWithin_toHL {a : Address} (h : a.Within S) : Step.AllWithin S a.toHL := by
  cases a with
  | absolute s off =>
    have hs : S s := h
    rw [toHL]
    split <;> simp [hs]
  | frame d => exact allWithin_framePointer d
  | computed steps => exact h

@[simp] theorem allWithin_scaleHL (scale : Int64) (keepDE : Bool) :
    Step.AllWithin S (scaleHL scale keepDE) :=
  forall_mem_scaleHL (fun _ => trivial) (fun _ _ => trivial) (by simp) (by simp) scale keepDE

theorem allWithin_baseCode {b : Base} {c : BaseCode} (hb : b.Within S) (h : baseCode b = .ok c) :
    Step.AllWithin S c.steps := by
  unfold baseCode at h
  split at h
  · rename_i s horigin
    cases h
    simp [hb s horigin]
  · split at h
    · cases h
    dsimp only at h
    split at h <;> cases h <;> simp
  · cases h
    simp
  · cases h
  · cases h

theorem allWithin_indexCode {i : Index} {c : IndexCode} (hi : i.Within S)
    (h : indexCode i = .ok c) : Step.AllWithin S c.steps := by
  have hreg : ∀ r, Step.AllWithin S (regCode r).steps := by
    intro r
    cases r <;> simp [regCode]
  unfold indexCode at h
  split at h
  case h_2 =>
    split at h
    · cases h
      exact hreg _
    · cases h
  case h_9 s off isByte =>
    have hs : S s := hi
    cases h
    cases isByte <;> simp [MemRef.IsFar, hs]
  case h_11 =>
    split at h <;> cases h
    simp
  case h_13 reg d =>
    cases h
    simp [MemRef.IsNear]
  case h_14 a isByte =>
    cases h
    have ha := allWithin_toHL (a := a) hi
    cases isByte <;> simpa using ha
  all_goals cases h <;> simp

theorem within_ofBase {b : Base} {a : Address} (hb : b.Within S) (h : ofBase b = .ok a) :
    a.Within S := by
  unfold ofBase at h
  split at h
  · rename_i s horigin
    cases h
    exact hb s horigin
  · split at h <;> cases h
    · trivial
    · exact allWithin_framePointer _
  · split at h <;> cases h
    simp [Within]
  · split at h <;> cases h <;> simp [Within]
  · cases h

theorem within_indexedBy {b : Base} {i : Index} {scale : Int64} {a : Address} (hb : b.Within S)
    (hi : i.Within S) (h : indexedBy b i scale = .ok a) : a.Within S := by
  obtain ⟨c, hc, ⟨name, r, -, -, rfl⟩ | ⟨d, hd, rfl⟩⟩ := indexedBy_eq_ok h
  · have hpair : r.onStack ≠ .af := by cases r <;> decide
    simpa [Within, hpair] using allWithin_indexCode hi hc
  · have hindex := allWithin_indexCode hi hc
    have hbase := allWithin_baseCode hb hd
    show Step.AllWithin S (join c d scale)
    unfold join
    split <;> simp [hindex, hbase]

/-- An address is within the symbols that it is built from. -/
theorem within_build {b : Base} {i : Index} {scale : Int64} {a : Address} (hb : b.Within S)
    (hi : i.Within S) (h : build b i scale = .ok a) : a.Within S := by
  unfold build at h
  split at h
  · cases h
  split at h
  · exact within_ofBase hb h
  · rcases atConst_eq_ok h with ⟨d, rfl⟩ | h
    · trivial
    · exact within_indexedBy hb (i := .const _) trivial h
  · exact within_indexedBy hb hi h

end Address

/-! ## Steps of a path -/

namespace Path

variable {scope : Scope} {r : Resolver} {b inner : Place} {p : Path}

theorem follow_name_eq_ok {n : String} (h : follow scope r (.name n) = .ok p) :
    ∃ st, scope n = some st ∧ p = ofStorage st := by
  unfold follow at h
  split at h
  · rename_i st hn
    cases h
    exact ⟨st, hn, rfl⟩
  · cases h

theorem follow_field_eq_ok {f : String} (h : follow scope r (.field b f) = .ok p) :
    ∃ q fld, follow scope r b = .ok q ∧ r.fieldOf q.type f = .ok fld ∧
      p = { q.advance fld.offset with type := fld.type } := by
  unfold follow at h
  split at h
  · cases h
  rename_i q hb
  split at h
  · cases h
  rename_i fld hfld
  cases h
  exact ⟨q, fld, hb, hfld, rfl⟩

theorem follow_add_eq_ok {off : Expr} (h : follow scope r (.add b off) = .ok p) :
    ∃ q v, follow scope r b = .ok q ∧ off.eval r = .ok v ∧ p = q.advance v := by
  unfold follow at h
  split at h
  · cases h
  rename_i q hb
  split at h
  · cases h
  rename_i v hoff
  cases h
  exact ⟨q, v, hb, hoff, rfl⟩

theorem follow_sub_eq_ok {off : Expr} (h : follow scope r (.sub b off) = .ok p) :
    ∃ q v, follow scope r b = .ok q ∧ off.eval r = .ok v ∧ p = q.advance (-v) := by
  unfold follow at h
  split at h
  · cases h
  rename_i q hb
  split at h
  · cases h
  rename_i v hoff
  cases h
  exact ⟨q, v, hb, hoff, rfl⟩

/-- A constant subscript, or the first one that is known at run time only. -/
theorem follow_elem_eq_ok {i : Subscript} (h : follow scope r (.elem b i) = .ok p) :
    ∃ q t size, follow scope r b = .ok q ∧ element r b q = .ok (t, size) ∧
      ((∃ e, i = .const e ∧ atConst r (.elem b i) q t size e = .ok p) ∨
        ((∀ e, i ≠ .const e) ∧ q.index = none ∧
          ∃ ix, p = q.atIndex t size ix ∧ Index.ofSubscript r i = .ok ix)) := by
  unfold follow at h
  split at h
  · cases h
  rename_i q hb
  split at h
  · cases h
  rename_i t size helem
  refine ⟨q, t, size, hb, helem, ?_⟩
  split at h
  · rename_i e
    exact .inl ⟨e, rfl, h⟩
  · rename_i hi
    split at h
    · cases h
    rename_i hnone
    split at h
    · cases h
    rename_i ix hix
    cases h
    exact .inr ⟨hi, by simpa using hnone, ix, rfl, hix⟩

theorem follow_elemAt_eq_ok (h : follow scope r (.elemAt b inner) = .ok p) :
    ∃ q t size q' ix, follow scope r b = .ok q ∧ element r b q = .ok (t, size) ∧
      q.index = none ∧ follow scope r inner = .ok q' ∧ p = q.atIndex t size ix ∧
      ∃ x, q'.finish = .ok x ∧ Index.ofStored r inner x = .ok ix := by
  unfold follow at h
  split at h
  · cases h
  rename_i q hb
  split at h
  · cases h
  rename_i t size helem
  split at h
  · cases h
  rename_i hnone
  split at h
  · cases h
  rename_i q' hinner
  split at h
  · cases h
  rename_i x hx
  split at h
  · cases h
  rename_i ix hix
  cases h
  exact ⟨q, t, size, q', ix, hb, helem, by simpa using hnone, hinner, rfl, x, hx, hix⟩

theorem atConst_eq_ok {whole : Place} {q : Path} {t : TypeRef} {size : Int64} {e : Expr}
    (h : atConst r whole q t size e = .ok p) :
    ∃ n, e.eval r = .ok n ∧ ¬ (n < 0 ∨ q.type.len ≤ n) ∧
      p = { q.advance (n * size) with type := t } := by
  unfold atConst at h
  split at h
  · cases h
  rename_i n hn
  split at h
  · cases h
  rename_i hrange
  cases h
  exact ⟨n, hn, hrange, rfl⟩

theorem index_advance (p : Path) (k : Int64) : (p.advance k).index = p.index := by
  unfold advance
  cases p.index <;> rfl

end Path

/-! ## Places -/

/-- The storage names that a place starts from: its own, and those of places
    whose values it takes for subscripts. -/
def Place.roots : Place → List String
  | name n => [n]
  | field b _ | elem b _ | add b _ | sub b _ => b.roots
  | elemAt b p => b.roots ++ p.roots
  | literal _ | missing => []

/-- The symbols of the storage with the given names are in `S`. -/
def Scope.Within (S : String → Prop) (scope : Scope) (names : List String) : Prop :=
  ∀ n ∈ names, ∀ st sym, scope n = some st → st.home = .global sym → S sym

namespace Path

variable {S : String → Prop}

/-- Every symbol that the path has met so far is in `S`. -/
structure Within (S : String → Prop) (p : Path) : Prop where
  base : p.base.Within S
  index : ∀ i, p.index = some i → i.Within S

theorem within_advance {p : Path} (h : p.Within S) (k : Int64) (t : TypeRef) :
    { p.advance k with type := t : Path }.Within S := by
  unfold advance
  split
  · exact ⟨h.base, h.index⟩
  · exact ⟨h.base, h.index⟩

theorem within_finish {p : Path} {x : Resolved} (hp : p.Within S) (h : p.finish = .ok x) :
    x.address.Within S := by
  unfold finish at h
  split at h
  · cases h
  rename_i a ha
  cases h
  have hindex : (p.index.getD .none).Within S := by
    cases hi : p.index with
    | none => trivial
    | some i => exact hp.index i hi
  have haddr := Address.within_build hp.base hindex ha
  unfold thenAdd
  split
  · exact Step.allWithin_append.mpr ⟨haddr, Address.allWithin_addOffset _⟩
  · exact haddr

/-- The value at an address is an index within the same symbols. -/
theorem within_ofStored {r : Resolver} {inner : Place} {x : Resolved} {i : Index}
    (hx : x.address.Within S) (h : Index.ofStored r inner x = .ok i) : i.Within S := by
  unfold Index.ofStored at h
  dsimp only at h
  split at h
  · cases h
  split at h
  · rename_i s off haddr
    split at h
    · cases h
      exact hx
    · cases h
      rw [haddr] at hx
      exact hx
  · split at h
    · cases h
      trivial
    · cases h
      exact hx
  · cases h
    exact hx

theorem within_ofSubscript {r : Resolver} {sub : Subscript} {i : Index}
    (h : Index.ofSubscript r sub = .ok i) : i.Within S := by
  cases sub with
  | reg8 reg | reg16 reg | memHL =>
    cases h
    trivial
  | memIndexed reg d =>
    rw [Index.ofSubscript] at h
    split at h
    · split at h <;> cases h
      trivial
    · cases h
  | const e | missing => cases h

theorem within_ofStorage {scope : Scope} {n : String} (hscope : scope.Within S [n]) {st : Storage}
    (h : scope n = some st) : (ofStorage st).Within S := by
  obtain ⟨home, t⟩ := st
  cases home with
  | global sym =>
    refine ⟨fun s hs => ?_, fun i hi => (nomatch hi)⟩
    cases hs
    exact hscope n List.mem_cons_self _ sym h rfl
  | frame d | ref d => exact ⟨fun s hs => (nomatch hs), fun i hi => (nomatch hi)⟩

/-- A path through storage meets the symbols of the storage only, by induction
    on the place. -/
theorem within_follow {scope : Scope} {r : Resolver} {place : Place} {p : Path}
    (hscope : scope.Within S place.roots) (h : follow scope r place = .ok p) : p.Within S := by
  induction place generalizing p with
  | literal e => cases h
  | missing => cases h
  | name n =>
    obtain ⟨st, hn, rfl⟩ := follow_name_eq_ok h
    exact within_ofStorage hscope hn
  | field b f ih =>
    obtain ⟨q, fld, hb, -, rfl⟩ := follow_field_eq_ok h
    exact within_advance (ih hscope hb) _ _
  | add b off ih =>
    obtain ⟨q, v, hb, -, rfl⟩ := follow_add_eq_ok h
    exact within_advance (ih hscope hb) _ _
  | sub b off ih =>
    obtain ⟨q, v, hb, -, rfl⟩ := follow_sub_eq_ok h
    exact within_advance (ih hscope hb) _ _
  | elem b i ih =>
    obtain ⟨q, t, size, hb, -, hcase⟩ := follow_elem_eq_ok h
    have hq := ih hscope hb
    rcases hcase with ⟨e, rfl, hat⟩ | ⟨-, -, ix, rfl, hix⟩
    · obtain ⟨n, -, -, rfl⟩ := atConst_eq_ok hat
      exact within_advance hq _ _
    · refine ⟨hq.base, fun j hj => ?_⟩
      cases hj
      exact within_ofSubscript hix
  | elemAt b inner ihb ihi =>
    obtain ⟨q, t, size, q', ix, hb, -, -, hinner, rfl, x, hx, hix⟩ := follow_elemAt_eq_ok h
    have hq := ihb (fun n hn => hscope n (List.mem_append_left _ hn)) hb
    have hq' := ihi (fun n hn => hscope n (List.mem_append_right _ hn)) hinner
    refine ⟨hq.base, fun j hj => ?_⟩
    cases hj
    exact within_ofStored (within_finish hq' hx) hix

end Path

/-- The address of a place is within the symbols of its storage. -/
theorem Place.within_of_resolve {S : String → Prop} {scope : Scope} {r : Resolver} {p : Place}
    {x : Resolved} (hscope : scope.Within S p.roots) (h : p.resolve scope r = .ok x) :
    x.address.Within S := by
  unfold resolve at h
  split at h
  · cases h
  rename_i path hpath
  exact Path.within_finish (Path.within_follow hscope hpath) h

end Z80Backend
