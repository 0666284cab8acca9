import Mathlib.Algebra.Ring.Int.Defs
import Mathlib.Data.List.Basic
import Z80Backend.Proofs.Program.Placeable

/-! # Initialised storage, element by element

    Lowering works through the initialisers from left to right and appends the
    bytes of each to those before.  A fixup takes its position from the bytes
    so far.  Seen from the finished chunk, initialiser `i` is element `i`: all
    elements have one width, so what comes before it is `i` times that width.

    The width is told by the name of the type alone, in letters of either case
    (`DataDecl.isBytes`), although a reference to a byte takes two bytes and a
    layout may have such a name, too.  Elsewhere the elements are those of the
    declared type.

    * `DataDecl.LaysOut` says what a chunk holds for elements of a width.
    * `DataDecl.lower_laysOut_named`: what lowering makes, by the name of the type.
    * `DataDecl.lower_laysOut`: what is declared. -/

namespace Z80Backend

/-! ## Elements -/

/-- The number that bytes hold, the lowest first. -/
def littleEndian : List UInt8 → Nat
  | [] => 0
  | b :: bs => b.toNat + 256 * littleEndian bs

/-- The bytes of an element hold a value: a constant modulo what fits, and two
    zero bytes while they wait for a symbol. -/
def Value.FillsElement (v : Value) (bs : List UInt8) : Prop :=
  if v.isConst then (littleEndian bs : Int) = v.addend.toInt % 256 ^ bs.length else bs = [0, 0]

instance (v : Value) (bs : List UInt8) : Decidable (v.FillsElement bs) := by
  unfold Value.FillsElement
  infer_instance

theorem littleEndian_wordBytes (n : Int64) :
    (littleEndian (wordBytes n) : Int) = n.toInt % 256 ^ 2 := by
  simp only [wordBytes, littleEndian, toNat_lowByte, toInt_highPart]
  omega

/-- Element `i` of a list that is put together from elements of one width. -/
theorem take_drop_flatMap {α : Type} {f : α → List UInt8} {w : Nat} {xs : List α}
    (hf : ∀ x ∈ xs, (f x).length = w) {i : Nat} {x : α} (hx : xs[i]? = some x)
    (tail : List UInt8) : ((xs.flatMap f ++ tail).drop (i * w)).take w = f x := by
  induction xs generalizing i with
  | nil => cases hx
  | cons y ys ih =>
    have hy : (f y).length = w := hf y List.mem_cons_self
    rw [List.flatMap_cons, List.append_assoc]
    cases i with
    | zero =>
      obtain rfl : y = x := by simpa using hx
      rw [Nat.zero_mul, List.drop_zero, ← hy, List.take_left]
    | succ i =>
      have hskip : (i + 1) * w = (f y).length + i * w := by rw [hy, Nat.succ_mul, Nat.add_comm]
      rw [hskip, List.drop_append, List.drop_eq_nil_of_le (Nat.le_add_right _ _),
        Nat.add_sub_cancel_left, List.nil_append]
      exact ih (fun z hz => hf z (List.mem_cons_of_mem _ hz)) (by simpa using hx)

theorem length_flatMap_of_width {α : Type} {f : α → List UInt8} {w : Nat} {xs : List α}
    (hf : ∀ x ∈ xs, (f x).length = w) : (xs.flatMap f).length = xs.length * w := by
  induction xs with
  | nil => simp
  | cons y ys ih =>
    rw [List.flatMap_cons, List.length_append, hf y List.mem_cons_self,
      ih fun z hz => hf z (List.mem_cons_of_mem _ hz), List.length_cons, Nat.succ_mul, Nat.add_comm]

namespace DataDecl

variable {d : DataDecl} {r : Resolver}

/-- The slot of an initialiser at a position, if it waits for a symbol. -/
def slotAt (d : DataDecl) (r : Resolver) (pos : Nat) (e : Expr) : Option LocatedFixup :=
  match e.evalSymbolic r with
  | .error _ => none
  | .ok v =>
    if v.isConst then none
    else
      some
        { kind := .abs16, offset := Int64.ofNat pos, symbol := v.symbol, addend := v.addend,
          opcode := [], span := d.span }

/-- The chunk holds the initialisers as elements of a width, one after the
    other, and nothing else. -/
structure LaysOut (d : DataDecl) (r : Resolver) (width : Nat) (c : Chunk) : Prop where
  /-- There are as many bytes as the type has. -/
  size : (r.sizeOf d.type).map Int64.toInt = .ok (c.bytes.length : Int)
  /-- There is a whole element for each initialiser. -/
  room : d.values.length ≤ c.bytes.length / width
  /-- Initialiser `i` has a value, and element `i` holds it. -/
  element : ∀ (i : Nat) (e : Expr), d.values[i]? = some e →
    ∃ v : Value, e.evalSymbolic r = .ok v ∧ v.FillsElement ((c.bytes.drop (i * width)).take width)
  /-- The rest is zero. -/
  rest : ∀ b ∈ c.bytes.drop (d.values.length * width), b = 0
  /-- The slots are those of the initialisers that wait for a symbol. -/
  fixups : c.fixups = d.values.zipIdx.filterMap fun (e, i) => d.slotAt r (i * width) e

/-! ## Initialisers -/

/-- The width that the name of the type tells. -/
def namedWidth (d : DataDecl) : Nat := if d.isBytes then 1 else 2

/-- What an initialiser becomes at a position. -/
def initAt (d : DataDecl) (r : Resolver) (pos : Nat) (e : Expr) : Initialised :=
  if d.isBytes then d.initByte r e else d.initWord r pos e

theorem length_initAt (d : DataDecl) (r : Resolver) (pos : Nat) (e : Expr) :
    (d.initAt r pos e).bytes.length = d.namedWidth := by
  unfold initAt namedWidth
  split
  · unfold initByte
    dsimp only
    split
    · rfl
    · split <;> rfl
  · unfold initWord
    split
    · rfl
    · split <;> rfl

/-- An initialiser without an error has a value that its bytes hold. -/
theorem initAt_fills {pos : Nat} {e : Expr} (h : (d.initAt r pos e).error = none) :
    ∃ v, e.evalSymbolic r = .ok v ∧ v.FillsElement (d.initAt r pos e).bytes := by
  unfold initAt at h ⊢
  split at h
  · rename_i hbytes
    rw [if_pos hbytes]
    unfold initByte at h ⊢
    dsimp only at h ⊢
    split at h
    · cases h
    rename_i n hn
    have hvalue : e.evalSymbolic r = .ok { addend := n } := by
      unfold Expr.evalSymbolic
      rw [hn]
    refine ⟨{ addend := n }, hvalue, ?_⟩
    split at h
    · cases h
    rename_i hrange
    rw [if_neg hrange]
    show (littleEndian [UInt8.ofInt n.toInt] : Int) = n.toInt % 256 ^ 1
    simp only [littleEndian, toNat_lowByte]
    omega
  · rename_i hwords
    rw [if_neg hwords]
    unfold initWord at h ⊢
    split at h
    · cases h
    rename_i v hv
    refine ⟨v, hv, ?_⟩
    unfold Value.FillsElement
    by_cases hconst : v.isConst = true
    · rw [if_pos hconst, if_pos hconst]
      exact littleEndian_wordBytes v.addend
    · rw [if_neg hconst, if_neg hconst]

/-- An initialiser without an error asks for a slot exactly if it waits. -/
theorem initAt_fixup {pos : Nat} {e : Expr} (h : (d.initAt r pos e).error = none) :
    (d.initAt r pos e).fixup.map (fun f => { f with span := d.span }) = d.slotAt r pos e := by
  unfold initAt at h ⊢
  unfold slotAt
  split at h
  · rename_i hbytes
    rw [if_pos hbytes]
    unfold initByte at h ⊢
    dsimp only at h ⊢
    split at h
    · cases h
    rename_i n hn
    unfold Expr.evalSymbolic
    rw [hn]
    dsimp only
    split <;> rfl
  · rename_i hwords
    rw [if_neg hwords]
    unfold initWord at h ⊢
    generalize e.evalSymbolic r = result at h ⊢
    cases result with
    | error err => cases h
    | ok v =>
      dsimp only
      by_cases hconst : v.isConst = true
      · rw [if_pos hconst, if_pos hconst]
        rfl
      · rw [if_neg hconst, if_neg hconst]
        rfl

/-- Each initialiser stands one width behind the one before. -/
theorem initAll_cons (d : DataDecl) (r : Resolver) (pos : Nat) (e : Expr) (es : List Expr) :
    d.initAll r pos (e :: es) = d.initAt r pos e :: d.initAll r (pos + d.namedWidth) es := by
  rw [← d.length_initAt r pos e]
  rfl

/-- Initialiser `i` stands `i` widths behind the first. -/
theorem initAll_eq (d : DataDecl) (r : Resolver) (k : Nat) (es : List Expr) :
    d.initAll r (k * d.namedWidth) es =
      (es.zipIdx k).map fun (e, i) => d.initAt r (i * d.namedWidth) e := by
  induction es generalizing k with
  | nil => rfl
  | cons e es ih => rw [initAll_cons, ← Nat.succ_mul, ih, List.zipIdx_cons, List.map_cons]

/-! ## Chunks -/

/-- There is room for the whole elements of the size. -/
theorem toNat_room {size : Int64} (hsize : 0 ≤ size.toInt) :
    (d.room size).toInt.toNat = size.toInt.toNat / d.namedWidth := by
  unfold room namedWidth
  split
  · rw [Nat.div_one]
  · have htwo : (2 : Int64).toInt = 2 := rfl
    have hhalf : (size / 2).toInt = size.toInt / 2 := by
      rw [Int64.toInt_div, htwo, Int.tdiv_eq_ediv_of_nonneg hsize]
      have := size.toInt_lt
      exact Int.bmod_eq_of_le (by omega) (by omega)
    rw [hhalf]
    omega

/-- What lowering makes of storage whose initialisers are all in order. -/
theorem lower_eq_ok {size : Int64} {c : Chunk} (h : d.lower r = .ok (some (size, c), [])) :
    r.sizeOf d.type = .ok size ∧ 0 ≤ size.toInt ∧
      d.values.length ≤ size.toInt.toNat / d.namedWidth ∧
      (∀ x ∈ d.initAll r 0 d.values, x.error = none) ∧
      c.bytes = (d.initAll r 0 d.values).flatMap (·.bytes) ++
        List.replicate (size.toInt.toNat -
          ((d.initAll r 0 d.values).flatMap (·.bytes)).length) 0 ∧
      c.fixups = ((d.initAll r 0 d.values).filterMap (·.fixup)).map
        fun f => { f with span := d.span } := by
  unfold lower at h
  split at h
  · cases h
  rename_i size' hsize
  split at h
  · cases h
  rename_i hfault
  obtain ⟨hchunk, hreports⟩ := Prod.mk.inj (Except.ok.inj h)
  obtain ⟨rfl, rfl⟩ := Prod.mk.inj (Option.some.inj hchunk)
  obtain ⟨hcount, herrors⟩ := List.append_eq_nil_iff.mp hreports
  have hnonneg : 0 ≤ size'.toInt := by
    have hneg : ¬ size' < 0 := fun hneg => hfault (by rw [decide_eq_true hneg, Bool.true_or])
    rw [Int64.lt_iff_toInt_lt] at hneg
    exact Int.not_lt.mp hneg
  have hroom : d.values.length ≤ (d.room size').toInt.toNat := by
    by_cases hmany : (d.room size').toInt.toNat < d.values.length
    · rw [if_pos hmany] at hcount
      cases hcount
    · exact Nat.le_of_not_lt hmany
  rw [List.take_of_length_le hroom] at herrors ⊢
  rw [toNat_room hnonneg] at hroom
  refine ⟨hsize, hnonneg, hroom, ?_, ?_, ?_⟩
  · intro x hx
    exact List.filterMap_eq_nil_iff.mp herrors x hx
  · rw [Chunk.bytes, Line.listBytes_cons, (Line.listFixups_notes _ 0 _).2, List.append_nil]
    rfl
  · rw [Chunk.fixups, Line.listFixups, (Line.listFixups_notes _ _ _).1]
    rfl

/-- Without a report, the chunk holds the elements that the name of the type
    tells. -/
theorem lower_laysOut_named {size : Int64} {c : Chunk}
    (h : d.lower r = .ok (some (size, c), [])) : d.LaysOut r d.namedWidth c := by
  obtain ⟨hsize, hnonneg, hroom, herrors, hbytes, hfixups⟩ := lower_eq_ok h
  have hitems := d.initAll_eq r 0 d.values
  rw [Nat.zero_mul] at hitems
  have hwidth : ∀ x ∈ d.initAll r 0 d.values, x.bytes.length = d.namedWidth := by
    rw [hitems]
    intro x hx
    obtain ⟨p, _, rfl⟩ := List.mem_map.mp hx
    exact d.length_initAt r _ _
  have hlen : ((d.initAll r 0 d.values).flatMap (·.bytes)).length =
      d.values.length * d.namedWidth := by
    rw [length_flatMap_of_width hwidth, hitems, List.length_map, List.length_zipIdx]
  have hfits : d.values.length * d.namedWidth ≤ size.toInt.toNat :=
    Nat.le_trans (Nat.mul_le_mul_right _ hroom) (Nat.div_mul_le_self _ _)
  have htotal : c.bytes.length = size.toInt.toNat := by
    rw [hbytes, List.length_append, List.length_replicate, hlen]
    omega
  refine ⟨?_, ?_, ?_, ?_, ?_⟩
  · rw [hsize, htotal, Int.toNat_of_nonneg hnonneg]
    rfl
  · rw [htotal]
    exact hroom
  · intro i e he
    have hat : (d.initAll r 0 d.values)[i]? = some (d.initAt r (i * d.namedWidth) e) := by
      rw [hitems, List.getElem?_map, List.getElem?_zipIdx, he, Nat.zero_add]
      rfl
    rw [hbytes, take_drop_flatMap hwidth hat]
    exact initAt_fills (herrors _ (List.mem_of_getElem? hat))
  · rw [hbytes, ← hlen, List.drop_left]
    intro b hb
    exact List.eq_of_mem_replicate hb
  · rw [hfixups, hitems, List.filterMap_map, List.map_filterMap]
    refine List.filterMap_congr fun p hp => ?_
    exact initAt_fixup (herrors _ (hitems ▸ List.mem_map_of_mem hp))

/-- The width of the elements of the declared type. -/
def elementWidth (d : DataDecl) : Nat := if d.type.name = "byte" ∧ !d.type.isRef then 1 else 2

/-- Initialised storage is laid out as declared, where the name of the type
    tells the width of its elements. -/
theorem lower_laysOut {size : Int64} {c : Chunk} (h : d.lower r = .ok (some (size, c), []))
    (hnamed : d.namedWidth = d.elementWidth) : d.LaysOut r d.elementWidth c := by
  rw [← hnamed]
  exact lower_laysOut_named h

/-- A table of three words: an address, a number below zero, and nothing. -/
def vectors : DataDecl where
  name := "vectors"
  type := { name := "word", len := 3 }
  values := [.binary .add (.name "start") (.number 2), .number (-2)]

/-- Its layout. -/
theorem vectors_laysOut : ∃ size c, vectors.lower .empty = .ok (some (size, c), []) ∧
    c.bytes = [0, 0, 0xFE, 0xFF, 0, 0] ∧ vectors.LaysOut .empty 2 c := by
  refine ⟨_, _, rfl, by decide, ?_⟩
  exact lower_laysOut (d := vectors) rfl (by decide)

/-- Lowered without a report, but not as declared. -/
def Strays (d : DataDecl) (r : Resolver) : Prop :=
  ∃ size c, d.lower r = .ok (some (size, c), []) ∧ ¬ d.LaysOut r d.elementWidth c

/-- Storage for one reference to a byte. -/
def cursor (values : List Expr) : DataDecl where
  name := "cursor"
  type := { name := "byte", isRef := true }
  values

/-- A resolver that knows a layout of two bytes by a name that resembles a scalar. -/
def pairResolver : Resolver where
  value? := fun _ => none
  layout? := fun name => if name = "Byte" then some { name, size := 2 } else none

/-- A reference to a byte takes two initialisers, and a number below zero has no
    high byte in it.  A layout with the name of the byte is split into bytes, too. -/
theorem strays_by_name : (cursor [.number 1, .number 2]).Strays .empty ∧
    (cursor [.number (-1)]).Strays .empty ∧
    ({ name := "pair", type := { name := "Byte" }, values := [.number 1, .number 2] } :
      DataDecl).Strays pairResolver := by
  refine ⟨⟨_, _, rfl, fun h => ?_⟩, ⟨_, _, rfl, fun h => ?_⟩, ⟨_, _, rfl, fun h => ?_⟩⟩
  · exact absurd h.room (by decide)
  · obtain ⟨v, hv, hfills⟩ := h.element 0 (.number (-1)) rfl
    cases hv
    exact absurd hfills (by decide)
  · exact absurd h.room (by decide)

end DataDecl

end Z80Backend
