import Std.Data.TreeMap

/-! # Byte maps

    The image of the address space.  An address is claimed by at most one
    owner, and a claim by another is refused.  Claimed addresses may stay
    without a byte.  Only cells that were touched are stored.

    Owners may be of any type that tells them apart.  Owners that are given
    by number can also be kept on 32 bits, where a number that is too large
    is remembered as another one. -/

namespace Z80Backend

/-- The number of addresses. -/
def addressSpace : Nat := 0x10000

/-- A number as an address, if it is one. -/
def address? (n : Int64) : Option Nat :=
  if 0 ≤ n && n < Int64.ofNat addressSpace then some n.toInt.toNat else none

/-- What is known of one address. -/
structure ByteCell (ω : Type) where
  byte : UInt8 := 0
  /-- Was a byte written here? -/
  written : Bool := false
  owner : Option ω := none
  deriving DecidableEq, Repr, Inhabited

/-- The cells that were touched. -/
structure ByteMap (ω : Type) where
  cells : Std.TreeMap Nat (ByteCell ω) := {}
  deriving Inhabited

namespace ByteMap

variable {ω : Type}

/-- The cell at an address. -/
def cell (m : ByteMap ω) (addr : Nat) : ByteCell ω := m.cells.getD addr {}

/-- Replaces the cell at an address. -/
def set (m : ByteMap ω) (addr : Nat) (c : ByteCell ω) : ByteMap ω :=
  { cells := m.cells.insert addr c }

@[simp] theorem cell_empty (addr : Nat) : ({} : ByteMap ω).cell addr = {} := by
  simp [cell]

@[simp] theorem cell_set_self (m : ByteMap ω) (addr : Nat) (c : ByteCell ω) :
    (m.set addr c).cell addr = c := by
  simp [cell, set]

theorem cell_set_of_ne (m : ByteMap ω) {addr other : Nat} (c : ByteCell ω) (h : other ≠ addr) :
    (m.set addr c).cell other = m.cell other := by
  have hc : ¬ compare addr other = .eq := fun he => h (Std.LawfulEqCmp.eq_of_compare he).symm
  simp [cell, set, Std.TreeMap.getD_insert, hc]

/-- Lets `owner` have an address; fails with the owner that has it already. -/
def reserve [DecidableEq ω] (m : ByteMap ω) (addr : Nat) (owner : ω) : Except ω (ByteMap ω) :=
  let c := m.cell addr
  match c.owner with
  | some other =>
    if other = owner then .ok m else .error other
  | none => .ok (m.set addr { c with owner := some owner })

/-- Writes a byte for `owner`; fails with the owner that has the address
    already. -/
def write [DecidableEq ω] (m : ByteMap ω) (addr : Nat) (b : UInt8) (owner : ω) :
    Except ω (ByteMap ω) :=
  match (m.cell addr).owner with
  | some other =>
    if other = owner then .ok (m.set addr { byte := b, written := true, owner := some owner })
    else .error other
  | none => .ok (m.set addr { byte := b, written := true, owner := some owner })

/-- Changes the byte at an address without claiming it. -/
def patch (m : ByteMap ω) (addr : Nat) (b : UInt8) : ByteMap ω :=
  m.set addr { m.cell addr with byte := b }

/-- The byte at an address, and whether it was written. -/
def get (m : ByteMap ω) (addr : Nat) : UInt8 × Bool := ((m.cell addr).byte, (m.cell addr).written)

/-- The written addresses with their bytes, ascending. -/
def written (m : ByteMap ω) : List (Nat × UInt8) :=
  m.cells.toList.filterMap fun (addr, c) => if c.written then some (addr, c.byte) else none

/-- The lowest and the highest written address. -/
def range? (m : ByteMap ω) : Option (Nat × Nat) :=
  match m.written with
  | [] => none
  | first :: rest => some (first.1, ((first :: rest).getLast (by simp)).1)

/-- The number of written addresses. -/
def length (m : ByteMap ω) : Nat := m.written.length

/-- The bytes of `n` addresses from `lo` on. -/
def slice (m : ByteMap ω) (lo n : Nat) : List UInt8 := (List.range' lo n).map fun a => (m.get a).1

/-- The byte at a number and whether it was written; nothing is outside the
    address space. -/
def read (m : ByteMap ω) (n : Int64) : UInt8 × Bool :=
  match address? n with
  | some addr => m.get addr
  | none      => (0, false)

/-- The bytes from `lo` up to but not including `hi`, which has to be a range of
    addresses. -/
def between? (m : ByteMap ω) (lo hi : Int64) : Option (List UInt8) :=
  if 0 ≤ lo && lo ≤ hi && hi ≤ Int64.ofNat addressSpace then
    some (m.slice lo.toInt.toNat (hi - lo).toInt.toNat)
  else none

/-- Joins neighbouring bytes into runs. -/
def runs : List (Nat × UInt8) → List (Nat × List UInt8)
  | [] => []
  | (a, b) :: rest =>
    match runs rest with
    | (a', bs) :: more => if a' = a + 1 then (a, b :: bs) :: more else (a, [b]) :: (a', bs) :: more
    | [] => [(a, [b])]

/-- The maximal runs of written addresses, ascending. -/
def segments (m : ByteMap ω) : List (Nat × List UInt8) := runs m.written

/-! ## Owners on 32 bits -/

/-- What is kept of an owner's number: its successor on 32 bits, where zero
    stands for nobody. -/
def keptOwner (owner : Int64) : Option Int :=
  let tag := (owner + 1).toInt32
  if tag = 0 then none else some (tag.toInt - 1)

/-- A number that fits is kept as it is. -/
theorem keptOwner_ofNat {n : Nat} (h : n < 0x7FFFFFFF) :
    keptOwner (Int64.ofNat n) = some (n : Int) := by
  have hsucc : Int64.ofNat n + 1 = Int64.ofNat (n + 1) := Int64.ofNat_add _ _ ▸ rfl
  have htag : (Int64.ofNat n + 1).toInt32.toInt = (n + 1 : Nat) := by
    rw [hsucc, Int64.toInt_toInt32, Int64.toInt_ofNat_of_lt (by omega)]
    exact Int.bmod_eq_of_le (by omega) (by omega)
  have hne : (Int64.ofNat n + 1).toInt32 ≠ 0 := by
    intro hzero
    rw [hzero] at htag
    exact absurd htag.symm (by simp; omega)
  unfold keptOwner
  simp only [hne, if_false, htag]
  simp

/-- Keeps the owner of an address on 32 bits. -/
def keep (m : ByteMap Int) (addr : Nat) (owner : Int64) : ByteMap Int :=
  m.set addr { m.cell addr with owner := keptOwner owner }

/-- Reserves an address for a numbered owner. -/
def reserveNumbered (m : ByteMap Int) (addr : Nat) (owner : Int64) : Except Int (ByteMap Int) :=
  (m.reserve addr owner.toInt).map (·.keep addr owner)

/-- Writes a byte for a numbered owner. -/
def writeNumbered (m : ByteMap Int) (addr : Nat) (b : UInt8) (owner : Int64) :
    Except Int (ByteMap Int) :=
  (m.write addr b owner.toInt).map (·.keep addr owner)

end ByteMap

end Z80Backend
