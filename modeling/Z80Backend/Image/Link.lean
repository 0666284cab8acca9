import Z80Backend.Environment
import Z80Backend.Event
import Z80Backend.Fault
import Z80Backend.Image.Placement

/-! # Linking

    Linking places the chunks, writes their bytes and fills the slots that
    wait for addresses.  A name in a chunk is first one of its own labels,
    then a symbol of the module, then a constant or enum member of the
    environment.  Of several definitions of a name the last one counts. -/

namespace Z80Backend

/-- The linked output. -/
structure Image where
  bytes : ByteMap Nat
  symbols : List Symbol
  placements : List Placement

/-- What linking gives. -/
structure Linked where
  image : Image
  patches : List Patch
  diagnostics : List Diagnostic

/-- What chunks are linked with. -/
structure Linker where
  layout : Layout := {}
  resolver : Resolver := .empty
  /-- Constants and functions at fixed addresses. -/
  symbols : List Symbol := []

/-! ## Writing -/

/-- The claims of a placement: each of its addresses, with a byte unless the
    chunk only reserves addresses. -/
def Placement.claims (p : Placement) : List (Nat × Option UInt8) :=
  let start := p.start.toInt.toNat
  if 0 < p.chunk.reserved then
    (List.range' start p.chunk.reserved.toInt.toNat).map fun a => (a, none)
  else p.chunk.bytes.zipIdx.map fun (b, i) => (start + i, some b)

/-- Claims addresses for an owner.  Gives, for each owner they collide with,
    the first address where they do. -/
def ByteMap.claimAll (owner : Nat) (seen : List Nat) :
    List (Nat × Option UInt8) → ByteMap Nat → ByteMap Nat × List (Nat × Nat)
  | [], m => (m, [])
  | (addr, b?) :: rest, m =>
    let result := match b? with
      | some b => m.write addr b owner
      | none   => m.reserve addr owner
    match result with
    | .ok m => claimAll owner seen rest m
    | .error other =>
      if seen.contains other then claimAll owner seen rest m
      else
        let (m, more) := claimAll owner (other :: seen) rest m
        (m, (addr, other) :: more)

/-- Writes the placements from owner `n` on; `all` are the placements by
    owner.  Owners are numbered without a bound here: 32 bits keep the numbers of
    fewer than `2 ^ 31` placements as they are (`keptOwner_ofNat`). -/
def ByteMap.writeAll (all : List Placement) (n : Nat) :
    List Placement → ByteMap Nat → ByteMap Nat × List Diagnostic
  | [], m => (m, [])
  | p :: ps, m =>
    if p.fits then
      let (m, collisions) := m.claimAll n [] p.claims
      let ds := collisions.map fun (addr, other) =>
        { problem := .layout (.overlap addr p.chunk.name ((all[other]?.map (·.chunk.name)).getD ""))
          span := p.chunk.span : Diagnostic }
      let (m, more) := writeAll all (n + 1) ps m
      (m, ds ++ more)
    else writeAll all (n + 1) ps m

/-! ## Names -/

/-- The last of the entries with a name. -/
def lastOf (name : String) (entries : List (String × Int64)) : Option Int64 :=
  entries.reverse.lookup name

namespace Linker

/-- The names of the module. -/
def moduleNames (l : Linker) (ps : List Placement) : List (String × Int64) :=
  l.symbols.map (fun s => (s.name, s.denotes)) ++
    (ps.filter (·.fits)).map fun p => (p.chunk.name, p.start)

/-- The labels of the last placed chunk with a name. -/
def localNames (ps : List Placement) (chunk : String) : List (String × Int64) :=
  match (ps.filter fun p => p.fits && p.chunk.name == chunk).getLast? with
  | some p => p.labels.map fun (x, addr) => (x.name, addr)
  | none   => []

/-- The value of a name that is used in a chunk. -/
def value? (l : Linker) (ps : List Placement) (chunk name : String) : Option Int64 :=
  (lastOf name (localNames ps chunk)).or
    ((lastOf name (l.moduleNames ps)).or (l.resolver.value? name))

end Linker

/-! ## Slots -/

/-- The branch whose first byte this is. -/
def branchName : List UInt8 → String
  | 0x10 :: _ => "djnz"
  | 0x18 :: _ => "jr"
  | 0x20 :: _ => "jr nz"
  | 0x28 :: _ => "jr z"
  | 0x30 :: _ => "jr nc"
  | 0x38 :: _ => "jr c"
  | _ => "branch"

/-- The target of a fixup, as written in messages. -/
def Fixup.targetText (f : Fixup) : String :=
  if f.symbol = "" then Text.decimal f.addend
  else if 0 < f.addend then f.symbol ++ "+" ++ Text.decimal f.addend
  else if f.addend < 0 then f.symbol ++ "-" ++ Text.decimal (-f.addend)
  else f.symbol

namespace Linker

/-- The target of a fixup in a chunk. -/
def target (l : Linker) (ps : List Placement) (chunk : String) (f : Fixup) :
    Except FixupError Int64 :=
  if f.symbol = "" then .ok f.addend
  else
    match l.value? ps chunk f.symbol with
    | some n => .ok (f.addend + n)
    | none   => .error (.unresolved f.symbol)

/-- What goes into the slot of a fixup, and where. -/
def patchOf (l : Linker) (ps : List Placement) (p : Placement) (f : Fixup) :
    Except FixupError Patch :=
  match l.target ps p.chunk.name f with
  | .error e => .error e
  | .ok n =>
    let address := p.start + f.offset
    let patch value : Patch :=
      { chunk := p.chunk.name, kind := f.kind, symbol := f.symbol, address, value }
    if f.kind = .rel8 then
      let value := n - (address + 1)
      if value < -128 || 127 < value then .error (.distance (branchName f.opcode) value)
      else .ok (patch value)
    else if n < 0 || 0xFFFF < n then .error (.address f.targetText n)
    else .ok (patch n)

/-- The slots of all placed chunks in order: what goes into them, or what is
    wrong. -/
def patches (l : Linker) (ps : List Placement) : List (Except Diagnostic Patch) :=
  (ps.filter (·.fits)).flatMap fun p => p.chunk.fixups.map fun f =>
    match l.patchOf ps p f.toFixup with
    | .error e => .error { problem := .fixup e, span := f.span }
    | .ok x    => .ok x

end Linker

/-- The bytes of a patch, from its address on. -/
def Patch.bytes (p : Patch) : List UInt8 :=
  if p.kind = .rel8 then [UInt8.ofInt p.value.toInt]
  else [UInt8.ofInt p.value.toInt, UInt8.ofInt (p.value >>> 8).toInt]

/-- Does the patch stay in the address space? -/
def Patch.fits (p : Patch) : Bool :=
  0 ≤ p.address.toInt && p.address.toInt + p.bytes.length ≤ addressSpace

/-- Fills a slot. -/
def ByteMap.applyPatch (m : ByteMap Nat) (p : Patch) : ByteMap Nat :=
  p.bytes.zipIdx.foldl (fun m (b, i) => m.patch (p.address.toInt.toNat + i) b) m

/-! ## Linking -/

/-- Does the chunk stay in the address space although its end is beyond the
    largest number? -/
def Placement.isRunaway (p : Placement) : Bool :=
  p.fits && (addressSpace : Int) < p.start.toInt + p.chunk.size.toInt

namespace Linker

/-- Links chunks. -/
def link (l : Linker) (chunks : List Chunk) : Except Fault Linked :=
  let placements := Placement.ofChunks l.layout chunks
  match placements.find? (·.isRunaway) with
  | some p => .error (.address p.start)
  | none =>
    let overflows := (placements.filter (!·.fits)).map fun p =>
      { problem := .layout (.overflow p.chunk.home p.chunk.name p.stop)
        span := p.chunk.span : Diagnostic }
    let (bytes, overlaps) := ({} : ByteMap Nat).writeAll placements 0 placements
    let outcomes := l.patches placements
    let patches := outcomes.filterMap fun x => match x with | .ok p => some p | .error _ => none
    let failures := outcomes.filterMap fun x => match x with | .ok _ => none | .error d => some d
    match patches.find? (!·.fits) with
    | some p => .error (.address p.address)
    | none =>
      .ok
        { image :=
            { bytes := patches.foldl ByteMap.applyPatch bytes
              symbols := l.symbols ++ (placements.filter (·.fits)).flatMap (·.symbols)
              placements }
          patches
          diagnostics := overflows ++ overlaps ++ failures }

end Linker

/-- What happened during linking. -/
def Linked.events (x : Linked) : Journal :=
  ((x.image.placements.filter (·.fits)).map fun p =>
    .placedChunk p.chunk.name p.chunk.home p.start p.chunk.size) ++
    x.patches.map fun p => .announced (.patch p)

end Z80Backend
