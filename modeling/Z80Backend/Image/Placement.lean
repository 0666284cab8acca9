import Z80Backend.Image.ByteMap
import Z80Backend.Image.Symbol
import Z80Backend.Label
import Z80Backend.Layout.Section

/-! # Placement

    Chunks are placed section by section, code first, each after the one
    before it unless it or its section is pinned.  A chunk that would leave
    the address space is not placed, and the next one is tried from the same
    address. -/

namespace Z80Backend

/-- The first multiple of `align` from `n` on. -/
def alignUp (n align : Int64) : Int64 :=
  if align ≤ 1 then n else (n + align - 1) / align * align

/-- A chunk with the address that it was tried at. -/
structure Placement where
  chunk : Chunk
  start : Int64
  deriving DecidableEq, Repr, Inhabited

namespace Placement

/-- The address after the chunk. -/
def stop (p : Placement) : Int64 := p.start + p.chunk.size

/-- Does the chunk stay in the address space? -/
def fits (p : Placement) : Bool := !(p.start < 0 || Int64.ofNat addressSpace < p.stop)

/-- The address of a chunk that fits, and zero for any other. -/
def address (p : Placement) : Int64 := if p.fits then p.start else 0

/-- Places a chunk at `cursor`, or where it is pinned. -/
def ofChunk (cursor : Int64) (c : Chunk) : Placement :=
  { chunk := c, start := alignUp (c.pin.getD cursor) c.align }

/-- Where the chunk after this one is placed. -/
def next (p : Placement) : Int64 := if p.fits then p.stop else p.start

/-- Places chunks one after the other.  Gives the address after them. -/
def placeAll (cursor : Int64) : List Chunk → List Placement × Int64
  | [] => ([], cursor)
  | c :: cs =>
    let p := ofChunk cursor c
    let (ps, cursor) := placeAll p.next cs
    (p :: ps, cursor)

/-- Places the chunks of sections in turn. -/
def placeSections (layout : Layout) (chunks : List Chunk) (cursor : Int64) :
    List Section → List Placement
  | [] => []
  | s :: ss =>
    let x := layout.get s
    let (ps, cursor) :=
      placeAll (alignUp (x.base.getD cursor) x.align) (chunks.filter (·.home == s))
    ps ++ placeSections layout chunks cursor ss

/-- Places all chunks.  Chunks of unknown sections are left out. -/
def ofChunks (layout : Layout) (chunks : List Chunk) : List Placement :=
  placeSections layout chunks 0 [.code, .data, .var]

/-! ## Names -/

/-- The labels of a placed chunk with their addresses. -/
def labels (p : Placement) : List (LocalLabel × Int64) :=
  p.chunk.labels.map fun l => (l, p.start + Int64.ofNat l.offset)

/-- The symbols that a placed chunk defines.  Generated labels are left out. -/
def symbols (p : Placement) : List Symbol :=
  { name := p.chunk.name, kind := p.chunk.kind, address := some p.start, size := p.chunk.size,
    scope := Symbol.moduleScope, file := p.chunk.span.file, line := p.chunk.span.line } ::
  (p.labels.filter fun (l, _) => !Label.isGenerated l.name).map fun (l, addr) =>
    { name := l.name, kind := .label, address := some addr, scope := p.chunk.name,
      file := l.span.file, line := l.span.line }

end Placement

end Z80Backend
