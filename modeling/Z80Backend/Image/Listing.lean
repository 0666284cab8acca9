import Z80Backend.Image.Link

/-! # Listings

    The listing of an image shows each placed chunk, with the address, the
    final bytes and the text of each of its lines. -/

namespace Z80Backend.Image

/-- The final bytes of `n` addresses from `addr` on. -/
def hexText (img : Image) (addr n : Nat) : String :=
  " ".intercalate ((img.bytes.slice addr n).map Text.hexByte)

/-- A line of the listing of a chunk at `start`. -/
def listingLine (img : Image) (start : Nat) (l : ListingLine) : String :=
  if l.isLabel then l.text ++ ":\n"
  else
    Text.hex 4 (start + l.offset) ++ "  " ++
      Text.padRight 12 (img.hexText (start + l.offset) l.size) ++ " " ++ l.text ++ "\n"

/-- The listing of a placed chunk. -/
def listingOf (img : Image) (p : Placement) : String :=
  p.chunk.name ++ ":\n" ++
    String.join (p.chunk.listing.map (img.listingLine p.start.toInt.toNat))

/-- The listing of an image. -/
def listing (img : Image) : String :=
  String.join ((img.placements.filter (·.fits)).map img.listingOf)

end Z80Backend.Image
