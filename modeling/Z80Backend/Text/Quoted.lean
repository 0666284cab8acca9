import Z80Backend.Text.Printable

/-! # Quotations

    A quotation encloses a text in double quotes and escapes every character
    that could not be read there: the quote and the backslash, the control
    characters, and whatever is not printable. -/

namespace Z80Backend.Text

/-- Lower-case hexadecimal digits, exactly `width` of them when they fit. -/
def escapeDigits (width : Nat) (c : Char) : List Char :=
  (Nat.toDigits 16 c.toNat).leftpad width '0'

/-- How one character is written inside a quotation. -/
def quotedChar (c : Char) : List Char :=
  if c = '"' ∨ c = '\\' then ['\\', c]
  else if isPrintable c then [c]
  else
    match c.toNat with
    | 0x07 => ['\\', 'a']
    | 0x08 => ['\\', 'b']
    | 0x0C => ['\\', 'f']
    | 0x0A => ['\\', 'n']
    | 0x0D => ['\\', 'r']
    | 0x09 => ['\\', 't']
    | 0x0B => ['\\', 'v']
    | n =>
      if n < 0x20 ∨ n = 0x7F then '\\' :: 'x' :: escapeDigits 2 c
      else if n < 0x10000 then '\\' :: 'u' :: escapeDigits 4 c
      else '\\' :: 'U' :: escapeDigits 8 c

/-- The quotation of a text. -/
def quote (s : String) : String :=
  String.ofList ('"' :: s.toList.flatMap quotedChar ++ ['"'])

end Z80Backend.Text
