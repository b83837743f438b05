import NominalTypes.Text.CodeSet

/-!
# White space

The characters that separate tokens: the ASCII white space, the information separators, and the
space separators of Unicode. The zero-width space and the byte order mark are not among them.
-/

namespace NominalTypes.Text

def blanks : CodeSet :=
  ⟨[9, 14, 28, 33, 0x85, 0x86, 0xa0, 0xa1, 0x1680, 0x1681, 0x2000, 0x200b, 0x2028, 0x202a, 0x202f,
    0x2030, 0x205f, 0x2060, 0x3000, 0x3001]⟩

def isBlank (c : Char) : Bool :=
  blanks.contains c

/-- The characters without the white space before them. -/
def trimStart (cs : List Char) : List Char :=
  cs.dropWhile isBlank

/-- The characters without the white space after them. -/
def trimEnd (cs : List Char) : List Char :=
  (cs.reverse.dropWhile isBlank).reverse

end NominalTypes.Text
