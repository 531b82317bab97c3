/-!
# Blank characters

The characters that may stand around a text without being part of it: spaces of every width, ends of
lines and of pages, and the mark that may open a file.
-/

namespace OrderedIndex

namespace Text

/-- Whether a character is blank. Joiners of no width are not, and neither is the next-line control. -/
def isBlank (c : Char) : Bool :=
  (9 ≤ c.toNat && c.toNat ≤ 13) || (0x2000 ≤ c.toNat && c.toNat ≤ 0x200A) ||
    [0x20, 0xA0, 0x1680, 0x2028, 0x2029, 0x202F, 0x205F, 0x3000, 0xFEFF].contains c.toNat

def trim (cs : List Char) : List Char :=
  ((cs.dropWhile isBlank).reverse.dropWhile isBlank).reverse

end Text

end OrderedIndex
