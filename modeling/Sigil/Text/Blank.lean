/-! Blank characters: the code points with the Unicode property White_Space. -/
namespace Sigil.Text

def blankRanges : List (Nat × Nat) :=
  [(0x09, 0x0D), (0x20, 0x20), (0x85, 0x85), (0xA0, 0xA0), (0x1680, 0x1680), (0x2000, 0x200A),
    (0x2028, 0x2029), (0x202F, 0x202F), (0x205F, 0x205F), (0x3000, 0x3000)]

def isBlank (c : Char) : Bool :=
  blankRanges.any fun (first, last) => first ≤ c.toNat ∧ c.toNat ≤ last

def dropBlanks (text : List Char) : List Char := text.dropWhile isBlank

def trim (text : List Char) : List Char := (dropBlanks (dropBlanks text).reverse).reverse

end Sigil.Text
