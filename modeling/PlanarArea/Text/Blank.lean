import PlanarArea.Text.Ranges

/-!
Blank characters: those with the Unicode property White_Space.
-/
namespace PlanarArea.Text

def blankRanges : List (Nat × Nat) :=
  [(0x9, 0xD), (0x20, 0x20), (0x85, 0x85), (0xA0, 0xA0), (0x1680, 0x1680), (0x2000, 0x200A),
   (0x2028, 0x2029), (0x202F, 0x202F), (0x205F, 0x205F), (0x3000, 0x3000)]

/-- Spaces, line ends and the wide spaces of other scripts. -/
def isBlank (c : Char) : Bool :=
  inRanges blankRanges c.toNat

/-- Every character is blank; the empty text is. -/
def allBlank (s : String) : Bool :=
  s.toList.all isBlank

end PlanarArea.Text
