import GrammarServer.Text.Ranges

/-!
# Blank characters

The characters that count as white space, and the removal of blanks from both ends of a text.
-/
namespace GrammarServer.Text

def blankRanges : List (Nat × Nat) :=
  [(0x9, 0xd), (0x1c, 0x20), (0x85, 0x85), (0xa0, 0xa0), (0x1680, 0x1680), (0x2000, 0x200a),
   (0x2028, 0x2029), (0x202f, 0x202f), (0x205f, 0x205f), (0x3000, 0x3000)]

/-- White space: the separators, the line and page breaks and the information separators. -/
def isBlank (c : Char) : Bool := inRanges blankRanges c.toNat

def stripChars (cs : List Char) : List Char :=
  ((cs.dropWhile isBlank).reverse.dropWhile isBlank).reverse

def strip (s : String) : String := String.ofList (stripChars s.toList)

end GrammarServer.Text
