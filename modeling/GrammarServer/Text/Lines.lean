/-!
# Lines of a text

A document's lines end at a line feed, a carriage return, the two together, or one of the other
breaks; the last line counts only if it is not empty. Edits and layout look at line feeds alone.
-/
namespace GrammarServer.Text

def isLineBreak (c : Char) : Bool :=
  let n := c.toNat
  (10 ≤ n && n ≤ 13) || (28 ≤ n && n ≤ 30) || n == 0x85 || n == 0x2028 || n == 0x2029

/-- The lines of a text, with the line begun so far in reverse. -/
def lineChars : List Char → List Char → List (List Char)
  | [], [] => []
  | current@(_ :: _), [] => [current.reverse]
  | current, '\r' :: '\n' :: cs => current.reverse :: lineChars [] cs
  | current, c :: cs =>
    if isLineBreak c then current.reverse :: lineChars [] cs else lineChars (c :: current) cs

/-- The lines of a document, without their ends. -/
def lines (s : String) : List String := (lineChars [] s.toList).map String.ofList

/-- The pieces of a text between one character and the next of its kind; never empty. -/
def piecesAt (mark : Char) : List Char → List (List Char)
  | [] => [[]]
  | c :: cs =>
    if c == mark then [] :: piecesAt mark cs
    else
      match piecesAt mark cs with
      | [] => [[c]]
      | piece :: rest => (c :: piece) :: rest

def splitLines (s : String) : List String := (piecesAt '\n' s.toList).map String.ofList

/-- A text in which every line that holds only spaces and tabs has been emptied. -/
def clearBlankLines (s : String) : String :=
  "\n".intercalate ((splitLines s).map fun line =>
    if line.toList.all fun c => c == ' ' || c == '\t' then "" else line)

/-- How many columns a text takes when tabs stop at every eighth; a carriage return goes back to
the first column without giving up the room already taken. -/
def expandedWidth : Nat → List Char → Nat
  | _, [] => 0
  | column, c :: cs =>
    if c == '\t' then (8 - column % 8) + expandedWidth (column + (8 - column % 8)) cs
    else if c == '\n' || c == '\r' then 1 + expandedWidth 0 cs
    else 1 + expandedWidth (column + 1) cs

end GrammarServer.Text
