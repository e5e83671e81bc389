import GrammarServer.Node.Basic

/-!
# Places of symbols

Positions and ranges as an editor counts them, from zero. The place of a name leaves out the signs
`?` and `!` in front of it.
-/
namespace GrammarServer

structure Position where
  line : Int
  column : Int
deriving DecidableEq, Repr

structure Range where
  start : Position
  stop : Position
deriving DecidableEq, Repr

namespace Token

def withoutSigns (t : Token) : List Char := t.text.toList.dropWhile fun c => c == '?' || c == '!'

/-- A token's position, of the name itself if it is clean. A token without a line or column, or
with zero for it, counts as being at the start. -/
def position (clean : Bool) (t : Token) : Position :=
  let signs : Int := if clean then t.text.length - t.withoutSigns.length else 0
  { line := match t.line with
      | none => 0
      | some n => if n == 0 then 0 else n - 1
    column := match t.column with
      | none => 0
      | some n => if n == 0 then 0 else n - 1 + signs }

/-- The range of a token, or of the name itself if it is clean. -/
def range (clean : Bool) (t : Token) : Range :=
  let start := t.position clean
  let width : Int := if clean then t.withoutSigns.length else t.text.length
  ⟨start, ⟨start.line, start.column + width⟩⟩

end Token

namespace Range

def zero : Range := ⟨⟨0, 0⟩, ⟨0, 0⟩⟩

/-- The range of an extent; what covers no text is at the very start. -/
def ofExtent : Option Extent → Range
  | none => zero
  | some e => ⟨⟨e.line - 1, e.column - 1⟩, ⟨e.endLine - 1, e.endColumn - 1⟩⟩

mutual

def tokensOf : Node → List Token
  | .token t => [t]
  | .tree _ _ children => tokensOfAll children
  | _ => []

def tokensOfAll : List Node → List Token
  | [] => []
  | n :: rest => tokensOf n ++ tokensOfAll rest

end

/-- From the first token of a tree with these children to the end of the last. -/
def ofTree (children : List Node) : Except Fault Range :=
  let tokens := tokensOfAll children
  match tokens.head?, tokens.getLast? with
  | some first, some last => .ok ⟨(first.range false).start, (last.range false).stop⟩
  | _, _ => .error .noTokens

def containsPosition (r : Range) (p : Position) : Bool :=
  !(p.line < r.start.line || p.line > r.stop.line) &&
  !(p.line == r.start.line && p.column < r.start.column) &&
  !(p.line == r.stop.line && p.column > r.stop.column)

def contains (r other : Range) : Bool :=
  r.containsPosition other.start && r.containsPosition other.stop

end Range

/-- What can be looked for in a range; anything but a position or a range is refused. -/
inductive Place
  | position (p : Position)
  | range (r : Range)
  | value (n : Node)

def Range.holds (r : Range) : Place → Except Fault Bool
  | .position p => .ok (r.containsPosition p)
  | .range other => .ok (r.contains other)
  | .value n => .error (.notAPlace n.kind)

end GrammarServer
