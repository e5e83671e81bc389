import GrammarServer.Lexeme.Reach

/-!
# Lexemes and their places

A mark is a place in a text: its offset, and its line and column counted from one, where only a
line feed starts a new line. A text is cut into pieces: lexemes, each of the first terminal that
fits, and stray characters, at which none does. The pieces follow one another without a gap.
-/
namespace GrammarServer

structure Mark where
  offset : Nat
  line : Nat
  column : Nat
deriving DecidableEq, Repr

namespace Mark

def origin : Mark := ⟨0, 1, 1⟩

def next (m : Mark) (c : Char) : Mark :=
  if c == '\n' then ⟨m.offset + 1, m.line + 1, 1⟩ else ⟨m.offset + 1, m.line, m.column + 1⟩

def after (m : Mark) (cs : List Char) : Mark := cs.foldl next m

end Mark

structure Lexeme where
  terminal : Terminal
  text : List Char
  start : Mark
  stop : Mark
deriving DecidableEq, Repr

inductive Piece
  | lexeme (x : Lexeme)
  | stray (c : Char) (start : Mark)
deriving DecidableEq, Repr

namespace Piece

/-- Cuts a text into pieces. Of a character and those after it, `front` tells the lexeme that starts
there; the number counts the characters still owed to the last lexeme. -/
def cut (front : Char → List Char → Option (Terminal × Nat)) : Nat → Mark → List Char → List Piece
  | _, _, [] => []
  | owed + 1, m, c :: cs => cut front owed (m.next c) cs
  | 0, m, c :: cs =>
    match front c cs with
    | some (t, n) =>
      let text := c :: cs.take n
      .lexeme ⟨t, text, m, m.after text⟩ :: cut front n (m.next c) cs
    | none => .stray c m :: cut front 0 (m.next c) cs

def ofSource (source : String) : List Piece := cut Terminal.atFront 0 .origin source.toList

/-- Whether a piece has a meaning; blanks and continuations do not. -/
def isSignificant : Piece → Bool
  | .lexeme x => !x.terminal.isSkipped
  | .stray .. => true

end Piece

end GrammarServer
