import GrammarServer.SyntaxError

/-!
# Reading lexemes one after another

The lexemes of a source up to its first stray character.
-/
namespace GrammarServer.Lexeme

/-- The terminals offered where none fits: all of them, or those that are not skipped. -/
def offered (all : Bool) : List Terminal :=
  Terminal.inNameOrder.filter fun t => t != .endOfInput && (all || !t.isSkipped)

def scanPieces (source : List Char) (all : Bool) : Option Lexeme → List Piece →
    List Lexeme × Option SyntaxError
  | _, [] => ([], none)
  | previous, .stray c m :: _ => ([], some (.stray source c m (offered all) previous))
  | previous, .lexeme x :: rest =>
    if all || !x.terminal.isSkipped then
      let (lexemes, error) := scanPieces source all (some x) rest
      (x :: lexemes, error)
    else scanPieces source all previous rest

/-- The lexemes of a source before its first stray character, and the error there. Skipped ones
are listed only when `all` are asked for. -/
def scan (all : Bool) (source : String) : List Lexeme × Option SyntaxError :=
  scanPieces source.toList all none (Piece.ofSource source)

end GrammarServer.Lexeme
