import GrammarServer.Lexeme.Basic
import GrammarServer.Text.Lines
import GrammarServer.Text.Quoted

/-!
# Errors in the text of a grammar file

Either no terminal fits at a character, or the parser cannot go on with a lexeme. Both name the
terminals that would have been possible, in the order of their names.
-/
namespace GrammarServer

inductive SyntaxError
  /-- No terminal fits at this character of the source. -/
  | stray (source : List Char) (c : Char) (start : Mark) (expected : List Terminal)
    (previous : Option Lexeme)
  /-- The parser refuses this lexeme. -/
  | refused (x : Lexeme) (expected : List Terminal)

namespace SyntaxError

def start : SyntaxError → Mark
  | stray _ _ m _ _ => m
  | refused x _ => x.start

def line (e : SyntaxError) : Nat := e.start.line

def column (e : SyntaxError) : Nat := e.start.column

def showLexeme (x : Lexeme) : String :=
  "Token(" ++ Text.quoted x.terminal.name ++ ", " ++ Text.quoted (String.ofList x.text) ++ ")"

def showExpected (expected : List Terminal) : String :=
  "Expected one of: \n" ++ String.join (expected.map fun t => "\t* " ++ t.name ++ "\n")

def contextWidth : Nat := 40

/-- The line around a place of the source, and under it a caret at the place. -/
def showContext (source : List Char) (offset : Nat) : String :=
  let before := (((source.take offset).drop (offset - contextWidth)).reverse.takeWhile
    (· != '\n')).reverse
  let after := ((source.drop offset).take contextWidth).takeWhile (· != '\n')
  String.ofList (before ++ after ++ '\n' ::
    List.replicate (Text.expandedWidth 0 before) ' ' ++ ['^', '\n'])

def message : SyntaxError → String
  | stray source c m expected previous =>
    "No terminal matches '" ++ String.singleton c ++ "' in the current parser context, at line " ++
      toString m.line ++ " col " ++ toString m.column ++ "\n\n" ++
      showContext source m.offset ++ showExpected expected ++
      match previous with
      | some x => "\nPrevious tokens: " ++ showLexeme x ++ "\n"
      | none => ""
  | refused x expected =>
    "Unexpected token " ++ showLexeme x ++ " at line " ++ toString x.start.line ++ ", column " ++
      toString x.start.column ++ ".\n" ++ showExpected expected

end SyntaxError

end GrammarServer
