/-!
# Terminals of the grammar notation

The classes into which the text of a grammar file is cut. Each has the name under which messages
and trees show it. Terminals whose name starts with an underscore leave no trace in a tree, and
blanks and line continuations are skipped altogether.
-/
namespace GrammarServer

inductive Terminal
  | regexp | string | ruleName | terminalName | comment | newlineBar | newline | number
  | continuation | blank | overrideWord | declareWord | extendWord | ignoreWord | importWord
  | modifiers | dotDot | arrow | operator | dot | leftBracket | leftBrace | leftParen | bar
  | rightBracket | rightBrace | rightParen | tilde | colon | comma | endOfInput
deriving DecidableEq, Repr

namespace Terminal

def name : Terminal → String
  | regexp => "REGEXP"
  | string => "STRING"
  | ruleName => "RULE"
  | terminalName => "TERMINAL"
  | comment => "COMMENT"
  | newlineBar => "_NL_OR"
  | newline => "_NL"
  | number => "NUMBER"
  | continuation => "BACKSLASH"
  | blank => "WS"
  | overrideWord => "_OVERRIDE"
  | declareWord => "_DECLARE"
  | extendWord => "_EXTEND"
  | ignoreWord => "_IGNORE"
  | importWord => "_IMPORT"
  | modifiers => "RULE_MODIFIERS"
  | dotDot => "_DOTDOT"
  | arrow => "_TO"
  | operator => "OP"
  | dot => "_DOT"
  | leftBracket => "_LBRA"
  | leftBrace => "_LBRACE"
  | leftParen => "_LPAR"
  | bar => "_OR"
  | rightBracket => "_RBRA"
  | rightBrace => "_RBRACE"
  | rightParen => "_RPAR"
  | tilde => "TILDE"
  | colon => "_COLON"
  | comma => "_COMMA"
  | endOfInput => "$END"

/-- The terminals in the order in which they are tried at each place of a text. -/
def readingOrder : List Terminal :=
  [regexp, string, ruleName, terminalName, comment, newlineBar, newline, number, continuation,
   blank, overrideWord, declareWord, extendWord, ignoreWord, importWord, modifiers, dotDot, arrow,
   operator, dot, leftBracket, leftBrace, leftParen, bar, rightBracket, rightBrace, rightParen,
   tilde, colon, comma]

def inNameOrder : List Terminal :=
  [endOfInput, continuation, comment, number, operator, regexp, ruleName, modifiers, string,
   terminalName, tilde, blank, colon, comma, declareWord, dot, dotDot, extendWord, ignoreWord,
   importWord, leftBracket, leftBrace, leftParen, newline, newlineBar, bar, overrideWord,
   rightBracket, rightBrace, rightParen, arrow]

/-- Blanks and line continuations separate other lexemes and mean nothing themselves. -/
def isSkipped : Terminal → Bool
  | blank | continuation => true
  | _ => false

/-- The terminals that a tree keeps; the others only give it its shape. -/
def isKept : Terminal → Bool
  | regexp | string | ruleName | terminalName | comment | number | modifiers | operator | tilde =>
    true
  | _ => false

end Terminal

end GrammarServer
