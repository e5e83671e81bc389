import GrammarServer.Lexeme.Terminal
import GrammarServer.Text.Blank
import GrammarServer.Text.Digit

/-!
# How far a lexeme reaches

For each terminal, whether a lexeme of it starts with a given character, and how many of the
characters that follow belong to it. A lexeme always takes the character it starts with, so a
text is used up after finitely many of them.
-/
namespace GrammarServer.Terminal
open Text

def isSmall (c : Char) : Bool := 'a' ≤ c && c ≤ 'z'
def isLarge (c : Char) : Bool := 'A' ≤ c && c ≤ 'Z'
def isFigure (c : Char) : Bool := '0' ≤ c && c ≤ '9'
def isRuleChar (c : Char) : Bool := c == '_' || isSmall c || isFigure c
def isTerminalChar (c : Char) : Bool := c == '_' || isLarge c || isFigure c
def isRegexpFlag (c : Char) : Bool := ['i', 'm', 's', 'l', 'u', 'x'].contains c

def frontLength (p : Char → Bool) (cs : List Char) : Nat := (cs.takeWhile p).length

def startsWith (p : Char → Bool) : List Char → Bool
  | [] => false
  | c :: _ => p c

/-- A name: an optional underscore, a letter that may start it, then letters that may follow. -/
def nameReach (first next : Char → Bool) (c : Char) (cs : List Char) : Option Nat :=
  if first c then some (frontLength next cs)
  else if c == '_' && startsWith first cs then some (frontLength next cs)
  else none

def stringLength : List Char → Option Nat
  | [] => none
  | '"' :: _ => some 1
  | '\\' :: c :: cs => if c == '\n' then none else (stringLength cs).map (· + 2)
  | c :: cs => if c == '\n' then none else (stringLength cs).map (· + 1)

def stringReach (c : Char) (cs : List Char) : Option Nat :=
  if c == '"' then
    (stringLength cs).map fun n => if startsWith (· == 'i') (cs.drop n) then n + 1 else n
  else none

/-- How far the first slash of a line is that no backslash escapes, the slash included. -/
def openSlash : List Char → Option Nat
  | [] => none
  | '/' :: _ => some 1
  | '\\' :: '/' :: cs => (openSlash cs).map (· + 2)
  | '\\' :: '\\' :: cs => (openSlash cs).map (· + 2)
  | _ :: cs => (openSlash cs).map (· + 1)

/-- How far the last slash of a line is, the slash included. -/
def lastSlash : List Char → Option Nat
  | [] => none
  | c :: cs =>
    match lastSlash cs with
    | some n => some (n + 1)
    | none => if c == '/' then some 1 else none

/-- A regular expression ends at the first slash of its line that is not escaped; when every slash
is escaped, the last one gives up its escape and ends it. -/
def regexpReach (c : Char) (cs : List Char) : Option Nat :=
  if c == '/' && !startsWith (· == '/') cs then
    let line := cs.takeWhile (· != '\n')
    (openSlash line <|> lastSlash line).map fun n => n + frontLength isRegexpFlag (cs.drop n)
  else none

def commentReach (c : Char) (cs : List Char) : Option Nat :=
  if c == '#' || (c == '/' && startsWith (· == '/') cs) then
    some (frontLength (· != '\n') cs)
  else none

/-- A line feed, perhaps after a carriage return, with all blanks that follow. -/
def newlineReach (c : Char) (cs : List Char) : Option Nat :=
  if c == '\n' || (c == '\r' && startsWith (· == '\n') cs) then some (frontLength isBlank cs)
  else none

def newlineBarReach (c : Char) (cs : List Char) : Option Nat :=
  match newlineReach c cs with
  | some n => if startsWith (· == '|') (cs.drop n) then some (n + 1) else none
  | none => none

def numberReach (c : Char) (cs : List Char) : Option Nat :=
  if isDigit c || ((c == '+' || c == '-') && startsWith isDigit cs) then
    some (frontLength isDigit cs)
  else none

def continuationReach (c : Char) (cs : List Char) : Option Nat :=
  let n := frontLength (· == ' ') cs
  if c == '\\' && startsWith (· == '\n') (cs.drop n) then some (n + 1) else none

/-- The signs before a rule's name: one or two of `!` and `?`, the name following at once. -/
def modifiersReach (c : Char) (cs : List Char) : Option Nat :=
  let opensName := startsWith fun d => d == '_' || isSmall d
  if c == '!' then
    if opensName cs then some 0
    else if startsWith (· == '?') cs && opensName (cs.drop 1) then some 1 else none
  else if c == '?' then
    if startsWith (· == '!') cs && opensName (cs.drop 1) then some 1
    else if opensName cs then some 0 else none
  else none

def operatorReach (c : Char) (cs : List Char) : Option Nat :=
  if c == '+' || c == '*' || (c == '?' && !startsWith (fun d => d == '_' || isSmall d) cs) then
    some 0
  else none

def wordReach (word : List Char) (c : Char) (cs : List Char) : Option Nat :=
  if c == '%' && word.isPrefixOf cs then some word.length else none

def charReach (d c : Char) : Option Nat := if c == d then some 0 else none

/-- How many characters of `cs` belong to a lexeme of this terminal that starts with `c`. -/
def reach (c : Char) (cs : List Char) : Terminal → Option Nat
  | regexp => regexpReach c cs
  | string => stringReach c cs
  | ruleName => nameReach isSmall isRuleChar c cs
  | terminalName => nameReach isLarge isTerminalChar c cs
  | comment => commentReach c cs
  | newlineBar => newlineBarReach c cs
  | newline => newlineReach c cs
  | number => numberReach c cs
  | continuation => continuationReach c cs
  | blank =>
    if c == ' ' || c == '\t' then some (frontLength (fun d => d == ' ' || d == '\t') cs) else none
  | overrideWord => wordReach ['o', 'v', 'e', 'r', 'r', 'i', 'd', 'e'] c cs
  | declareWord => wordReach ['d', 'e', 'c', 'l', 'a', 'r', 'e'] c cs
  | extendWord => wordReach ['e', 'x', 't', 'e', 'n', 'd'] c cs
  | ignoreWord => wordReach ['i', 'g', 'n', 'o', 'r', 'e'] c cs
  | importWord => wordReach ['i', 'm', 'p', 'o', 'r', 't'] c cs
  | modifiers => modifiersReach c cs
  | dotDot => if c == '.' && startsWith (· == '.') cs then some 1 else none
  | arrow => if c == '-' && startsWith (· == '>') cs then some 1 else none
  | operator => operatorReach c cs
  | dot => if c == '.' && !startsWith (· == '.') cs then some 0 else none
  | leftBracket => charReach '[' c
  | leftBrace => charReach '\x7b' c
  | leftParen => charReach '(' c
  | bar => charReach '|' c
  | rightBracket => charReach ']' c
  | rightBrace => charReach '\x7d' c
  | rightParen => charReach ')' c
  | tilde => charReach '~' c
  | colon => charReach ':' c
  | comma => charReach ',' c
  | endOfInput => none

/-- The first terminal, in reading order, of which a lexeme starts here, and how far it reaches. -/
def atFront (c : Char) (cs : List Char) : Option (Terminal × Nat) :=
  readingOrder.findSome? fun t => (reach c cs t).map fun n => (t, n)

end GrammarServer.Terminal
