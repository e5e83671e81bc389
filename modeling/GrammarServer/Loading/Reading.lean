import GrammarServer.Loading.Refusal
import GrammarServer.Node.Build
import GrammarServer.Parse.Run

/-!
# Reading a file to load it

A file that is to be loaded is read in another way than one that is edited. A comment means nothing
and may stand anywhere between lexemes; it takes with it the blanks and line breaks before it, so
that alternatives can go on after it. A regular expression may run over several lines. Every
statement must end with a line break, and the first error is the last.
-/
namespace GrammarServer.Loading.Reading
open Terminal

/-! ## Lexemes -/

def commentReach (c : Char) (cs : List Char) : Option Nat :=
  let n := frontLength Text.isBlank (c :: cs)
  match (c :: cs).drop n with
  | '#' :: rest => some (n + frontLength (· != '\n') rest)
  | '/' :: '/' :: rest => some (n + 1 + frontLength (· != '\n') rest)
  | _ => none

/-- How far the first quote is that no backslash escapes, the quote included. -/
def openQuote : List Char → Option Nat
  | [] => none
  | '"' :: _ => some 1
  | '\\' :: '"' :: cs => (openQuote cs).map (· + 2)
  | '\\' :: '\\' :: cs => (openQuote cs).map (· + 2)
  | _ :: cs => (openQuote cs).map (· + 1)

def lastQuote : List Char → Option Nat
  | [] => none
  | c :: cs =>
    match lastQuote cs with
    | some n => some (n + 1)
    | none => if c == '"' then some 1 else none

/-- A quoted text ends at the first quote of its line that is not escaped; when every quote is
escaped, the last one gives up its escape and ends it. -/
def stringReach (c : Char) (cs : List Char) : Option Nat :=
  if c == '"' then
    let line := cs.takeWhile (· != '\n')
    (openQuote line <|> lastQuote line).map fun n =>
      if startsWith (· == 'i') (cs.drop n) then n + 1 else n
  else none

/-- As in an edited file, but lines do not matter. -/
def regexpReach (c : Char) (cs : List Char) : Option Nat :=
  if c == '/' && !startsWith (· == '/') cs then
    (openSlash cs <|> lastSlash cs).map fun n => n + frontLength isRegexpFlag (cs.drop n)
  else none

def reach (c : Char) (cs : List Char) : Terminal → Option Nat
  | comment => commentReach c cs
  | string => stringReach c cs
  | regexp => regexpReach c cs
  | t => Terminal.reach c cs t

def atFront (c : Char) (cs : List Char) : Option (Terminal × Nat) :=
  readingOrder.findSome? fun t => (reach c cs t).map fun n => (t, n)

def isSignificant : Piece → Bool
  | .lexeme x => !x.terminal.isSkipped && x.terminal != comment
  | .stray .. => true

/-! ## Statements -/

mutual

def items : Derivation → List Derivation
  | .leaf _ => []
  | .node q children =>
    match q.left with
    | .item => children
    | .start | .list => itemsOfAll children
    | _ => []

def itemsOfAll : List Derivation → List Derivation
  | [] => []
  | d :: rest => items d ++ itemsOfAll rest

end

def areEnded : List Derivation → Bool
  | [] => true
  | .leaf _ :: rest => areEnded rest
  | .node .. :: .leaf _ :: rest => areEnded rest
  | .node .. :: _ => false

def trees (source : String) : Except Refusal (List Node) :=
  let text := source ++ "\n"
  let pieces := (Piece.cut atFront 0 .origin text.toList).filter isSignificant
  match (Parse.runPieces text.toList pieces [] none none).first with
  | .error e => .error (.unreadable e)
  | .ok d =>
    if areEnded (items d) then
      match d.tree with
      | .tree _ _ statements => .ok statements
      | _ => .ok []
    else .error .unended

end GrammarServer.Loading.Reading
