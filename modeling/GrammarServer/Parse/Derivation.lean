import GrammarServer.Lexeme.Basic
import GrammarServer.Parse.Grammar

/-!
# Derivations

A derivation is a tree of productions over lexemes: each node's children spell the right side of
its production, and the lexemes at the leaves, from left to right, are what the phrase at the top
covers.
-/
namespace GrammarServer

inductive Derivation
  | leaf (x : Lexeme)
  | node (q : Production) (children : List Derivation)
deriving Repr

namespace Derivation

def symbol : Derivation → Symbol
  | leaf x => .terminal x.terminal
  | node q _ => .phrase q.left

mutual

def lexemes : Derivation → List Lexeme
  | leaf x => [x]
  | node _ children => lexemesOfAll children

def lexemesOfAll : List Derivation → List Lexeme
  | [] => []
  | d :: rest => lexemes d ++ lexemesOfAll rest

end

mutual

/-- Every node applies a production of the grammar. -/
def Valid : Derivation → Prop
  | leaf _ => True
  | node q children => q ∈ Production.all ∧ children.map symbol = q.right ∧ AllValid children

def AllValid : List Derivation → Prop
  | [] => True
  | d :: rest => Valid d ∧ AllValid rest

end

end Derivation

end GrammarServer
