import GrammarServer.Symbol.Flags
import GrammarServer.Symbol.Place
import GrammarServer.Text.Letter

/-!
# Errors about symbols

What can be wrong with the names of a grammar: a name is not defined, defined more than once, or
hidden behind a template parameter of the same name.
-/
namespace GrammarServer

namespace SymbolError

inductive Cause
  | general | notFound | shadowed | multiple | undefinedReference
deriving DecidableEq, Repr

end SymbolError

/-- An error about a name, at the place where the name stands. -/
structure SymbolError where
  cause : SymbolError.Cause
  name : String
  position : Position
deriving DecidableEq, Repr

namespace SymbolError

/-- What a name would be by its letters: terminals are written in capitals. -/
def kindByLetters (name : String) : Kind := if Text.inCapitals name then .terminal else .rule

def message (e : SymbolError) : String :=
  let kind := (kindByLetters e.name).word
  match e.cause with
  | .general => e.name
  | .notFound => "Definition for symbol '" ++ e.name ++ "' not found."
  | .shadowed =>
    "Template parameter '" ++ e.name ++ "' conflicts with existing " ++ kind ++ " '" ++ e.name ++
      "'."
  | .multiple => "Multiple definitions found for " ++ kind ++ " '" ++ e.name ++ "'."
  | .undefinedReference => "No definition found for " ++ kind ++ " '" ++ e.name ++ "'."

def width (e : SymbolError) : Nat :=
  match e.cause with
  | .general => 1
  | _ => e.name.length

end SymbolError

end GrammarServer
