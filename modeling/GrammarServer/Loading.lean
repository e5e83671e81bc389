import GrammarServer.Document
import GrammarServer.Loading.Imports
import GrammarServer.Loading.Rules
import GrammarServer.Loading.Uses

/-!
# Loading a grammar as a whole

Whether a parser could be made from a file. The statements give definitions; then terminals are
resolved, uses are checked against definitions, terminals are made into patterns and rules are
worked off, and last the start rule is looked for. The first obstacle is the verdict.

This loader knows the obstacles that `Refusal` lists. It does not see rules that collide in the
tables of the parser or patterns that are no regular expressions, and it says of a file that cannot
be read what a document says of it. Documents and sessions are analyzed with any loader.
-/
namespace GrammarServer

namespace Loading

def Book.makingObstacle (b : Book) : Option Refusal :=
  match b.patterns with
  | .error refusal => some refusal
  | .ok terminals =>
    match Progress.run b ruleLimit b.rules { naming := .ofTerminals terminals } with
    | .error refusal => some refusal
    | .ok none => none
    | .ok (some s) => s.ruleObstacle <|> b.matchObstacle s

def verdict (source : String) : Option Refusal :=
  match Book.ofSource source with
  | .error refusal => some refusal
  | .ok b => b.resolutionObstacle <|> b.useObstacle <|> b.makingObstacle

def Refusal.error : Refusal → LoadError
  | unreadable e => { line := e.line, column := e.column, message := e.message }
  | refusal => { message := refusal.message }

def loader : Loader := fun _ source => (verdict source).map Refusal.error

end Loading

/-- A switch stands for the loader of the server or for none. -/
def Loader.ofSwitch (on : Bool) : Loader := if on then Loading.loader else .idle

instance : Coe Bool Loader := ⟨Loader.ofSwitch⟩

end GrammarServer
