import GrammarServer.Node.Build
import GrammarServer.Parse.Run

/-!
# Reading a file

A source that parses without an error, as a node.
-/
namespace GrammarServer

inductive ReadError
  | parse (e : SyntaxError)
  | build (f : Fault)

namespace ReadError

def message : ReadError → String
  | parse e => e.message
  | build f => f.message

end ReadError

def Node.ofSource (source : String) : Except ReadError Node :=
  match Parse.strict source with
  | .error e => .error (.parse e)
  | .ok d =>
    match d.tree.build with
    | .ok n => .ok n
    | .error f => .error (.build f)

end GrammarServer
