import GrammarServer.CommandLine

/-!
# The program

Reads the command line and says where the server would be reached; carrying messages is left to
the transport.
-/
namespace GrammarServer

def describeAddress (host : Option String) (port : Option Int) : String :=
  host.getD "[]" ++ ":" ++ (port.map toString).getD "[]"

def describe : CommandLine.Transport → String
  | .io => "standard input and output"
  | .tcp host port => "tcp " ++ describeAddress host port
  | .ws host port => "ws " ++ describeAddress host port

end GrammarServer

open GrammarServer GrammarServer.CommandLine in
def main (arguments : List String) : IO UInt32 := do
  match interpret arguments with
  | .help =>
    IO.print helpText
    return 0
  | .version =>
    IO.print versionText
    return 0
  | .refused r =>
    IO.eprint (refusalText r)
    return 2
  | .failed f =>
    IO.eprintln f.message
    return 1
  | .start transport level =>
    IO.eprintln (serverName ++ " " ++ version ++ " on " ++ describe transport ++
      ", logging from " ++ level)
    return 0
