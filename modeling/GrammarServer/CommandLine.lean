import GrammarServer.Session

/-!
# The command line

Options may stand in any order and may be shortened as long as no other option starts the same
way. A value follows its option, or is attached with an equals sign; a separator that is attached
leaves the option without a value. Options of one letter may be written together. All options are
recognized before any of them takes effect; then they take effect from left to right.
-/
namespace GrammarServer.CommandLine

inductive Switch
  | help | version | stdio | tcp | ws | host | port | logLevel
deriving DecidableEq, Repr

namespace Switch

def spellings : List (String × Switch) :=
  [("-h", help), ("--help", help), ("-v", version), ("--version", version), ("--stdio", stdio),
   ("--tcp", tcp), ("--ws", ws), ("--host", host), ("--port", port), ("--log-level", logLevel)]

def takesValue : Switch → Bool
  | host | port | logLevel => true
  | _ => false

def title (s : Switch) : String :=
  "/".intercalate ((spellings.filter fun entry => entry.2 == s).map (·.1))

end Switch

def levels : List String := ["DEBUG", "INFO", "WARNING", "ERROR", "CRITICAL"]

/-- Where the server is reached. A host or port may have been left without a value. -/
inductive Transport
  | io
  | tcp (host : Option String) (port : Option Int)
  | ws (host : Option String) (port : Option Int)
deriving DecidableEq, Repr

inductive Refusal
  | ambiguous (argument : String) (matching : List String)
  | ignoredValue (s : Switch) (value : String)
  | missingValue (s : Switch)
  | notInteger (value : String)
  | notLevel (value : String)
  | unrecognized (arguments : List String)

inductive Outcome
  | start (transport : Transport) (level : String)
  /-- The line is in order, but the level was left without a value. -/
  | failed (f : Fault)
  | help
  | version
  | refused (r : Refusal)

/-! ## Texts -/

def usage : String :=
  "usage: lark-parser-language-server [-h] [-v] [--stdio] [--tcp] [--ws]\n" ++
  "                                   [--host HOST] [--port PORT]\n" ++
  "                                   [--log-level \x7bDEBUG,INFO,WARNING,ERROR,CRITICAL\x7d]\n"

def helpText : String :=
  usage ++ "\nLark Language Server\n\noptions:\n" ++
  "  -h, --help            show this help message and exit\n" ++
  "  -v, --version         Show the version and exit\n" ++
  "  --stdio               Use stdio for communication (default)\n" ++
  "  --tcp                 Use TCP server instead of stdio\n" ++
  "  --ws                  Use WebSocket server instead of stdio\n" ++
  "  --host HOST           Bind to this address\n" ++
  "  --port PORT           Bind to this port\n" ++
  "  --log-level \x7bDEBUG,INFO,WARNING,ERROR,CRITICAL\x7d\n" ++
  "                        Set the logging level\n"

def versionText : String := "Lark Parser Language Server " ++ GrammarServer.version ++ "\n"

namespace Refusal

def about (s : Switch) (message : String) : String := "argument " ++ s.title ++ ": " ++ message

def message : Refusal → String
  | ambiguous argument matching =>
    "ambiguous option: " ++ argument ++ " could match " ++ ", ".intercalate matching
  | ignoredValue s value => about s ("ignored explicit argument " ++ Text.quoted value)
  | missingValue s => about s "expected one argument"
  | notInteger value => about .port ("invalid int value: " ++ Text.quoted value)
  | notLevel value =>
    about .logLevel ("invalid choice: " ++ Text.quoted value ++ " (choose from " ++
      ", ".intercalate (levels.map Text.quoted) ++ ")")
  | unrecognized arguments => "unrecognized arguments: " ++ " ".intercalate arguments

end Refusal

def refusalText (r : Refusal) : String := usage ++ serverName ++ ": error: " ++ r.message ++ "\n"

/-! ## Recognizing options -/

/-- What stands between the options and the values that only look like options. -/
def separator : String := "--"

/-- An argument, by the part that it plays. A value may be attached to an option. -/
inductive Part
  | value (s : String)
  | separator
  | unknown (s : String)
  | option (s : Switch) (isLong : Bool) (attached : Option String)

def splitEquals (s : String) : String × Option String :=
  let front := s.toList.takeWhile (· != '=')
  match s.toList.drop front.length with
  | [] => (s, none)
  | _ :: value => (String.ofList front, some (String.ofList value))

def looksNegative (s : String) : Bool :=
  let cs := match s.toList.reverse with
    | '\n' :: rest => rest.reverse
    | _ => s.toList
  match cs with
  | '-' :: rest =>
    let whole := rest.takeWhile Text.isDigit
    match rest.drop whole.length with
    | [] => !whole.isEmpty
    | '.' :: fraction => !fraction.isEmpty && fraction.all Text.isDigit
    | _ => false
  | _ => false

/-- The options of which an argument with two dashes is the start. -/
def abbreviated (front : String) : List (String × Switch) :=
  Switch.spellings.filter fun entry => front.isPrefixOf entry.1

def longPart (argument : String) : Except Refusal (Option Part) :=
  let (front, value) := splitEquals argument
  match abbreviated front with
  | [] => .ok none
  | [(_, s)] => .ok (some (.option s true value))
  | several => .error (.ambiguous argument (several.map (·.1)))

def shortPart (argument : String) : Option Part :=
  let front := String.ofList (argument.toList.take 2)
  match Switch.spellings.lookup front with
  | some s => some (.option s false (some (String.ofList (argument.toList.drop 2))))
  | none => none

def otherPart (argument : String) : Part :=
  if looksNegative argument || argument.toList.contains ' ' then .value argument
  else .unknown argument

def isLong (spelling : String) : Bool := "--".isPrefixOf spelling

def recognize (argument : String) : Except Refusal Part :=
  match argument.toList with
  | [] => .ok (.value argument)
  | '-' :: rest =>
    match Switch.spellings.lookup argument with
    | some s => .ok (.option s (isLong argument) none)
    | none =>
      if rest.isEmpty then .ok (.value argument)
      else
        let (front, value) := splitEquals argument
        match value, Switch.spellings.lookup front with
        | some v, some s => .ok (.option s (isLong front) (some v))
        | _, _ =>
          if isLong argument then do
            return (← longPart argument).getD (otherPart argument)
          else .ok ((shortPart argument).getD (otherPart argument))
  | _ => .ok (.value argument)

/-- The parts of a command line. After a separator everything is a value. -/
def recognizeAll : List String → Except Refusal (List Part)
  | [] => .ok []
  | argument :: rest =>
    if argument == separator then .ok (.separator :: rest.map .value)
    else do
      let part ← recognize argument
      let parts ← recognizeAll rest
      return part :: parts

/-! ## Taking effect -/

structure Settings where
  tcp : Bool := false
  ws : Bool := false
  host : Option String := some "127.0.0.1"
  port : Option Int := some 2087
  level : Option String := some "INFO"

def Settings.transport (s : Settings) : Transport :=
  if s.tcp then .tcp s.host s.port else if s.ws then .ws s.host s.port else .io

def Settings.outcome (s : Settings) : Outcome :=
  match s.level with
  | some level => .start s.transport level
  | none => .failed .listAsName

def assign (s : Settings) (value : String) : Switch → Except Refusal Settings
  | .host => .ok { s with host := some value }
  | .port =>
    match Text.readInteger value with
    | .ok n => .ok { s with port := some n }
    | .error _ => .error (.notInteger value)
  | .logLevel =>
    if levels.contains value then .ok { s with level := some value } else .error (.notLevel value)
  | _ => .ok s

def clear (s : Settings) : Switch → Settings
  | .host => { s with host := none }
  | .port => { s with port := none }
  | .logLevel => { s with level := none }
  | _ => s

def assignAttached (s : Settings) (value : String) (switch : Switch) : Except Refusal Settings :=
  if value == separator then .ok (clear s switch) else assign s value switch

/-- Checks the letters written after an option of one letter: each must be such an option. -/
def checkLetters : Switch → List Char → Option Refusal
  | s, [] => some (.ignoredValue s "")
  | s, c :: rest =>
    match Switch.spellings.lookup (String.ofList ['-', c]) with
    | none => some (.ignoredValue s (String.ofList (c :: rest)))
    | some next => if rest.isEmpty then none else checkLetters next rest

/-- Why the value attached to an option without values is refused, if it is. -/
def refuseAttached (s : Switch) (isLong : Bool) (value : String) : Option Refusal :=
  if isLong then some (.ignoredValue s value) else checkLetters s value.toList

/-- Lets an option without values take effect: it ends the run or changes the settings. -/
def apply (s : Settings) : Switch → Settings ⊕ Outcome
  | .help => .inr .help
  | .version => .inr .version
  | .tcp => .inl { s with tcp := true }
  | .ws => .inl { s with ws := true }
  | _ => .inl s

/-- Lets the parts take effect from left to right, keeping those that nobody wants. -/
def run : List Part → Settings → List String → Outcome
  | [], s, [] => s.outcome
  | [], _, unwanted => .refused (.unrecognized unwanted)
  | .value v :: rest, s, unwanted => run rest s (unwanted ++ [v])
  | .separator :: rest, s, unwanted => run rest s (unwanted ++ [separator])
  | .unknown v :: rest, s, unwanted => run rest s (unwanted ++ [v])
  | .option switch isLong attached :: rest, s, unwanted =>
    if switch.takesValue then
      match attached, rest with
      | some v, rest =>
        match assignAttached s v switch with
        | .ok s => run rest s unwanted
        | .error r => .refused r
      | none, .value v :: rest =>
        match assign s v switch with
        | .ok s => run rest s unwanted
        | .error r => .refused r
      | none, _ => .refused (.missingValue switch)
    else
      match attached.bind (refuseAttached switch isLong) with
      | some r => .refused r
      | none =>
        match apply s switch with
        | .inl s => run rest s unwanted
        | .inr outcome => outcome

def interpret (arguments : List String) : Outcome :=
  match recognizeAll arguments with
  | .ok parts => run parts {} []
  | .error r => .refused r

end GrammarServer.CommandLine
