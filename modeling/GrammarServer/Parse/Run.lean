import GrammarServer.Lexeme.Scan
import GrammarServer.Parse.Automaton
import GrammarServer.Parse.Derivation

/-!
# Running the parser

The parser keeps a stack of states, each with the derivation that led to it. A lexeme causes the
reductions that the automaton asks for and is then shifted, or it is refused; reductions made
before a refusal stay made. A reduction is made only if the derivations on top of the stack spell
the right side of its production. After an error the parser goes on: a stray character is skipped,
a refused lexeme is dropped. Only the end of the input cannot be dropped, and when it is refused
the parse fails.
-/
namespace GrammarServer.Parse
open Automaton

/-- States with the derivations that led to them, the latest first. -/
abbrev Stack := List (Nat × Derivation)

namespace Stack

def state : Stack → Nat
  | [] => 0
  | (n, _) :: _ => n

def actions (s : Stack) : List (Terminal × Action) := State.actionsOf automaton[s.state]?

def goto (s : Stack) (p : Phrase) : Option Nat := State.gotoOf p automaton[s.state]?

/-- Replaces the right side of a production, on top of the stack, by its left side. -/
def reduce (s : Stack) (q : Production) : Option Stack :=
  let children := ((s.take q.right.length).map (·.2)).reverse
  let below : Stack := s.drop q.right.length
  if children.map Derivation.symbol = q.right then
    (below.goto q.left).map fun n => (n, .node q children) :: below
  else none

/-- A bound on the reductions before one lexeme: each shortens the stack, climbs one of the few
steps from a phrase to the phrase it makes up, or is one of the few empty ones. -/
def patience (s : Stack) : Nat := 16 * (s.length + 4)

end Stack

inductive Response
  | shifted (s : Stack)
  | accepted (d : Derivation)
  | refused (s : Stack)

def Response.isRefused : Response → Bool
  | refused _ => true
  | _ => false

/-- Takes the action that a lexeme calls for, if there is one. A reduction is only the start: the
lexeme is then offered to the stack that it leaves. -/
def act (x : Lexeme) (again : Stack → Response) (s : Stack) : Option Action → Response
  | none => .refused s
  | some (.shift n) => .shifted ((n, .leaf x) :: s)
  | some (.reduce q) =>
    match s.reduce q with
    | some s' => again s'
    | none => .refused s
  | some .accept =>
    match s with
    | [(_, d)] => .accepted d
    | _ => .refused s

/-- Makes the reductions that come before a lexeme, then takes it. -/
def feedWithin (x : Lexeme) : Nat → Stack → Response
  | 0, s => .refused s
  | fuel + 1, s => act x (feedWithin x fuel) s (s.actions.lookup x.terminal)

def feed (s : Stack) (x : Lexeme) : Response := feedWithin x s.patience s

def takes (s : Stack) (t : Terminal) : Bool := !(feed s ⟨t, [], .origin, .origin⟩).isRefused

def expected (s : Stack) : List Terminal :=
  let listed := s.actions.map (·.1)
  match listed.filter (takes s) with
  | [] => listed
  | taken => taken

/-- The errors met in a source and, if the parse came to its end, the derivation found. -/
structure Outcome where
  errors : List SyntaxError
  result : Except SyntaxError Derivation

def Outcome.report (e : SyntaxError) (o : Outcome) : Outcome := { o with errors := e :: o.errors }

/-- The end of the input, placed where the last lexeme since the last error starts. -/
def endLexeme (latest : Option Lexeme) : Lexeme :=
  let m := match latest with
    | some x => x.start
    | none => .origin
  ⟨.endOfInput, [], m, m⟩

/-- The outcome once the end of the input has been offered. If it was refused it is offered once
more, in vain. -/
def conclude (latest : Option Lexeme) : Response → Outcome
  | .accepted d => ⟨[], .ok d⟩
  | .shifted s | .refused s =>
    ⟨[.refused (endLexeme latest) (expected s)], .error (.refused (endLexeme none) (expected s))⟩

def finish (s : Stack) (latest : Option Lexeme) : Outcome :=
  conclude latest (feed s (endLexeme latest))

/-- Goes on after a lexeme, which is reported and dropped if it was not taken. -/
def proceed (x : Lexeme) (s : Stack) (next : Stack → Option Lexeme → Outcome) :
    Response → Outcome
  | .shifted s => next s (some x)
  -- only the end of the input is accepted, and it never comes here
  | .accepted _ => (next s none).report (.refused x (expected s))
  | .refused s => (next s none).report (.refused x (expected s))

/-- Runs over the pieces of a source that have a meaning. `previous` is the last lexeme read,
`latest` the last one since the last error. -/
def runPieces (source : List Char) : List Piece → Stack → (previous latest : Option Lexeme) →
    Outcome
  | [], s, _, latest => finish s latest
  | .stray c m :: rest, s, previous, _ =>
    (runPieces source rest s previous none).report
      (.stray source c m (Lexeme.offered false) previous)
  | .lexeme x :: rest, s, _, _ =>
    proceed x s (fun s latest => runPieces source rest s (some x) latest) (feed s x)

def recovering (source : String) : Outcome :=
  runPieces source.toList ((Piece.ofSource source).filter Piece.isSignificant) [] none none

/-- The first error, or else the result. -/
def Outcome.first (o : Outcome) : Except SyntaxError Derivation :=
  match o.errors with
  | [] => o.result
  | e :: _ => .error e

def strict (source : String) : Except SyntaxError Derivation := (recovering source).first

end GrammarServer.Parse
