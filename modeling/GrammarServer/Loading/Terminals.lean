import GrammarServer.Loading.Book

/-!
# Terminals

A terminal is resolved into one pattern: it may use other terminals, but no rules and not itself.
-/
namespace GrammarServer.Loading

def readBounds : List String → Except Refusal (List Int)
  | [] => .ok []
  | s :: rest =>
    match Text.readInteger s with
    | .ok n => (readBounds rest).map (n :: ·)
    | .error (.tooLong digits) => .error (.boundTooLong digits)
    | .error .notNumeral => readBounds rest

namespace Pattern

/-- A pattern repeated as often as the bounds say. The lower bound must not exceed the upper. -/
def within (p : Pattern) : List Int → Except Refusal Pattern
  | [n] => .ok (p.repeated ("\x7b" ++ toString n ++ "\x7d"))
  | [low, high] =>
    if high < low then .error (.badRange p.display low high)
    else .ok (p.repeated ("\x7b" ++ toString low ++ "," ++ toString high ++ "\x7d"))
  | _ => .ok p

end Pattern

namespace Body

mutual

def resolve (known : String → Option Body) : Body → Body
  | symbol s => (known s.name).getD (symbol s)
  | pattern p => pattern p
  | usage template arguments => usage template (resolveAll known arguments)
  | choice alternatives => choice (resolveAll known alternatives)
  | sequence parts => sequence (resolveAll known parts)
  | naming part name => naming (resolve known part) name
  | optional part => optional (resolve known part)
  | marked part mark => marked (resolve known part) mark
  | times part bounds => times (resolve known part) bounds

def resolveAll (known : String → Option Body) : List Body → List Body
  | [] => []
  | b :: rest => resolve known b :: resolveAll known rest

end

mutual

def toPattern : Body → Except Refusal Pattern
  | symbol _ => .ok .anything
  | pattern p => p
  | usage _ _ => .ok .anything
  | choice alternatives => do return .asAlternatives (← toPatterns alternatives)
  | sequence parts => do return .inSequence (← toPatterns parts)
  | naming _ _ => .error .aliasInTerminal
  | optional part => do return (← toPattern part).repeated "?"
  | marked part mark => do return (← toPattern part).repeated mark
  | times part bounds => do
    let p ← toPattern part
    p.within (← readBounds bounds)

def toPatterns : List Body → Except Refusal (List Pattern)
  | [] => .ok []
  | b :: rest => do
    let p ← toPattern b
    let ps ← toPatterns rest
    return p :: ps

end

def isEmpty : Body → Bool
  | choice [sequence []] => true
  | choice [naming (sequence []) _] => true
  | _ => false

/-- The first literal of a body, in the order of its parts, that does not write a pattern. -/
def literalObstacle (isWrapped : Bool) (b : Body) : Option Refusal :=
  (b.parts isWrapped).findSome? fun
    | pattern (.error refusal) => some refusal
    | _ => none

end Body

namespace Book

def terminals (b : Book) : List Entry := b.entries.filter (·.isTerminal)

def terminal? (b : Book) (name : String) : Option Entry :=
  (b.entries ++ b.unseen).find? fun e => e.isTerminal && e.name == name

def resolved (b : Book) : Nat → Body → Body
  | 0, body => body
  | depth + 1, body =>
    body.resolve fun name => ((b.terminal? name).bind Entry.body?).map (b.resolved depth)

/-- More than the number of terminals that can use one another in turn. -/
def depth (b : Book) : Nat := b.entries.length + b.unseen.length

/-- The obstacle that a symbol in a terminal is to resolving it. -/
def terminalObstacle (b : Book) (e : Entry) : Symbol → Option Refusal
  | .rule name => some (.ruleInTerminal name e.name)
  | .terminal name _ =>
    match b.terminal? name with
    | none => some (.undefinedTerminal name)
    | some used => if used.body?.isNone then some .declaredInTerminal else none
  | .vacant => none

def usedNames (b : Book) (name : String) : List String :=
  match (b.terminal? name).bind Entry.body? with
  | some body => body.symbols.map Symbol.name
  | none => []

/-- The terminals that can be reached from names in at most a number of steps. -/
def reachable (b : Book) : Nat → List String → List String
  | 0, names => names
  | steps + 1, names =>
    let further := (names.flatMap b.usedNames).filter fun name => !names.contains name
    if further.isEmpty then names else b.reachable steps (names ++ further.eraseDups)

def isRecursive (b : Book) (e : Entry) : Bool :=
  (b.reachable b.depth (b.usedNames e.name)).contains e.name

def resolutionObstacle (b : Book) : Option Refusal :=
  (b.terminals.findSome? fun e =>
      e.body?.bind fun body => body.symbols.findSome? (b.terminalObstacle e))
    <|> ((b.terminals.find? b.isRecursive).map fun e => .recursiveTerminal e.name)

def patterns (b : Book) : Except Refusal (List (String × Pattern)) := do
  let bodies := b.terminals.filterMap fun e => e.body?.map fun body => (e.name, body)
  match bodies.find? fun (_, body) => body.isEmpty with
  | some (name, _) => .error (.emptyTerminal name)
  | none =>
    bodies.mapM fun (name, body) => do
      let body := b.resolved b.depth body
      match body.literalObstacle true with
      | some refusal => .error refusal
      | none => return (name, ← body.toPattern)

end Book

end GrammarServer.Loading
