import GrammarServer.Loading.Naming
import GrammarServer.Loading.Repeats

/-!
# Rules

The rules of a grammar are worked off in their order. A rule that uses a template with certain
arguments for the first time brings a new rule to the end of the line, the template with its
parameters replaced. Templates themselves are not worked off.
-/
namespace GrammarServer.Loading

/-- A rule that is still to be worked off. One that was only declared has no body. -/
structure Rule where
  name : String
  body : Option Body
  keepsAll : Bool

/-- What is known after some rules: the names of patterns, the templates already used, the rules
made for repeated parts, and the rules worked off, in which nothing is repeated any more. -/
structure Progress where
  naming : Naming
  made : List String := []
  repeats : Repeats := {}
  done : List (String × Body) := []

namespace Book

def rules (b : Book) : List Rule :=
  (b.entries.filter fun e => !e.isTerminal && e.parameters.isEmpty).map fun e =>
    ⟨e.name, e.body?, e.keepsAll⟩

def instantiate (b : Book) (template : String) (arguments : List Body) : Option Rule :=
  match b.find? template with
  | some e =>
    e.body?.map fun body =>
      ⟨instanceName template (arguments.map Body.symbolName),
       some (body.substitute (e.parameters.zip arguments)), e.keepsAll⟩
  | none => none

/-- The rules that a rule's use of templates brings, of those not yet made. -/
def newRules (b : Book) (n : Naming) (keepsAll : Bool) (made : List String) :
    List Body → List Rule
  | [] => []
  | .usage template arguments :: rest =>
    match b.instantiate template (Body.allToSymbols n keepsAll arguments) with
    | some r =>
      if made.contains r.name then b.newRules n keepsAll made rest
      else r :: b.newRules n keepsAll (r.name :: made) rest
    | none => b.newRules n keepsAll made rest
  | _ :: rest => b.newRules n keepsAll made rest

end Book

namespace Progress

/-- Works off one rule. Gives the rules that it brings, too. -/
def step (b : Book) (s : Progress) (r : Rule) : Except Refusal (Progress × List Rule) :=
  match r.body with
  | none => .error .declaredRule
  | some body =>
    match body.literalObstacle true with
    | some refusal => .error refusal
    | none => do
      let naming := s.naming.addBody body
      let added := b.newRules naming r.keepsAll s.made (body.parts false)
      let body := body.toSymbols naming r.keepsAll
      let repeats ← s.repeats.addParts r.name r.keepsAll (body.parts false)
      return ({ naming, repeats, made := s.made ++ added.map Rule.name
                done := s.done ++ [(r.name, body.expand repeats r.keepsAll)] }, added)

def nameLimit : Nat := 10000

/-- Works off rules in a line. Templates that bring new rules without end, under ever longer names,
are left at some point: then there is no result. -/
def run (b : Book) : Nat → List Rule → Progress → Except Refusal (Option Progress)
  | _, [], s => .ok (some s)
  | 0, _, _ => .ok none
  | fuel + 1, r :: rest, s => do
    if nameLimit < r.name.length then return none
    let (s, added) ← s.step b r
    run b fuel (rest ++ added) s

end Progress

def ruleLimit : Nat := 10000

/-! ## Rules worked off -/

namespace Body

mutual

def hasNestedName (isInside : Bool) : Body → Bool
  | choice alternatives => anyNestedName isInside alternatives
  | sequence parts => anyNestedName true parts
  | naming part _ => isInside || hasNestedName isInside part
  | optional part => hasNestedName isInside part
  | marked part _ => hasNestedName isInside part
  | times part _ => hasNestedName isInside part
  | _ => false

def anyNestedName (isInside : Bool) : List Body → Bool
  | [] => false
  | b :: rest => hasNestedName isInside b || anyNestedName isInside rest

end

mutual

def ownNames : Body → List String
  | choice alternatives => ownNamesOfAll alternatives
  | naming _ name => [name]
  | _ => []

def ownNamesOfAll : List Body → List String
  | [] => []
  | b :: rest => ownNames b ++ ownNamesOfAll rest

end

def ruleNames (b : Body) : List String :=
  b.symbols.filterMap fun
    | .rule name => some name
    | _ => none

def terminalNames (b : Body) : List String :=
  b.symbols.filterMap fun
    | .terminal name _ => some name
    | _ => none

end Body

def namingObstacle (name : String) (body : Body) : Option Refusal :=
  match body.ownNames with
  | given :: _ =>
    if Symbol.isHidden name then some (.aliasOfSpliced name given)
    else if body.hasNestedName false then some .nestedAlias else none
  | [] => if body.hasNestedName false then some .nestedAlias else none

abbrev Uses := String × List String

def isUsed (rules : List Uses) (name : String) : Bool :=
  name == "start" || rules.any fun (other, names) => other != name && names.contains name

/-- Leaves out the rules that nothing uses, as long as there are any. -/
def usedRules : Nat → List Uses → List Uses
  | 0, rules => rules
  | fuel + 1, rules =>
    let kept := rules.filter fun (name, _) => isUsed rules name
    if kept.length == rules.length then rules else usedRules fuel kept

namespace Progress

/-- The rules worked off, and after them those made for repeated parts. -/
def rules (s : Progress) : List (String × Body) :=
  s.done ++ s.repeats.made.map fun x => (x.name, x.body)

def used (s : Progress) : List Uses :=
  usedRules s.rules.length (s.rules.map fun (name, body) => (name, body.ruleNames))

/-- The first obstacle in the rules: a misplaced name, or the use of a rule that there is not; the
last use is that of the start. -/
def ruleObstacle (s : Progress) : Option Refusal :=
  let isRule (name : String) : Bool := s.rules.any fun (other, _) => other == name
  (s.rules.findSome? fun (name, body) => namingObstacle name body)
    <|> (s.used.flatMap (fun (_, names) => names) ++ ["start"]).findSome? fun name =>
          if isRule name then none else some (.undefinedRule name)

def terminalNames (s : Progress) : List String :=
  let used := s.used.map (·.1)
  (s.rules.filter fun (name, _) => used.contains name).flatMap fun (_, body) => body.terminalNames

end Progress

/-- The first obstacle in the terminals that rules use or that are ignored, those made for patterns
in rules included. -/
def Book.matchObstacle (b : Book) (s : Progress) : Option Refusal :=
  let names := s.terminalNames
  let needed (name : String) : Bool := names.contains name || b.ignored.contains name
  (s.naming.known.reverse.findSome? fun (p, name) =>
      if needed name && p.width.least == 0 then some (.emptyMatch name p.display) else none)
    <|> match b.ignored.filter fun name => !s.naming.isTaken name with
        | [] => none
        | names => some (.declaredIgnored names.eraseDups)

end GrammarServer.Loading
