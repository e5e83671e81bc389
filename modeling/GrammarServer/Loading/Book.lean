import GrammarServer.Loading.Body

/-!
# The definitions of a grammar

Names are defined, overridden and extended in the order of the statements. A name has a body, or
it was only declared. A terminal that comes from another file goes on using the terminals of that
file as it found them: those that the importing file does not get to see are kept out of its sight,
and one that it overrides is kept for those that used it before.
-/
namespace GrammarServer.Loading

structure Entry where
  name : String
  isTerminal : Bool
  parameters : List String := []
  /-- The body, unless the name was only declared. -/
  body? : Option Body
  /-- Whether the rule leaves all its terminals in a tree. -/
  keepsAll : Bool := false
  isImported : Bool := false

namespace Entry

def rename (f : String → String) (e : Entry) : Entry :=
  { e with name := f e.name, parameters := e.parameters.map f, body? := e.body?.map (·.rename f) }

def renameBody (f : String → String) (e : Entry) : Entry :=
  { e with body? := e.body?.map (·.rename f) }

def usedNames (e : Entry) : List String :=
  match e.body? with
  | some body => (body.names false).filter fun name => !e.parameters.contains name
  | none => []

end Entry

structure Book where
  entries : List Entry := []
  /-- Terminals that only imported terminals use. -/
  unseen : List Entry := []
  ignored : List String := []

namespace Book

def find? (b : Book) (name : String) : Option Entry := b.entries.find? fun e => e.name == name

def defines (b : Book) (name : String) : Bool := (b.find? name).isSome

def put (b : Book) (e : Entry) : Book := { b with entries := b.entries ++ [e] }

def replace (b : Book) (e : Entry) : Book :=
  { b with entries := b.entries.map fun old => if old.name == e.name then e else old }

def define (b : Book) (e : Entry) : Except Refusal Book :=
  if b.defines e.name then .error (.definedTwice e.isTerminal e.name) else .ok (b.put e)

/-- Keeps an imported terminal for those that came with it, under a name that nobody can write. -/
def hide (b : Book) (e : Entry) : Book :=
  let hidden := e.name ++ "'"
  let turn (name : String) : String := if name == e.name then hidden else name
  let turnUses (other : Entry) : Entry :=
    if other.isImported && other.isTerminal then other.renameBody turn else other
  { b with entries := b.entries.map turnUses
           unseen := (b.unseen ++ [{ e with name := hidden }]).map turnUses }

def override (b : Book) (e : Entry) : Except Refusal Book :=
  match b.find? e.name with
  | none => .error (.nothingToOverride e.isTerminal e.name)
  | some old =>
    .ok ((if old.isImported && old.isTerminal then b.hide old else b).replace e)

/-- Puts another body in front of the alternatives of a definition. -/
def extend (b : Book) (e : Entry) : Except Refusal Book :=
  match b.find? e.name with
  | none => .error (.nothingToExtend e.isTerminal e.name)
  | some old =>
    if e.isTerminal != old.isTerminal then .error (.otherSort e.isTerminal e.name)
    else if e.parameters != old.parameters then .error (.otherParameters e.isTerminal e.name)
    else
      match old.body?, e.body? with
      | none, _ => .error (.declaredExtended e.isTerminal e.name)
      | some (.choice alternatives), some added =>
        .ok (b.replace { old with body? := some (.choice (added :: alternatives)) })
      | _, _ => .ok b

end Book

end GrammarServer.Loading
