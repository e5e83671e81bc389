import GrammarServer.Loading.Book
import GrammarServer.Loading.Reading

/-!
# Statements

What the statements of a file say: definitions, names to ignore or to declare, and imports.
-/
namespace GrammarServer.Loading

inductive Way
  | define | override | extend

/-- An import from another file: names of that file, with the names that they get. -/
structure Import where
  isRelative : Bool
  path : List String
  names : List (String × String)

inductive Statement
  /-- A definition. The priority of a terminal must be a number that can be read. -/
  | definition (way : Way) (e : Entry) (priority : Option String)
  | ignore (body : Body)
  | declare (symbols : List Symbol)
  | imports (i : Import)

namespace Statement

/-! ## From trees -/

def texts : Node → List String
  | .tree _ _ children => children.map Node.toText
  | n => [n.toText]

/-- The entry that a rule or a terminal gives, with the priority of a terminal. -/
def entryOf? : Node → Option (Entry × Option String)
  | .tree "rule" _ [modifiers, name, parameters, _, body] =>
    some ({ name := name.toText, isTerminal := false, parameters := texts parameters
            body? := some (.ofTree body)
            keepsAll := (texts modifiers).any fun signs => signs.toList.contains '!' }, none)
  | .tree "term" _ [name, body] =>
    some ({ name := name.toText, isTerminal := true, body? := some (.ofTree body) }, none)
  | .tree "term" _ [name, priority, body] =>
    some ({ name := name.toText, isTerminal := true, body? := some (.ofTree body) },
      some priority.toText)
  | _ => none

def definition? (way : Way) (tree : Node) : Option Statement :=
  (entryOf? tree).map fun (e, priority) => .definition way e priority

/-- An import of one name, under its own or another name, or of several names. -/
def import? : List Node → Option Import
  | [.tree label _ path] =>
    let names := path.map Node.toText
    let name := names.getLastD ""
    some ⟨label == "import_rel", names.dropLast, [(name, name)]⟩
  | [.tree label _ path, .tree _ _ names] =>
    some ⟨label == "import_rel", path.map Node.toText, names.map fun n => (n.toText, n.toText)⟩
  | [.tree label _ path, name] =>
    let names := path.map Node.toText
    some ⟨label == "import_rel", names.dropLast, [(names.getLastD "", name.toText)]⟩
  | _ => none

def symbol? : Node → Option Symbol
  | .tree _ _ [.token t] =>
    match Body.ofToken t with
    | .symbol s => some s
    | _ => none
  | _ => none

def ofTree? : Node → Option Statement
  | .tree "override" _ [defined] => definition? .override defined
  | .tree "extend" _ [defined] => definition? .extend defined
  | .tree "ignore" _ [body] => some (.ignore (.ofTree body))
  | .tree "declare" _ symbols => some (.declare (symbols.filterMap symbol?))
  | .tree "import" _ children => (import? children).map .imports
  | tree => definition? .define tree

def ofSource (source : String) : Except Refusal (List Statement) := do
  return (← Reading.trees source).filterMap ofTree?

end Statement

namespace Book

def ignoredName? : Body → Option String
  | .choice [.sequence [.symbol (.terminal name _)]] => some name
  | _ => none

def addIgnored (b : Book) (body : Body) : Book :=
  match ignoredName? body with
  | some name => { b with ignored := b.ignored ++ [name] }
  | none =>
    let name := "__IGNORE_" ++ toString b.ignored.length
    { (b.put { name, isTerminal := true, body? := some body }) with
      ignored := b.ignored ++ [name] }

def addEntry (b : Book) (e : Entry) : Way → Except Refusal Book
  | .define => b.define e
  | .override => b.override e
  | .extend => b.extend e

/-- Adds what a statement other than an import says. In an imported file names change, and nothing
is ignored. -/
def addStatement (newName : Option (String → String)) (b : Book) :
    Statement → Except Refusal Book
  | .definition way e priority =>
    match priority.map Text.readInteger with
    | some (.error (.tooLong digits)) => .error (.priorityTooLong digits)
    | _ => b.addEntry (e.rename (newName.getD id)) way
  | .ignore body => if newName.isSome then .ok b else .ok (b.addIgnored body)
  | .declare symbols =>
    symbols.foldlM (fun b s =>
      let isTerminal := match s with
        | .terminal .. => true
        | _ => false
      b.define { name := (newName.getD id) s.name, isTerminal, body? := none }) b
  | .imports _ => .ok b

end Book

end GrammarServer.Loading
