import GrammarServer.Loading.Library
import GrammarServer.Loading.Statement

/-!
# Imports

An import takes definitions out of another file. What is named in it gets its own or a new name;
whatever else comes along, because the rules imported use it, gets a name that tells of its file.
Imports from one file are put together; of two new names for one definition the later one stands. A
name that the other file does not define is passed over.
-/
namespace GrammarServer.Loading

namespace Import

/-- Gives a new name to something imported, or another one if it has one. -/
def give (source given : String) : List (String × String) → List (String × String)
  | [] => [(source, given)]
  | (name, old) :: rest =>
    if name == source then (name, given) :: rest else (name, old) :: give source given rest

def giveAll (known names : List (String × String)) : List (String × String) :=
  names.foldl (fun known (source, given) => give source given known) known

def merge (i : Import) : List Import → List Import
  | [] => [{ i with names := giveAll [] i.names }]
  | other :: rest =>
    if other.path == i.path && other.isRelative == i.isRelative then
      { other with names := giveAll other.names i.names } :: rest
    else other :: merge i rest

/-- The imports that statements make, each file once. -/
def gather (statements : List Statement) : Except Refusal (List Import) :=
  statements.foldlM (fun all statement =>
    match statement with
    | .imports i =>
      if i.path.isEmpty then .error (.nothingImported ((i.names.map (·.1)).headD ""))
      else .ok (i.merge all)
    | _ => .ok all) []

def filePath (i : Import) : String := "/".intercalate i.path ++ ".lark"

def newName (i : Import) (name : String) : String :=
  match i.names.lookup name with
  | some given => given
  | none =>
    let file := "__".intercalate i.path
    match name.toList with
    | '_' :: rest => "_" ++ file ++ "__" ++ String.ofList rest
    | _ => file ++ "__" ++ name

end Import

namespace Book

/-- The names that can be reached from names through rules, in at most a number of steps. -/
def neededBy (b : Book) : Nat → List String → List String
  | 0, names => names
  | steps + 1, names =>
    let rules := b.entries.filter fun e => !e.isTerminal && names.contains e.name
    let further := (rules.flatMap Entry.usedNames).filter fun name => !names.contains name
    if further.isEmpty then names else b.neededBy steps (names ++ further.eraseDups)

/-- The part of an imported book that is needed for some names. Terminals beyond it stay unseen. -/
def onlyNeeded (b : Book) (names : List String) : Book :=
  let needed := b.neededBy b.entries.length names
  let (seen, rest) := b.entries.partition fun e => needed.contains e.name
  { b with entries := seen, unseen := b.unseen ++ rest.filter (·.isTerminal) }

def takeOver (b : Book) (i : Import) (imported : Book) : Except Refusal Book :=
  match imported.entries.find? fun e => b.defines e.name with
  | some e => .error (.importedTwice e.name i.filePath)
  | none =>
    let mark (e : Entry) : Entry := { e with isImported := true }
    .ok { b with entries := b.entries ++ imported.entries.map mark
                 unseen := b.unseen ++ imported.unseen.map mark }

/-- The definitions of a file, those that it imports first. In an imported file names change. A file
imports from others to a certain depth. -/
def ofFile : Nat → Option (String → String) → String → Except Refusal Book
  | 0, _, _ => .ok {}
  | depth + 1, newName, source => do
    let statements ← Statement.ofSource source
    let imports ← Import.gather statements
    let imported ← imports.foldlM (fun (b : Book) i =>
      match if i.isRelative then none else Library.file? i.path with
      | none => .error (.missingFile i.filePath)
      | some text => do
        let name (s : String) : String := (newName.getD id) (i.newName s)
        let other ← ofFile depth (some name) text
        b.takeOver i (other.onlyNeeded (i.names.map fun (s, _) => name s))) {}
    statements.foldlM (addStatement newName) imported

def importDepth : Nat := 4

def ofSource (source : String) : Except Refusal Book := ofFile importDepth none source

end Book

end GrammarServer.Loading
