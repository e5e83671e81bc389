import GrammarServer.Symbol.Check
import GrammarServer.Symbol.Collect

/-!
# The symbol table

The definitions and references collected from grammar files, by name, with the errors found in
them. Two listings of the whole table are kept once they are not empty.
-/
namespace GrammarServer

/-- An entry in the listing of all definitions: a definition, or a name with the children that a
rule has under it. -/
inductive Listed
  | definition (d : Definition)
  | children (name : String) (ds : List Definition)

structure SymbolTable where
  definitions : Catalog Definition := .empty
  references : Catalog Reference := .empty
  definitionErrors : List (SymbolError × Option Definition) := []
  referenceErrors : List (SymbolError × Reference) := []
  listedReferences : List Reference := []
  listedDefinitions : List Listed := []

namespace SymbolTable

def empty : SymbolTable := {}

def get? (t : SymbolTable) (name : String) : Option (List Definition) := t.definitions.get? name

def contains (t : SymbolTable) (name : String) : Bool := t.definitions.contains name

def definitionsOfKind (t : SymbolTable) (kind : Kind) : List Definition :=
  t.definitions.values.filter fun d => d.kind == some kind

/-- The children of every rule, name by name. No rule that is collected lacks a place for them. -/
def ruleChildren (t : SymbolTable) : List (String × List Definition) :=
  (t.definitionsOfKind .rule).flatMap fun d =>
    match d.childCatalog with
    | some children => children.entries
    | none => []

/-- Lists all definitions, then the template parameters. The listing is kept for later calls,
unless it is empty. -/
def allDefinitions (t : SymbolTable) : List Listed × SymbolTable :=
  if t.listedDefinitions.isEmpty then
    let listed := t.definitions.values.map Listed.definition ++
      t.ruleChildren.map fun (name, ds) => Listed.children name ds
    (listed, { t with listedDefinitions := listed })
  else (t.listedDefinitions, t)

/-- Lists all references. The listing is kept for later calls, unless it is empty. -/
def allReferences (t : SymbolTable) : List Reference × SymbolTable :=
  if t.listedReferences.isEmpty then
    let listed := t.references.values
    (listed, { t with listedReferences := listed })
  else (t.listedReferences, t)

/-- The definition that a reference's statement stands under: the rule itself, or the alias of an
import. -/
def definitionAround (t : SymbolTable) (r : Reference) : Option Definition :=
  let name := match r.node with
    | .rule _ _ name _ _ _ => some name.toText
    | .imports _ _ _ name => some (if name.isPresent then name.toText else "")
    | _ => none
  match name.bind t.get? with
  | some (d :: _) => some d
  | _ => none

/-- The definition of a name: the first one under the name, or else that around the first
reference which stands in one. -/
def definition? (t : SymbolTable) (name : String) : Option Definition :=
  match t.get? name with
  | some (d :: _) => some d
  | _ => ((t.references.get? name).getD []).findSome? t.definitionAround

def collectDefinitions (t : SymbolTable) (statements : List Node) : Except Fault SymbolTable := do
  let found ← statements.mapM Node.definitions
  return { t with definitions := t.definitions.addAll Definition.name found.flatten }

def collectReferences (t : SymbolTable) (statements : List Node) : Except Fault SymbolTable := do
  let found ← statements.mapM (Node.references .absent)
  return { t with references := t.references.addAll Reference.name found.flatten }

/-- Adds the errors found in the definitions: first those of names with several definitions, then
for each rule those of its children. -/
def validateDefinitions (t : SymbolTable) : SymbolTable :=
  let multiple := t.definitions.entries.flatMap fun (name, ds) => Check.single name ds
  let inRules := t.ruleChildren.flatMap fun (name, ds) =>
    Check.single name ds ++ ds.flatMap fun d => Check.shadowed d t.definitions
  { t with definitionErrors := t.definitionErrors ++ multiple ++ inRules }

def validateReferences (t : SymbolTable) : Except Fault SymbolTable := do
  let found ← t.references.entries.mapM fun (name, rs) => Check.undefined name rs t.definitions
  return { t with referenceErrors := t.referenceErrors ++ found.flatten }

end SymbolTable

end GrammarServer
