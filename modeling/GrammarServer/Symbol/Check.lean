import GrammarServer.Symbol.Definition
import GrammarServer.Symbol.Error

/-!
# Checks on symbols

A name should have one definition in its scope; a template parameter should not have the name of
a definition; a name that is used should be defined, or belong to the statement in which it is
used.
-/
namespace GrammarServer.Check

abbrev Definitions := Catalog Definition

/-- A name with more than one definition: each definition after the first is an error. A name
without any is one too. -/
def single (name : String) (definitions : List Definition) :
    List (SymbolError × Option Definition) :=
  match definitions with
  | [] =>
    [(⟨.notFound, "No definitions found with name '" ++ name ++ "'.", ⟨0, 0⟩⟩, none)]
  | _ :: others => others.map fun d => (⟨.multiple, d.name, d.selection.start⟩, some d)

def shadowed (d : Definition) (definitions : Definitions) :
    List (SymbolError × Option Definition) :=
  if definitions.contains d.name then [(⟨.shadowed, d.name, d.selection.start⟩, some d)] else []

def firstUnder (definitions : Definitions) (name : String) : Except Fault (Option Definition) :=
  match definitions.get? name with
  | none => .ok none
  | some [] => .error .listTooShort
  | some (d :: _) => .ok (some d)

/-- Whether a name used in a range belongs to a definition: the range lies in the definition's, or
the name is one of its children. -/
def belongsTo (name : String) (range : Range) : Option Definition → Except Fault Bool
  | none => .ok false
  | some d =>
    match d.childCatalog with
    | none => .error (.notSearchable Node.absent.kind)
    | some children => .ok (d.range.contains range || children.contains name)

/-- Whether a name is known in the statement in which it is used. -/
def inLocalScope (name : String) (r : Reference) (definitions : Definitions) :
    Except Fault Bool := do
  match r.node with
  | .rule _ _ ruleName _ _ _ =>
    belongsTo name r.range (← firstUnder definitions ruleName.toText)
  | .imports _ _ _ given =>
    if given.isPresent then belongsTo name r.range (← firstUnder definitions given.toText)
    else return false
  | _ => return false

def undefinedReference (name : String) (definitions : Definitions) (r : Reference) :
    Except Fault (Option SymbolError) := do
  if ← inLocalScope name r definitions then return none
  else return some ⟨.undefinedReference, name, r.position⟩

def undefined (name : String) (references : List Reference) (definitions : Definitions) :
    Except Fault (List (SymbolError × Reference)) := do
  if definitions.contains name then return []
  else
    let found ← references.mapM fun r => do
      return (← undefinedReference name definitions r).map (·, r)
    return found.filterMap id

/-- The first error of the references to a name; later references are not looked at. -/
def firstUndefined (name : String) (references : List Reference) (definitions : Definitions) :
    Except Fault (Option SymbolError) :=
  if definitions.contains name then .ok none
  else references.findSomeM? (undefinedReference name definitions)

end GrammarServer.Check
