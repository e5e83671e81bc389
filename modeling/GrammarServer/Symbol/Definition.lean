import GrammarServer.Catalog
import GrammarServer.Editor
import GrammarServer.Layout
import GrammarServer.Symbol.Flags
import GrammarServer.Text.Lines

/-!
# Definitions and references

A definition introduces a name: its range is the whole statement, its selection the name itself.
Template parameters, and the names behind aliases of imports, are children of the definition that
they belong to. A reference is a place where a name is used.
-/
namespace GrammarServer

structure Definition where
  name : String
  kind : Option Kind
  range : Range
  selection : Range
  /-- The name of the definition of which this one is a child. -/
  parent : Option String := none
  /-- The children in the order in which they were added, if there is a place for them. -/
  children : Option (List Definition) := some []
  directives : Directives := .none
  modifiers : Modifiers := .none
  /-- The statement that gives the definition. -/
  node : Node := .absent
  /-- The name of the definition in which this one, an alias, stands. -/
  container : Option String := none

namespace Definition

/-- Adds a child, which then belongs to this definition. -/
def addChild (d child : Definition) : Definition :=
  let kept := match d.children with
    | some children => children
    | none => []
  { d with children := some (kept ++ [{ child with parent := some d.name }]) }

def childCatalog (d : Definition) : Option (Catalog Definition) :=
  d.children.map (Catalog.group name)

def outlineKind (d : Definition) : OutlineKind :=
  match d.parent, d.kind with
  | some _, _ => .variable
  | none, some .rule => .method
  | none, some .terminal => .constant
  | none, none => .null

mutual

def outline : Definition → Outline
  | ⟨name, kind, range, selection, parent, children, directives, modifiers, node, container⟩ =>
    let d : Definition :=
      ⟨name, kind, range, selection, parent, none, directives, modifiers, node, container⟩
    .entry name d.outlineKind range selection (childOutlines children)

def childOutlines : Option (List Definition) → Option (List Outline)
  | none => none
  | some [] => none
  | some (d :: rest) => some (Catalog.group Outline.name (outline d :: outlines rest)).values

def outlines : List Definition → List Outline
  | [] => []
  | d :: rest => outline d :: outlines rest

end

def summary (d : Definition) : String :=
  if d.kind == some .rule then "Grammar rule: " ++ d.name else "Grammar terminal: " ++ d.name

def completionKind (d : Definition) : CompletionKind :=
  match d.kind with
  | some .rule => .function
  | some .terminal => .variable
  | none => .text

def completion (d : Definition) : Except Fault Completion :=
  match d.kind with
  | some kind => .ok ⟨d.name, d.completionKind, kind.heading, d.summary⟩
  | none => .error (.noField Node.absent.kind "capitalize")

/-- The statement as it is laid out, in a block of code. Since the block starts at the margin it
is not moved; lines that hold only blanks are emptied. -/
def quotation (d : Definition) : Except Fault String := do
  if d.node.isPresent then
    let body ← Layout.text Layout.usualIndent d.node
    return Text.clearBlankLines ("```lark\n" ++ body ++ "\n```")
  else return "No definition available."

def origin (d : Definition) : Except Fault String :=
  if d.directives.has .imported && d.node.isPresent then
    match d.node with
    | .imports _ path _ _ => .ok ("* Imported from `" ++ path.toText ++ "`")
    | n => .error (.noField n.kind "path")
  else .ok ""

def documentation (d : Definition) : Except Fault String := do
  let quotation ← d.quotation
  let origin ← d.origin
  let details :=
    [origin,
     if d.directives.has .declared then "* Declared." else "",
     if d.modifiers.has .conditionallyInlined then "* Conditionally inlined." else "",
     if d.modifiers.has .inlined then "* Inlined." else "",
     if d.modifiers.has .pinned then "* Pinned." else ""]
  return "\n\n".intercalate
    [quotation, "---", d.summary, "---", "\n".intercalate (details.filter (· != ""))]

def hover (d : Definition) (range : Option Range) : Except Fault Hover := do
  return ⟨← d.documentation, range.getD d.range⟩

def location (uri : String) (d : Definition) : Location := ⟨uri, d.range⟩

end Definition

structure Reference where
  name : String
  position : Position
  range : Range
  kind : Option Kind
  /-- The statement in which the name is used. -/
  node : Node

namespace Token

def symbolKind (t : Token) : Kind := if t.kind == "RULE" then .rule else .terminal

def reference (node : Node) (t : Token) : Reference :=
  ⟨t.text, t.position true, t.range true, some t.symbolKind, node⟩

end Token

def Reference.location (uri : String) (r : Reference) : Location := ⟨uri, r.range⟩

end GrammarServer
