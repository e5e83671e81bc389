import GrammarServer.Node.Basic

/-!
# Displayed nodes

The text that shows a node with all its fields, and the shorter text in which texts and tokens
stand for themselves.
-/
namespace GrammarServer

def Extent.display : Option Extent → String
  | none => "Meta(empty=True)"
  | some e =>
    "Meta(line=" ++ toString e.line ++ ", column=" ++ toString e.column ++ ", end_line=" ++
      toString e.endLine ++ ", end_column=" ++ toString e.endColumn ++ ")"

def Token.display (t : Token) : String :=
  "Token(" ++ Text.quoted t.kind ++ ", " ++ Text.quoted t.text ++ ")"

namespace Node

def bracketed (parts : List String) : String := "[" ++ ", ".intercalate parts ++ "]"

def fields (kind : String) (extent : Option Extent) (rest : List (String × String)) : String :=
  let written := (("meta", Extent.display extent) :: rest).map fun (name, value) =>
    name ++ "=" ++ value
  kind ++ "(" ++ ", ".intercalate written ++ ")"

mutual

def display : Node → String
  | absent => "None"
  | number n => toString n
  | text s => Text.quoted s
  | token t => t.display
  | list items => bracketed (displayAll items)
  | tree label _ children =>
    "Tree(" ++ Text.quoted label ++ ", " ++ bracketed (displayAll children) ++ ")"
  | range e first last =>
    fields "Range" e [("start", Text.quoted first), ("end", Text.quoted last)]
  | templateUsage e applied arguments =>
    fields "TemplateUsage" e
      [("rule", display applied), ("arguments", bracketed (displayAll arguments))]
  | maybe e expansions => fields "Maybe" e [("expansions", bracketed (displayAll expansions))]
  | expansion e expressions name =>
    fields "Expansion" e
      [("expressions", bracketed (displayAll expressions)), ("alias", display name)]
  | aliasing e body name =>
    fields "Alias" e [("name", display name), ("expansion", display body)]
  | expr e atom operators =>
    fields "Expr" e [("atom", display atom), ("operators", bracketed (displayAll operators))]
  | term e modifiers name priority expansions =>
    fields "Term" e
      [("modifiers", bracketed (modifiers.map Text.quoted)), ("name", display name),
       ("priority", display priority), ("expansions", bracketed (displayAll expansions))]
  | rule e modifiers name parameters priority expansions =>
    fields "Rule" e
      [("modifiers", display modifiers), ("name", display name),
       ("parameters", display parameters), ("priority", display priority),
       ("expansions", bracketed (displayAll expansions))]
  | declare e symbols => fields "Declare" e [("symbols", bracketed (displayAll symbols))]
  | imports e path symbols name =>
    fields "Import" e
      [("path", display path), ("symbols", display symbols), ("alias", display name)]
  | override e definition => fields "Override" e [("definition", display definition)]
  | extend e definition => fields "Extend" e [("definition", display definition)]
  | comment e content => fields "Comment" e [("content", display content)]
  | ignore e expansions => fields "Ignore" e [("expansions", bracketed (displayAll expansions))]
  | file e statements => fields "Ast" e [("statements", bracketed (displayAll statements))]
  | plain e => fields "AstNode" e []
  | named _ part => display part

def displayAll : List Node → List String
  | [] => []
  | n :: rest => display n :: displayAll rest

end

/-- A text or token as it is, any other node as it is displayed. -/
def toText (n : Node) : String :=
  match n.text? with
  | some s => s
  | none => n.display

end Node

end GrammarServer
