import GrammarServer.Node.Display
import GrammarServer.Text.Blank

/-!
# Layout of grammar files

The text in which a statement is laid out. The alternatives of a rule or a terminal stand on lines
of their own, indented as asked for; inside other statements, and for `%ignore`, the indentation
is the usual one. Statements are separated by one blank line.
-/
namespace GrammarServer.Layout
open Node (join toText)

def usualIndent : String := "    "

def braced (s : String) : String := "\x7b" ++ s ++ "\x7d"

/-- The alternatives of a definition, each after the first on a line of its own. -/
def stacked (indent : String) (alternatives : List String) : String :=
  ("\n" ++ indent ++ "| ").intercalate alternatives

/-- The signs in front of a rule's name; an underscore is part of the name itself. -/
def signs (modifiers : List Node) : Except Fault String :=
  join "" (modifiers.filter fun m => m.text? != some "_")

/-- A priority as it is written after a name; zero is not written. -/
def priorityMark (priority : Node) : String :=
  if priority.isPresent then "." ++ priority.toText else ""

/-- The parameters of a template; a rule without parameters has no braces. -/
def parameterList (parameters : Node) : Except Fault String := do
  if parameters.isPresent then
    let names := ", ".intercalate ((← parameters.elements).map toText)
    return if names == "" then "" else braced names
  else return ""

/-- The repetition after an atom: an operator, or a tilde with one or two bounds. -/
def repetition (operators : List Node) : String :=
  let front := String.join ((operators.take 2).map toText)
  match operators with
  | [_, _, bound] => front ++ ".." ++ bound.toText
  | _ => front

def importText (path symbols name : Node) : Except Fault String := do
  let names := (← symbols.elements).map toText
  let listed := ", ".intercalate names
  let source := if names.length > 1 then " (" ++ listed ++ ")" else "." ++ listed
  let rename := if name.isPresent then "-> " ++ name.toText ++ " " else ""
  return Text.strip ("%import " ++ path.toText ++ source ++ " " ++ rename)

mutual

/-- The text of a node, with the indentation for the alternatives of a definition. -/
def text (indent : String) : Node → Except Fault String
  | .comment _ content => return Text.strip content.toText
  | .declare _ symbols => return "%declare " ++ " ".intercalate (symbols.map toText)
  | .expansion _ expressions name => do
    let parts ← texts expressions
    let rename := if name.isPresent then "-> " ++ name.toText else ""
    return Text.strip (" ".intercalate (parts.map Text.strip) ++ " " ++ rename)
  | .expr _ (.list items) operators => do
    let parts ← texts items
    return Text.strip ("(" ++ " | ".intercalate parts ++ ")" ++ repetition operators)
  | .expr _ atom operators => do
    let body ← text usualIndent atom
    return Text.strip (body ++ repetition operators)
  | .extend _ definition => do
    let body ← text usualIndent definition
    return Text.strip ("%extend " ++ body)
  -- the word of an extension: an override is not read back as one
  | .override _ definition => do
    let body ← text usualIndent definition
    return Text.strip ("%extend " ++ body)
  | .ignore _ expansions => do
    let parts ← texts expansions
    return Text.strip ("%ignore " ++ stacked usualIndent (parts.map Text.strip))
  | .imports _ path symbols name => importText path symbols name
  | .maybe _ expansions => do
    let parts ← texts expansions
    return "[" ++ " | ".intercalate (parts.map Text.strip) ++ "]"
  | .range _ first last => return first ++ ".." ++ last
  | .rule _ modifiers name parameters priority expansions => do
    let marks ← signs (← modifiers.elements)
    let parameters ← parameterList parameters
    let alternatives ← texts expansions
    return marks ++ name.toText ++ parameters ++ priorityMark priority ++ ": " ++
      stacked indent alternatives
  | .templateUsage _ applied arguments => do
    let parts ← texts arguments
    return applied.toText ++ braced (", ".intercalate parts)
  | .term _ modifiers name priority expansions => do
    let alternatives ← texts expansions
    return String.join (modifiers.filter (· != "_")) ++ name.toText ++ priorityMark priority ++
      ": " ++ stacked indent alternatives
  | .token t => return t.text
  | .named _ part => text indent part
  | n => return "\"" ++ n.toText ++ "\""

/-- The texts of nodes inside another one, with the usual indentation. -/
def texts : List Node → Except Fault (List String)
  | [] => return []
  | n :: rest => do
    let s ← text usualIndent n
    let others ← texts rest
    return s :: others

end

/-- The text of a file: its statements, a blank line between each two. -/
def ofStatements (indent : String) (statements : List Node) : Except Fault String := do
  let parts ← statements.mapM (text indent)
  return Text.strip ("\n\n".intercalate (parts.map Text.strip))

end GrammarServer.Layout
