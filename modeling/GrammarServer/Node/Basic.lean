import GrammarServer.Fault
import GrammarServer.Lexeme.Basic

/-!
# Nodes of a grammar file

A node is a statement or a part of one, a tree that has not been made into one yet, or a plain
value that stands in a field: nothing, a number, a text, a token, a list. Fields are loosely
typed, so that nodes can also be put together by hand; a node that comes from a source has the
fields one expects. A name that an alias gives belongs to the part that it is given to: expansions
and imports have a field for it, and any other part keeps it at its side, where no field shows it.
-/
namespace GrammarServer

/-- The part of a text that something covers, in lines and columns counted from one. -/
structure Extent where
  line : Int
  column : Int
  endLine : Int
  endColumn : Int
deriving DecidableEq, Repr

/-- A lexeme as a node holds it. Tokens that were never in a text have no place. -/
structure Token where
  kind : String
  text : String
  line : Option Int
  column : Option Int
  endLine : Option Int
  endColumn : Option Int
deriving DecidableEq, Repr

namespace Lexeme

def token (x : Lexeme) : Token :=
  { kind := x.terminal.name
    text := String.ofList x.text
    line := some x.start.line
    column := some x.start.column
    endLine := some x.stop.line
    endColumn := some x.stop.column }

def extent (x : Lexeme) : Extent := ⟨x.start.line, x.start.column, x.stop.line, x.stop.column⟩

end Lexeme

inductive Node
  | absent
  | number (n : Int)
  | text (s : String)
  | token (t : Token)
  | list (items : List Node)
  | tree (label : String) (extent : Option Extent) (children : List Node)
  | range (extent : Option Extent) (first last : String)
  | templateUsage (extent : Option Extent) (rule : Node) (arguments : List Node)
  | maybe (extent : Option Extent) (expansions : List Node)
  | expansion (extent : Option Extent) (expressions : List Node) (name : Node)
  | aliasing (extent : Option Extent) (expansion name : Node)
  | expr (extent : Option Extent) (atom : Node) (operators : List Node)
  | term (extent : Option Extent) (modifiers : List String) (name priority : Node)
    (expansions : List Node)
  | rule (extent : Option Extent) (modifiers name parameters priority : Node)
    (expansions : List Node)
  | declare (extent : Option Extent) (symbols : List Node)
  | imports (extent : Option Extent) (path symbols name : Node)
  | override (extent : Option Extent) (definition : Node)
  | extend (extent : Option Extent) (definition : Node)
  | comment (extent : Option Extent) (content : Node)
  | ignore (extent : Option Extent) (expansions : List Node)
  | file (extent : Option Extent) (statements : List Node)
  | plain (extent : Option Extent)
  /-- A part without a field for it, with the name that an alias gave it. -/
  | named (name part : Node)
deriving Repr, Inhabited

namespace Node

def kind : Node → String
  | absent => "NoneType"
  | number _ => "int"
  | text _ => "str"
  | token _ => "Token"
  | list _ => "list"
  | tree .. => "Tree"
  | range .. => "Range"
  | templateUsage .. => "TemplateUsage"
  | maybe .. => "Maybe"
  | expansion .. => "Expansion"
  | aliasing .. => "Alias"
  | expr .. => "Expr"
  | term .. => "Term"
  | rule .. => "Rule"
  | declare .. => "Declare"
  | imports .. => "Import"
  | override .. => "Override"
  | extend .. => "Extend"
  | comment .. => "Comment"
  | ignore .. => "Ignore"
  | file .. => "Ast"
  | plain _ => "AstNode"
  | named _ part => part.kind

/-- Whether this is a statement or a part of one, and not a plain value or a tree. -/
def isPart : Node → Bool
  | absent | number _ | text _ | token _ | list _ | tree .. => false
  | _ => true

/-- Whether there is something to a node: nothing, zero, empty texts and lists, and a file without
statements are hollow. -/
def isPresent : Node → Bool
  | absent => false
  | number n => n != 0
  | text s => s != ""
  | token t => t.text != ""
  | list items => !items.isEmpty
  | file _ statements => !statements.isEmpty
  | named _ part => part.isPresent
  | _ => true

def extent : Node → Option Extent
  | absent | number _ | text _ | token _ | list _ => none
  | tree _ e _ | range e _ _ | templateUsage e _ _ | maybe e _ | expansion e _ _ => e
  | aliasing e _ _ | expr e _ _ | term e _ _ _ _ | rule e _ _ _ _ _ | declare e _ => e
  | imports e _ _ _ | override e _ | extend e _ | comment e _ | ignore e _ | file e _ => e
  | plain e => e
  | named _ part => part.extent

def isAliased : Node → Bool
  | expansion _ _ absent => false
  | expansion .. => true
  | _ => false

def statements : Node → List Node
  | file _ items => items
  | _ => []

def isToken : Node → Bool
  | token _ => true
  | _ => false

def text? : Node → Option String
  | text s => some s
  | token t => some t.text
  | _ => none

def letters (s : String) : List Node := s.toList.map fun c => text (String.singleton c)

/-- The parts into which a node falls when it is gone through. -/
def elements : Node → Except Fault (List Node)
  | list items => .ok items
  | file _ statements => .ok statements
  | text s => .ok (letters s)
  | token t => .ok (letters t.text)
  | n => .error (.notIterable n.kind)

/-- Joins texts with a separator; `position` counts the parts already joined. -/
def joinFrom (separator : String) : Nat → List Node → Except Fault String
  | _, [] => .ok ""
  | position, n :: rest =>
    match n.text? with
    | none => .error (.partNotText position n.kind)
    | some s => do
      let tail ← joinFrom separator (position + 1) rest
      return if rest.isEmpty then s else s ++ separator ++ tail

def join (separator : String) (parts : List Node) : Except Fault String :=
  joinFrom separator 0 parts

def child (children : List Node) (place : Nat) : Except Fault Node :=
  match children[place]? with
  | some n => .ok n
  | none => .error .listTooShort

def lastChild (children : List Node) : Except Fault Node :=
  match children.getLast? with
  | some n => .ok n
  | none => .error .listTooShort

end Node

end GrammarServer
