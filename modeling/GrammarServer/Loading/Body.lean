import GrammarServer.Loading.Pattern
import GrammarServer.Node.Display

/-!
# Bodies of definitions

What a rule or a terminal is defined as: symbols and patterns, used templates, and the ways to put
them together. A body can be gone through from its deepest parts up, and within one depth from left
to right; this is the order in which its parts are looked at.
-/
namespace GrammarServer.Loading

/-- A symbol of a rule. A terminal may be one that leaves nothing in a tree. -/
inductive Symbol
  | terminal (name : String) (isDropped : Bool)
  | rule (name : String)
  /-- What stands for an optional part that is absent. -/
  | vacant

namespace Symbol

def name : Symbol → String
  | terminal name _ => name
  | rule name => name
  | vacant => "__empty__"

def display : Symbol → String
  | terminal name _ => "Terminal(" ++ Text.quoted name ++ ")"
  | rule name => "NonTerminal(" ++ Text.quoted name ++ ")"
  | vacant => "Symbol(" ++ Text.quoted vacant.name ++ ")"

def rename (f : String → String) : Symbol → Symbol
  | terminal name isDropped => terminal (f name) isDropped
  | rule name => rule (f name)
  | vacant => vacant

/-- Names that start with an underscore leave nothing in a tree. -/
def isHidden (name : String) : Bool := name.toList.head? == some '_'

def isKept (keepsAll : Bool) : Symbol → Bool
  | terminal _ isDropped => keepsAll || !isDropped
  | rule name => !isHidden name
  | vacant => false

end Symbol

inductive Body
  | symbol (s : Symbol)
  /-- A pattern, unless the literal that should write it does not. -/
  | pattern (p : Except Refusal Pattern)
  | usage (template : String) (arguments : List Body)
  | choice (alternatives : List Body)
  | sequence (parts : List Body)
  | naming (part : Body) (name : String)
  | optional (part : Body)
  | marked (part : Body) (mark : String)
  /-- A part repeated a number of times, or from one number to another. -/
  | times (part : Body) (bounds : List String)

namespace Body

/-! ## From trees -/

def ofToken (t : Token) : Body :=
  if t.kind == "RULE" then symbol (.rule t.text)
  else if t.kind == "TERMINAL" then symbol (.terminal t.text (Symbol.isHidden t.text))
  else pattern (Pattern.ofLiteral (t.kind == "STRING") t.text)

def repeated (part : Body) (operators : List Node) : Body :=
  match operators.map Node.toText with
  | [] => part
  | [mark] => marked part mark
  | _ :: bounds => times part bounds

def range : List Node → Body
  | [first, last] => pattern (Pattern.ofRange first.toText last.toText)
  | _ => sequence []

/-- What a tree writes whose children write these parts. Trees of other labels only wrap a part. -/
def assemble (label : String) (children : List Node) (parts : List Body) : Body :=
  match label, parts with
  | "expansions", alternatives => choice alternatives
  | "expansion", parts => sequence parts
  | "alias", [part, symbol (.rule name)] => naming part name
  | "maybe", [part] => optional part
  | "expr", part :: _ => repeated part children.tail
  | "range", _ => range children
  | "template_usage", symbol (.rule template) :: arguments => usage template arguments
  | _, [part] => part
  | _, _ => sequence []

mutual

def ofTree : Node → Body
  | .token t => ofToken t
  | .tree label _ children => assemble label children (ofTrees children)
  | _ => sequence []

def ofTrees : List Node → List Body
  | [] => []
  | n :: rest => ofTree n :: ofTrees rest

end

/-! ## Other names -/

mutual

def rename (f : String → String) : Body → Body
  | symbol s => symbol (s.rename f)
  | pattern p => pattern p
  | usage template arguments => usage (f template) (renameAll f arguments)
  | choice alternatives => choice (renameAll f alternatives)
  | sequence parts => sequence (renameAll f parts)
  | naming part name => naming (rename f part) (f name)
  | optional part => optional (rename f part)
  | marked part mark => marked (rename f part) mark
  | times part bounds => times (rename f part) bounds

def renameAll (f : String → String) : List Body → List Body
  | [] => []
  | b :: rest => rename f b :: renameAll f rest

end

/-! ## Parts -/

/-- Puts the parts of each depth behind one another. -/
def mergeLevels : List (List Body) → List (List Body) → List (List Body)
  | [], ys => ys
  | xs, [] => xs
  | x :: xs, y :: ys => (x ++ y) :: mergeLevels xs ys

mutual

/-- The parts of a body by depth. When symbols and patterns are wrapped, a used template stands
inside a wrapper, one deeper than they. -/
def levels (isWrapped : Bool) : Body → List (List Body)
  | symbol s => [[symbol s]]
  | pattern p => [[pattern p]]
  | usage template arguments =>
    let own := [usage template arguments] :: levelsOfAll isWrapped arguments
    if isWrapped then [] :: own else own
  | choice alternatives => [choice alternatives] :: levelsOfAll isWrapped alternatives
  | sequence parts => [sequence parts] :: levelsOfAll isWrapped parts
  | naming part name => [naming part name] :: levels isWrapped part
  | optional part => [optional part] :: levels isWrapped part
  | marked part mark => [marked part mark] :: levels isWrapped part
  | times part bounds => [times part bounds] :: levels isWrapped part

def levelsOfAll (isWrapped : Bool) : List Body → List (List Body)
  | [] => []
  | b :: rest => mergeLevels (levels isWrapped b) (levelsOfAll isWrapped rest)

end

/-- All parts of a body, the deepest first. -/
def parts (isWrapped : Bool) (b : Body) : List Body := (levels isWrapped b).reverse.flatten

def symbols (b : Body) : List Symbol :=
  (b.parts true).filterMap fun
    | symbol s => some s
    | _ => none

/-- The templates that a body uses, each with the number of its arguments. -/
def usages (b : Body) : List (String × Nat) :=
  (b.parts true).filterMap fun
    | usage template arguments => some (template, arguments.length)
    | _ => none

mutual

/-- The names that a body uses. The name that an alias gives to a part of an alternative, not to
the whole of it, counts as used. -/
def names (isInside : Bool) : Body → List String
  | symbol s => [s.name]
  | pattern _ => []
  | usage template arguments => template :: namesOfAll isInside arguments
  | choice alternatives => namesOfAll isInside alternatives
  | sequence parts => namesOfAll true parts
  | naming part name => names isInside part ++ if isInside then [name] else []
  | optional part => names isInside part
  | marked part _ => names isInside part
  | times part _ => names isInside part

def namesOfAll (isInside : Bool) : List Body → List String
  | [] => []
  | b :: rest => names isInside b ++ namesOfAll isInside rest

end

/-! ## Display -/

def displayTree (label : String) (parts : List String) : String :=
  "Tree(" ++ Text.quoted label ++ ", " ++ Node.bracketed parts ++ ")"

mutual

def display : Body → String
  | symbol s => s.display
  | pattern (.ok p) => displayTree "pattern" [p.display]
  | pattern (.error _) => displayTree "pattern" []
  | usage template arguments =>
    displayTree "template_usage" ((Symbol.rule template).display :: displayAll arguments)
  | choice alternatives => displayTree "expansions" (displayAll alternatives)
  | sequence parts => displayTree "expansion" (displayAll parts)
  | naming part name => displayTree "alias" [display part, (Symbol.rule name).display]
  | optional part => displayTree "maybe" [display part]
  | marked part mark => displayTree "expr" [display part, Text.quoted mark]
  | times part bounds => displayTree "expr" (display part :: bounds.map Text.quoted)

def displayAll : List Body → List String
  | [] => []
  | b :: rest => display b :: displayAll rest

end

end Body

end GrammarServer.Loading
