import GrammarServer.Node.Display

/-!
# Making nodes

A node of a given form is made from the children of a phrase. An alias in a list of expansions is
resolved: its name and extent go to the part that it names.
-/
namespace GrammarServer

inductive Form
  | range | templateUsage | maybe | expansion | aliasing | expr | term | rule | declare | imports
  | override | extend | comment | ignore | file | plain
deriving DecidableEq, Repr

namespace Form

def all : List Form :=
  [range, templateUsage, maybe, expansion, aliasing, expr, term, rule, declare, imports, override,
   extend, comment, ignore, file, plain]

def label : Form → String
  | range => "range"
  | templateUsage => "template_usage"
  | maybe => "maybe"
  | expansion => "expansion"
  | aliasing => "alias"
  | expr => "expr"
  | term => "term"
  | rule => "rule"
  | declare => "declare"
  | imports => "import"
  | override => "override"
  | extend => "extend"
  | comment => "comment"
  | ignore => "ignore"
  | file => "ast"
  | plain => "ast_node"

def ofLabel? (label : String) : Option Form := all.find? fun f => f.label == label

end Form

namespace Node

def withExtent (e : Option Extent) : Node → Except Fault Node
  | tree .. => .error (.fixedField "Tree" "meta")
  | range _ first last => .ok (range e first last)
  | templateUsage _ applied arguments => .ok (templateUsage e applied arguments)
  | maybe _ expansions => .ok (maybe e expansions)
  | expansion _ expressions name => .ok (expansion e expressions name)
  | aliasing _ body name => .ok (aliasing e body name)
  | expr _ atom operators => .ok (expr e atom operators)
  | term _ modifiers name priority expansions =>
    .ok (term e modifiers name priority expansions)
  | rule _ modifiers name parameters priority expansions =>
    .ok (rule e modifiers name parameters priority expansions)
  | declare _ symbols => .ok (declare e symbols)
  | imports _ path symbols name => .ok (imports e path symbols name)
  | override _ definition => .ok (override e definition)
  | extend _ definition => .ok (extend e definition)
  | comment _ content => .ok (comment e content)
  | ignore _ expansions => .ok (ignore e expansions)
  | file _ statements => .ok (file e statements)
  | plain _ => .ok (plain e)
  | named name part => (part.withExtent e).map (named name)
  | n => .error (.noField n.kind "meta")

/-- The part that an alias names, with the alias's name and extent. -/
def aliased (e : Option Extent) (name : Node) : Node → Except Fault Node
  | expansion _ expressions _ => .ok (expansion e expressions name)
  | imports _ path symbols _ => .ok (imports e path symbols name)
  | named _ part => (part.withExtent e).map (named name)
  | n => (n.withExtent e).map (named name)

def resolveAlias : Node → Except Fault Node
  | aliasing e body name => aliased e name body
  | n => .ok n

/-- The expansions that a node lists, without aliases. -/
def expansionsOf (n : Node) : Except Fault (List Node) := do
  (← n.elements).mapM resolveAlias

/-- An alias whose part has got the alias's name and extent already. -/
def settleAlias : Node → Except Fault Node
  | aliasing e body name => do return aliasing e (← aliased e name body) name
  | n => .ok n

/-- A node whose aliases have been resolved elsewhere: they stay, but what they name has changed. -/
def settled : Node → Except Fault Node
  | list items => do return list (← items.mapM settleAlias)
  | file e statements => do return file e (← statements.mapM settleAlias)
  | n => .ok n

/-- The item of a node that is gone through by place, counted from the end if negative. -/
def item (place : Int) : Node → Except Fault Node
  | list items | file _ items =>
    match items[(if place < 0 then place + items.length else place).toNat]? with
    | some n => if place + items.length < 0 then .error .listTooShort else .ok n
    | none => .error .listTooShort
  | text s | token { text := s, .. } =>
    let cs := s.toList
    match cs[(if place < 0 then place + cs.length else place).toNat]? with
    | some c =>
      if place + cs.length < 0 then .error .textTooShort else .ok (text (String.singleton c))
    | none => .error .textTooShort
  | n => .error (.notIndexable n.kind)

def butLast : Node → Except Fault (List Node)
  | list items | file _ items => .ok items.dropLast
  | text s | token { text := s, .. } => .ok (letters s).dropLast
  | n => .error (.notIndexable n.kind)

def joinedParts (n : Node) : Except Fault (List Node) :=
  match n.elements with
  | .ok parts => .ok parts
  | .error _ => .error .notJoinable

def orElse (n fallback : Node) : Node := if n.isPresent then n else fallback

def startsWithUnderscore (n : Node) : Bool := n.toText.toList.head? == some '_'

/-- The modifiers of a rule, with an underscore for a name that starts with one. -/
def ruleModifiers (modifiers name : Node) : Except Fault Node :=
  if name.startsWithUnderscore then
    match modifiers with
    | list items => .ok (list (items ++ [text "_"]))
    | n => .error (.noField n.kind "append")
  else .ok modifiers

/-- An import of one name, an import under another name, or an import of several names. -/
def makeImport (e : Option Extent) (children : List Node) : Except Fault Node :=
  match children with
  | [source] => do
    let path ← source.item 0
    let symbol ← source.item 1
    return imports e path (list [symbol]) absent
  | [source, token t] => do
    let path ← join "." (← source.butLast)
    let symbol ← source.item (-1)
    return imports e (text path) (list [symbol]) (token t)
  | _ => do
    let source ← child children 0
    let path ← join "" (← source.joinedParts)
    let symbols ← child children 1
    return imports e (text path) symbols absent

end Node

open Node in
def Form.make (e : Option Extent) (children : List Node) : Form → Except Fault Node
  | .range => do
    let first ← child children 0
    let last ← child children 1
    return .range e first.toText last.toText
  | .templateUsage => do
    let rule ← child children 0
    return .templateUsage e rule children.tail
  | .maybe => do
    let body ← child children 0
    return .maybe e (← body.expansionsOf)
  | .expansion => return .expansion e children .absent
  | .aliasing => do
    let expansion ← child children 0
    let name ← child children 1
    return .aliasing e expansion name
  | .expr => do
    let atom ← child children 0
    return .expr e atom children.tail
  | .term => do
    let name ← child children 0
    let priority := match children with
      | [_, priority, _] => priority.orElse (.number 0)
      | _ => .number 0
    let body ← lastChild children
    let expansions ← body.expansionsOf
    -- A single child is both the name and the body.
    let name ← if children.length == 1 then name.settled else .ok name
    return .term e (if name.startsWithUnderscore then ["_"] else []) name priority expansions
  | .rule => do
    let modifiers ← child children 0
    let name ← child children 1
    let parameters ← child children 2
    let priority ← child children 3
    let body ← child children 4
    let expansions ← body.expansionsOf
    let modifiers ← ruleModifiers (modifiers.orElse (.list [])) name
    return .rule e modifiers name (parameters.orElse (.list [])) (priority.orElse (.number 0))
      expansions
  | .declare => return .declare e children
  | .imports => makeImport e children
  | .override => return .override e (← child children 0)
  | .extend => return .extend e (← child children 0)
  | .comment =>
    return .comment e (children.headD (.token ⟨"COMMENT", "", none, none, none, none⟩))
  | .ignore => do
    let body ← child children 0
    return .ignore e (← body.expansionsOf)
  | .file => return .file e (children.filter isPart)
  | .plain => return .plain e

end GrammarServer
