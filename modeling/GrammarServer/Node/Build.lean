import GrammarServer.Node.Form
import GrammarServer.Parse.Derivation

/-!
# From derivations to nodes

A derivation is first given the shape of a tree: lexemes that only punctuate are left out, spliced
phrases hand on their children, transparent ones stand aside for a single child. A tree starts
where its first part starts and ends where its last part ends, the parts left out included; seen
from above, a phrase that stood aside still covers all its parts. Then each tree, from the leaves
up, is made into the node that its label calls for. A token whose kind is such a label cannot be
converted, for it has no children.
-/
namespace GrammarServer

/-! ## Shape -/

/-- From the start of the first part that covers some text to the end of the last. -/
def Extent.hull (parts : List (Option Extent)) : Option Extent :=
  let known := parts.filterMap id
  match known.head?, known.getLast? with
  | some first, some last => some ⟨first.line, first.column, last.endLine, last.endColumn⟩
  | _, _ => none

/-- What a derivation gives to the phrase above it, and the text that it covers as seen from
there. -/
structure Shaped where
  nodes : List Node
  extent : Option Extent

namespace Shaped

/-- A tree without an extent of its own gets one from the phrase that stood aside for it. -/
def placed (e : Option Extent) : Node → Node
  | .tree label own children => .tree label (own <|> e) children
  | n => n

def ofLexeme (x : Lexeme) : Shaped :=
  ⟨if x.terminal.isKept then [.token x.token] else [], some x.extent⟩

def ofParts (p : Phrase) (parts : List Shaped) : Shaped :=
  let nodes := parts.flatMap (·.nodes)
  let e := Extent.hull (parts.map (·.extent))
  if p.isSpliced then ⟨nodes, e⟩
  else
    match p.isTransparent, nodes with
    | true, [n] => ⟨[placed e n], e⟩
    | _, _ => ⟨[.tree p.label e nodes], e⟩

mutual

def ofDerivation : Derivation → Shaped
  | .leaf x => ofLexeme x
  | .node q children => ofParts q.left (ofDerivations children)

def ofDerivations : List Derivation → List Shaped
  | [] => []
  | d :: rest => ofDerivation d :: ofDerivations rest

end

end Shaped

def Derivation.tree (d : Derivation) : Node :=
  match (Shaped.ofDerivation d).nodes with
  | [n] => n
  | nodes => .list nodes

/-! ## Nodes -/

namespace Node

def leadingValue : List Node → Option String
  | token t :: _ => if t.text == "" then none else some t.text
  | _ => none

/-- The path of an import and the name after it. -/
def importSource (start : String) (children : List Node) : Except Fault Node := do
  let path ← join "." children.dropLast
  let name ← lastChild children
  return list [text (start ++ path), name]

inductive Conversion
  /-- The characters of a token, each by itself. -/
  | signs
  /-- The children, if there are any. -/
  | listing
  /-- The number that a token writes. -/
  | integer
  /-- The path of an import, after its start, and the name at its end. -/
  | source (start : String)
  /-- The first child. -/
  | first
  /-- All children. -/
  | children
  | form (f : Form)
  /-- Only whole trees can be gone through once more. -/
  | again
  /-- A node about which nothing is said cannot be made from anything. -/
  | bare

namespace Conversion

def ofLabel? : String → Option Conversion
  | "rule_modifiers" => some signs
  | "template_params" | "name_list" => some listing
  | "priority" => some integer
  | "import_lib" => some (source "")
  | "import_rel" => some (source ".")
  | "literal" | "value" | "nonterminal" | "terminal" => some first
  | "expansions" => some children
  | "start" => some (form .file)
  | "build" | "transform" => some again
  | "base_ast_node" => some bare
  | label => (Form.ofLabel? label).map form

def ofPhrase (e : Option Extent) (nodes : List Node) : Conversion → Except Fault Node
  | signs =>
    match leadingValue nodes with
    | some s => .ok (list (letters s))
    | none => .ok absent
  | listing => .ok (if nodes.isEmpty then absent else list nodes)
  | integer =>
    match leadingValue nodes with
    | some s =>
      match Text.readInteger s with
      | .ok n => .ok (number n)
      | .error .notNumeral => .error (.notNumeral s)
      | .error (.tooLong digits) => .error (.numeralTooLong digits)
    | none => .ok absent
  | source start => importSource start nodes
  | first => child nodes 0
  | children => .ok (list nodes)
  | form f => f.make e nodes
  | again => .error (.noField "list" "children")
  | bare => .error (.takesNoArguments "BaseAstNode")

def ofToken : Conversion → Except Fault Node
  | form .plain => .ok (plain none)
  | bare => .error (.takesNoArguments "BaseAstNode")
  | _ => .error (.noField "Token" "children")

end Conversion

def inPhrase (label : String) : Except Fault Node → Except Fault Node
  | .ok n => .ok n
  | .error fault => .error (.inPhrase label fault)

def buildToken (t : Token) : Except Fault Node :=
  match Conversion.ofLabel? t.kind with
  | some c => inPhrase t.kind c.ofToken
  | none => .ok (token t)

mutual

/-- Makes a tree into a node, its children first. Everything else stays as it is, but for tokens
that call for a conversion. -/
def build : Node → Except Fault Node
  | tree label e children => do
    let children ← buildAll children
    match Conversion.ofLabel? label with
    | some c => inPhrase label (c.ofPhrase e children)
    | none => .ok (tree label e children)
  | token t => buildToken t
  | n => .ok n

def buildAll : List Node → Except Fault (List Node)
  | [] => .ok []
  | n :: rest => do
    let n ← build n
    let rest ← buildAll rest
    return n :: rest

end

end Node

end GrammarServer
