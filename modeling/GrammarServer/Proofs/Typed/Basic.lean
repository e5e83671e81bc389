import GrammarServer.Node.Build
import GrammarServer.Proofs.Lexeme.Script

/-!
# Typed grammar files

The nodes that come from a source have the fields one expects. They are the nodes of typed values:
in place of a loosely typed field, each constructor has the parts that can stand there, and every
word is a lexeme that is spelled as its terminal is.
-/
namespace GrammarServer.Typed

theorem ok_bind {α β : Type} (a : α) (f : α → Except Fault β) : (.ok a >>= f) = f a := rfl

theorem eq_ok_of_toOption {ε α : Type} {x : Except ε α} {a : α} (h : x.toOption = some a) :
    x = .ok a := by
  cases x with
  | ok b => exact congrArg Except.ok (Option.some.inj h)
  | error fault => cases h

theorem exists_of_toOption_bind {α β : Type} {x : Except Fault α} {f : α → Except Fault β} {b : β}
    (h : (x >>= f).toOption = some b) : ∃ a, x = .ok a ∧ (f a).toOption = some b := by
  cases x with
  | ok a => exact ⟨a, rfl, h⟩
  | error fault => cases h

structure Word (t : Terminal) where
  lexeme : Lexeme
  terminal_eq : lexeme.terminal = t
  spelled : lexeme.IsSpelled

namespace Word

variable {t : Terminal}

def text (x : Word t) : List Char := x.lexeme.text

def node (x : Word t) : Node := .token x.lexeme.token

theorem text_ne_nil (x : Word t) : x.text ≠ [] := x.spelled.1

theorem spells (x : Word t) : Terminal.Spells x.text t := by
  have h := x.spelled.2
  rwa [x.terminal_eq] at h

theorem token_text_ne (x : Word t) : (x.lexeme.token.text == "") = false := by
  rw [beq_eq_false_iff_ne]
  intro h
  have htext : (String.ofList x.text).toList = [] := congrArg String.toList h
  rw [String.toList_ofList] at htext
  exact x.text_ne_nil htext

theorem leadingValue_node (x : Word t) (ns : List Node) :
    Node.leadingValue (x.node :: ns) = some (String.ofList x.text) := by
  rw [node, Node.leadingValue, x.token_text_ne]
  rfl

theorem isPresent_node (x : Word t) : x.node.isPresent = true := by
  rw [node, Node.isPresent, bne, x.token_text_ne]
  rfl

theorem toText_node (x : Word t) : x.node.toText = String.ofList x.text := rfl

end Word

inductive Name
  | rule (x : Word .ruleName)
  | terminal (x : Word .terminalName)

namespace Name

def text : Name → List Char
  | rule x => x.text
  | terminal x => x.text

def node : Name → Node
  | rule x => x.node
  | terminal x => x.node

theorem isPresent_node (x : Name) : x.node.isPresent = true := by
  cases x with
  | rule x => exact x.isPresent_node
  | terminal x => exact x.isPresent_node

theorem toText_node (x : Name) : x.node.toText = String.ofList x.text := by
  cases x <;> rfl

end Name

inductive Repetition
  | once
  | operator (x : Word .operator)
  | times (mark : Word .tilde) (count : Word .number)
  | between (mark : Word .tilde) (least most : Word .number)

def Repetition.nodes : Repetition → List Node
  | once => []
  | operator x => [x.node]
  | times mark count => [mark.node, count.node]
  | between mark least most => [mark.node, least.node, most.node]

mutual

inductive Value
  | name (x : Name)
  | string (x : Word .string)
  | regexp (x : Word .regexp)
  | range (e : Option Extent) (first last : Word .string)
  | usage (e : Option Extent) (rule : Word .ruleName) (arguments : Values)

inductive Values
  | one (v : Value)
  | cons (v : Value) (rest : Values)

inductive Atom
  | value (v : Value)
  | group (body : Alternatives)
  | maybe (e : Option Extent) (body : Alternatives)

inductive Expr
  | mk (e : Option Extent) (atom : Atom) (count : Repetition)

inductive Exprs
  | nil
  | cons (x : Expr) (rest : Exprs)

/-- An expansion, perhaps with a name. The name's extent is that of the whole. -/
inductive Alternative
  | plain (e : Option Extent) (body : Exprs)
  | named (e inner : Option Extent) (body : Exprs) (name : Word .ruleName)

inductive Alternatives
  | one (a : Alternative)
  | cons (a : Alternative) (rest : Alternatives)

end

/-! ## Induction along lists of parts

The types are defined together, so none of them has an induction of its own. -/

@[induction_eliminator]
theorem Values.induction {P : Values → Prop} (one : ∀ v, P (.one v))
    (cons : ∀ v vs, P vs → P (.cons v vs)) : ∀ vs, P vs
  | .one v => one v
  | .cons v vs => cons v vs (induction one cons vs)

@[induction_eliminator]
theorem Exprs.induction {P : Exprs → Prop} (nil : P .nil)
    (cons : ∀ x xs, P xs → P (.cons x xs)) : ∀ xs, P xs
  | .nil => nil
  | .cons x xs => cons x xs (induction nil cons xs)

@[induction_eliminator]
theorem Alternatives.induction {P : Alternatives → Prop} (one : ∀ a, P (.one a))
    (cons : ∀ a as, P as → P (.cons a as)) : ∀ as, P as
  | .one a => one a
  | .cons a as => cons a as (induction one cons as)

/-! ## Their nodes -/

mutual

def Value.node : Value → Node
  | .name x => x.node
  | .string x => x.node
  | .regexp x => x.node
  | .range e first last => .range e (String.ofList first.text) (String.ofList last.text)
  | .usage e rule arguments => .templateUsage e rule.node arguments.nodes

def Values.nodes : Values → List Node
  | .one v => [v.node]
  | .cons v rest => v.node :: rest.nodes

def Atom.node : Atom → Node
  | .value v => v.node
  | .group body => .list body.nodes
  | .maybe e body => .maybe e body.resolved

def Expr.node : Expr → Node
  | .mk e atom count => .expr e atom.node count.nodes

def Exprs.nodes : Exprs → List Node
  | .nil => []
  | .cons x rest => x.node :: rest.nodes

def Alternative.node : Alternative → Node
  | .plain e body => .expansion e body.nodes .absent
  | .named e inner body name => .aliasing e (.expansion inner body.nodes .absent) name.node

def Alternative.resolved : Alternative → Node
  | .plain e body => .expansion e body.nodes .absent
  | .named e _ body name => .expansion e body.nodes name.node

def Alternatives.nodes : Alternatives → List Node
  | .one a => [a.node]
  | .cons a rest => a.node :: rest.nodes

def Alternatives.resolved : Alternatives → List Node
  | .one a => [a.resolved]
  | .cons a rest => a.resolved :: rest.resolved

end

/-! ## Longer by one -/

def Values.snoc : Values → Value → Values
  | .one v, w => .cons v (.one w)
  | .cons v rest, w => .cons v (rest.snoc w)

def Exprs.snoc : Exprs → Expr → Exprs
  | .nil, y => .cons y .nil
  | .cons x rest, y => .cons x (rest.snoc y)

def Alternatives.snoc : Alternatives → Alternative → Alternatives
  | .one a, b => .cons a (.one b)
  | .cons a rest, b => .cons a (rest.snoc b)

theorem Values.nodes_snoc : ∀ (vs : Values) (w : Value), (vs.snoc w).nodes = vs.nodes ++ [w.node]
  | .one _, _ => rfl
  | .cons v rest, w => by rw [snoc, nodes, nodes_snoc rest w, nodes, List.cons_append]

theorem Exprs.nodes_snoc : ∀ (xs : Exprs) (y : Expr), (xs.snoc y).nodes = xs.nodes ++ [y.node]
  | .nil, _ => rfl
  | .cons x rest, y => by rw [snoc, nodes, nodes_snoc rest y, nodes, List.cons_append]

theorem Alternatives.nodes_snoc : ∀ (as : Alternatives) (b : Alternative),
    (as.snoc b).nodes = as.nodes ++ [b.node]
  | .one _, _ => rfl
  | .cons a rest, b => by rw [snoc, nodes, nodes_snoc rest b, nodes, List.cons_append]

/-- Resolving the aliases among alternatives. -/
theorem Alternatives.mapM_resolveAlias : ∀ as : Alternatives,
    as.nodes.mapM Node.resolveAlias = (.ok as.resolved : Except Fault (List Node))
  | .one (.plain ..) => rfl
  | .one (.named ..) => rfl
  | .cons (.plain ..) rest => by
    rw [nodes, List.mapM_cons, mapM_resolveAlias rest]
    rfl
  | .cons (.named ..) rest => by
    rw [nodes, List.mapM_cons, mapM_resolveAlias rest]
    rfl

/-! ## Statements -/

structure Priority where
  value : Int
  length_le : (Nat.toDigits 10 value.natAbs).length ≤ Text.digitLimit

inductive Definition
  | rule (e : Option Extent) (signs : Option (Word .modifiers)) (name : Word .ruleName)
    (parameters : List (Word .ruleName)) (priority : Priority) (body : Alternatives)
  | term (e : Option Extent) (name : Word .terminalName) (priority : Option (Word .number))
    (body : Alternatives)

/-- The dotted path of an import and the name at its end. -/
structure Path where
  relative : Bool
  init : List Name
  last : Name

inductive Source
  | whole (path : Path)
  | renamed (path : Path) (name : Name)
  | listed (path : Path) (first : Name) (more : List Name)

inductive Statement
  | definition (d : Definition)
  | override (e : Option Extent) (d : Definition)
  | extend (e : Option Extent) (d : Definition)
  | ignore (e : Option Extent) (body : Alternatives)
  | declare (e : Option Extent) (first : Name) (more : List Name)
  | imports (e : Option Extent) (source : Source)
  | comment (e : Option Extent) (x : Word .comment)

def underscoreMark (name : List Char) : List String := if name.head? = some '_' then ["_"] else []

def signChars : Option (Word .modifiers) → List Char
  | none => []
  | some x => x.text

/-- What the path of an import amounts to, without the name at its end. -/
def Path.text (p : Path) : String :=
  (if p.relative then "." else "") ++ ".".intercalate (p.init.map fun x => String.ofList x.text)

def termPriority : Option (Word .number) → Node
  | none => .number 0
  | some x => x.node

def Definition.node : Definition → Node
  | rule e signs name parameters priority body =>
    .rule e
      (.list ((signChars signs).map (fun c => .text (String.singleton c)) ++
        (underscoreMark name.text).map .text))
      name.node (.list (parameters.map Word.node)) (.number priority.value) body.resolved
  | term e name priority body =>
    .term e (underscoreMark name.text) name.node (termPriority priority) body.resolved

def Source.node (e : Option Extent) : Source → Node
  | whole path => .imports e (.text path.text) (.list [path.last.node]) .absent
  | renamed path name => .imports e (.text path.text) (.list [path.last.node]) name.node
  | listed path first more =>
    .imports e (.text (path.text ++ String.ofList path.last.text))
      (.list (first.node :: more.map Name.node)) .absent

def Statement.node : Statement → Node
  | definition d => d.node
  | override e d => .override e d.node
  | extend e d => .extend e d.node
  | ignore e body => .ignore e body.resolved
  | declare e first more => .declare e (first.node :: more.map Name.node)
  | imports e source => source.node e
  | comment e x => .comment e x.node

end GrammarServer.Typed
