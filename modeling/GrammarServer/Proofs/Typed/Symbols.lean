import GrammarServer.Proofs.Typed.Basic
import GrammarServer.Symbol.Table

/-!
# The symbols of typed statements

Symbols are collected from statements without fail. Each use is a name that stands in the
statement; of the definitions, the parameters of a rule are its children, the name behind an
imported name is a child of that, and the aliases of a definition come after it.
-/
namespace GrammarServer

/-- Going through a list does not fail if no step does. -/
theorem mapM_eq_ok {α β : Type} {f : α → Except Fault β} {g : α → β} {as : List α}
    (h : ∀ a ∈ as, f a = .ok (g a)) : as.mapM f = .ok (as.map g) := by
  induction as with
  | nil => rfl
  | cons a as ih =>
    obtain ⟨ha, has⟩ := List.forall_mem_cons.mp h
    rw [List.mapM_cons, ha, ih has]
    rfl

theorem mapM_map_eq_ok {α β γ : Type} {f : β → Except Fault γ} {n : α → β} {g : α → γ}
    (h : ∀ a, f (n a) = .ok (g a)) (as : List α) : (as.map n).mapM f = .ok (as.map g) := by
  rw [List.mapM_map]
  exact mapM_eq_ok fun a _ => h a

namespace Typed

/-! ## Uses -/

def Name.lexeme : Name → Lexeme
  | rule x => x.lexeme
  | terminal x => x.lexeme

mutual

def Value.uses : Value → List Name
  | .name x => [x]
  | .string _ | .regexp _ | .range .. => []
  | .usage _ rule arguments => Name.rule rule :: arguments.uses

def Values.uses : Values → List Name
  | .one v => v.uses
  | .cons v rest => v.uses ++ rest.uses

/-- Groups are not looked into. -/
def Atom.uses : Atom → List Name
  | .value v => v.uses
  | .group _ => []
  | .maybe _ body => body.uses

def Expr.uses : Expr → List Name
  | .mk _ atom _ => atom.uses

def Exprs.uses : Exprs → List Name
  | .nil => []
  | .cons x rest => x.uses ++ rest.uses

def Alternative.uses : Alternative → List Name
  | .plain _ body => body.uses
  | .named _ _ body name => body.uses ++ [.rule name]

def Alternatives.uses : Alternatives → List Name
  | .one a => a.uses
  | .cons a rest => a.uses ++ rest.uses

end

def Definition.uses : Definition → List Name
  | rule _ _ name parameters _ body => .rule name :: parameters.map Name.rule ++ body.uses
  | term _ name _ body => .terminal name :: body.uses

def Source.uses : Source → List Name
  | whole path => [path.last]
  | renamed path name => [path.last, name]
  | listed _ first more => first :: more

def Statement.uses : Statement → List Name
  | definition d | override _ d | extend _ d => d.uses
  | ignore _ body => body.uses
  | declare _ first more => first :: more
  | imports _ source => source.uses
  | comment .. => []

def referencesAt (about : Node) (xs : List Name) : List Reference :=
  xs.map fun x => x.lexeme.token.reference about

theorem referencesAt_append (about : Node) (xs ys : List Name) :
    referencesAt about (xs ++ ys) = referencesAt about xs ++ referencesAt about ys :=
  List.map_append

section

variable (about : Node)

theorem Word.references_node {t : Terminal} (x : Word t) : Node.references about x.node =
    .ok (if t = .ruleName ∨ t = .terminalName then [x.lexeme.token.reference about] else []) := by
  rw [Word.node, Node.references, Lexeme.token, x.terminal_eq]
  cases t <;> rfl

theorem Name.references_node (x : Name) :
    Node.references about x.node = .ok (referencesAt about [x]) := by
  cases x <;> exact Word.references_node about _

theorem referencesInAll_singleton {n : Node} {rs : List Reference}
    (h : Node.references about n = .ok rs) : Node.referencesInAll about [n] = .ok rs := by
  rw [Node.referencesInAll, h]
  exact congrArg Except.ok (List.append_nil rs)

theorem referencesInAll_map {α : Type} {n : α → Node} {f : α → Name}
    (h : ∀ a, Node.references about (n a) = .ok (referencesAt about [f a])) (as : List α) :
    Node.referencesInAll about (as.map n) = .ok (referencesAt about (as.map f)) := by
  induction as with
  | nil => rfl
  | cons a as ih =>
    rw [List.map_cons, Node.referencesInAll, h, ih]
    rfl

theorem referencesInAll_names (xs : List Name) :
    Node.referencesInAll about (xs.map Name.node) = .ok (referencesAt about xs) := by
  have hmap := referencesInAll_map about (Name.references_node about) xs
  rwa [List.map_id'] at hmap

mutual

theorem Value.references_node : ∀ v : Value,
    Node.references about v.node = .ok (referencesAt about v.uses)
  | .name x => x.references_node about
  | .string x => x.references_node about
  | .regexp x => x.references_node about
  | .range .. => rfl
  | .usage _ rule arguments => by
    rw [Value.node, Node.references, rule.references_node, Values.references_nodes arguments]
    rfl

theorem Values.references_nodes : ∀ vs : Values,
    Node.referencesInAll about vs.nodes = .ok (referencesAt about vs.uses)
  | .one v => referencesInAll_singleton about (Value.references_node v)
  | .cons v rest => by
    rw [Values.nodes, Node.referencesInAll, Value.references_node v, Values.references_nodes rest,
      Values.uses, referencesAt_append]
    rfl

theorem Atom.references_node : ∀ a : Atom,
    Node.references about a.node = .ok (referencesAt about a.uses)
  | .value v => Value.references_node v
  | .group _ => rfl
  | .maybe _ body => by
    rw [Atom.node, Node.references, Alternatives.references_resolved body, Atom.uses]

theorem Expr.references_node : ∀ x : Expr,
    Node.references about x.node = .ok (referencesAt about x.uses)
  | .mk _ atom _ => by
    rw [Expr.node, Node.references, Atom.references_node atom, Expr.uses]

theorem Exprs.references_nodes : ∀ xs : Exprs,
    Node.referencesInAll about xs.nodes = .ok (referencesAt about xs.uses)
  | .nil => rfl
  | .cons x rest => by
    rw [Exprs.nodes, Node.referencesInAll, Expr.references_node x, Exprs.references_nodes rest,
      Exprs.uses, referencesAt_append]
    rfl

theorem Alternative.references_resolved : ∀ a : Alternative,
    Node.references about a.resolved = .ok (referencesAt about a.uses)
  | .plain _ body => by
    rw [Alternative.resolved, Node.references, Exprs.references_nodes body, Alternative.uses]
    rfl
  | .named _ _ body name => by
    rw [Alternative.resolved, Node.references, Exprs.references_nodes body, name.references_node,
      Alternative.uses, referencesAt_append, name.isPresent_node]
    rfl

theorem Alternatives.references_resolved : ∀ as : Alternatives,
    Node.referencesInAll about as.resolved = .ok (referencesAt about as.uses)
  | .one a => referencesInAll_singleton about (Alternative.references_resolved a)
  | .cons a rest => by
    rw [Alternatives.resolved, Node.referencesInAll, Alternative.references_resolved a,
      Alternatives.references_resolved rest, Alternatives.uses, referencesAt_append]
    rfl

end

theorem Definition.references_node (d : Definition) :
    Node.references about d.node = .ok (referencesAt (about.orSelf d.node) d.uses) := by
  cases d with
  | rule e signs name parameters priority body =>
    have hparameters : ∀ about, Node.referencesInParts about (.list (parameters.map Word.node)) =
        .ok (referencesAt about (parameters.map Name.rule)) := fun about =>
      referencesInAll_map about (fun x => x.references_node about) parameters
    rw [Definition.node, Node.references, name.references_node, hparameters,
      body.references_resolved, Definition.uses, referencesAt_append]
    rfl
  | term e name priority body =>
    rw [Definition.node, Node.references, name.references_node, body.references_resolved]
    rfl

theorem Source.references_node (e : Option Extent) (source : Source) :
    Node.references .absent (source.node e) =
      .ok (referencesAt (source.node e) source.uses) := by
  cases source with
  | whole path =>
    rw [Source.node, Node.references, Node.referencesInParts,
      referencesInAll_singleton _ (path.last.references_node _)]
    rfl
  | renamed path name =>
    rw [Source.node, Node.references, Node.referencesInParts,
      referencesInAll_singleton _ (path.last.references_node _), name.references_node,
      name.isPresent_node]
    rfl
  | listed path first more =>
    rw [Source.node, Node.references, Node.referencesInParts, ← List.map_cons,
      referencesInAll_names]
    rfl

end

/-- The references of a statement are about the whole of it, one for each name used. -/
theorem Statement.references_node (s : Statement) :
    Node.references .absent s.node = .ok (referencesAt s.node s.uses) := by
  cases s with
  | definition d => exact d.references_node .absent
  | override e d => exact d.references_node _
  | extend e d => exact d.references_node _
  | ignore e body => exact body.references_resolved _
  | declare e first more =>
    exact referencesInAll_names _ (first :: more)
  | imports e source => exact source.references_node e
  | comment e x => rfl

/-! ## Definitions -/

def Name.directed (directive : Directive) (statement : Node) (range : Range) (x : Name) :
    GrammarServer.Definition :=
  { name := String.ofList x.text, kind := some x.lexeme.token.symbolKind, range,
    selection := x.lexeme.token.range true, directives := ⟨[directive]⟩, node := statement }

def Alternatives.aliases : Alternatives → List (Option Extent × Word .ruleName)
  | .one (.plain ..) => []
  | .one (.named e _ _ name) => [(e, name)]
  | .cons (.plain ..) rest => rest.aliases
  | .cons (.named e _ _ name) rest => (e, name) :: rest.aliases

namespace Definition

def name : Definition → List Char
  | rule _ _ name _ _ _ => name.text
  | term _ name _ _ => name.text

def body : Definition → Alternatives
  | rule _ _ _ _ _ body => body
  | term _ _ _ body => body

def signs : Definition → List String
  | rule _ signs name _ _ _ => (signChars signs).map String.singleton ++ underscoreMark name.text
  | term _ name _ _ => underscoreMark name.text

def modifiers (d : Definition) : Modifiers :=
  d.signs.foldl (fun m s => m.union (.ofSign s)) .none

def main (d : Definition) : GrammarServer.Definition :=
  match d with
  | rule e _ name parameters _ _ =>
    { name := String.ofList d.name, kind := some .rule, range := .ofExtent e,
      selection := name.lexeme.token.range true,
      children := some (parameters.map fun x =>
        { name := String.ofList x.text, kind := some .rule, range := .ofExtent e,
          selection := x.lexeme.token.range true, parent := some (String.ofList d.name),
          node := d.node }),
      modifiers := d.modifiers, node := d.node }
  | term e name _ _ =>
    { name := String.ofList d.name, kind := some .terminal, range := .ofExtent e,
      selection := name.lexeme.token.range true, modifiers := d.modifiers, node := d.node }

def aliasDefinition (d : Definition) (a : Option Extent × Word .ruleName) :
    GrammarServer.Definition :=
  { name := String.ofList a.2.text, kind := some .rule, range := .ofExtent a.1,
    selection := a.2.lexeme.token.range true, node := d.node,
    container := some (String.ofList d.name) }

def definitions (d : Definition) : List GrammarServer.Definition :=
  d.main :: d.body.aliases.map d.aliasDefinition

end Definition

def Source.definitions (e : Option Extent) (source : Source) : List GrammarServer.Definition :=
  let directed := Name.directed .imported (source.node e) (.ofExtent e)
  match source with
  | whole path => [directed path.last]
  | renamed path name =>
    [{ directed name with
        children := some [{ directed path.last with parent := some (String.ofList name.text) }] }]
  | listed _ first more => (first :: more).map directed

def Statement.definitions : Statement → List GrammarServer.Definition
  | definition d => d.definitions
  | declare e first more =>
    (first :: more).map (Name.directed .declared (declare e first more).node (.ofExtent e))
  | imports e source => source.definitions e
  | _ => []

theorem Name.directed_node (directive : Directive) (statement : Node) (range : Range) (x : Name) :
    Node.directed directive statement range x.node =
      .ok (x.directed directive statement range) := by
  cases x <;> rfl

theorem Alternatives.aliasDefinitions_resolved (d : Definition) {c : GrammarServer.Definition}
    (hname : c.name = String.ofList d.name) (hnode : c.node = d.node) (as : Alternatives) :
    Node.aliasDefinitions c as.resolved = .ok (as.aliases.map d.aliasDefinition) := by
  induction as with
  | one a =>
    cases a with
    | plain e body => rfl
    | named e inner body name =>
      rw [resolved, Alternative.resolved, Node.aliasDefinitions, Node.givenName, ok_bind,
        name.isPresent_node, hname, hnode]
      rfl
  | cons a rest ih =>
    cases a with
    | plain e body =>
      rw [resolved, Alternative.resolved, Node.aliasDefinitions, Node.givenName, ok_bind]
      exact ih
    | named e inner body name =>
      rw [resolved, Alternative.resolved, Node.aliasDefinitions, Node.givenName, ok_bind,
        name.isPresent_node, ih, hname, hnode]
      rfl

theorem addModifiers_texts (d : GrammarServer.Definition) (ss : List String) :
    Node.addModifiers d (ss.map .text) =
      .ok { d with modifiers := ss.foldl (fun m s => m.union (.ofSign s)) d.modifiers } := by
  induction ss generalizing d with
  | nil => cases d; rfl
  | cons s ss ih => exact ih _

theorem addParameters_words (range : Range) (xs : List (Word .ruleName))
    (d : GrammarServer.Definition) {kept : List GrammarServer.Definition}
    (hkept : d.children = some kept) :
    Node.addParameters d range (xs.map Word.node) =
      .ok { d with children := some (kept ++ xs.map fun x =>
        { name := String.ofList x.text, kind := some .rule, range,
          selection := x.lexeme.token.range true, parent := some d.name, node := d.node }) } := by
  induction xs generalizing d kept with
  | nil =>
    rw [List.map_nil, Node.addParameters, List.map_nil, List.append_nil, ← hkept]
    cases d
    rfl
  | cons x xs ih =>
    rw [List.map_cons, Node.addParameters]
    have hadded : ∀ c : GrammarServer.Definition,
        (d.addChild c).children = some (kept ++ [{ c with parent := some d.name }]) := by
      intro c
      rw [GrammarServer.Definition.addChild, hkept]
    refine (ih (d.addChild _) (hadded _)).trans ?_
    simp [GrammarServer.Definition.addChild, Word.toText_node]

theorem Definition.definitions_node (d : Definition) : d.node.definitions = .ok d.definitions := by
  cases d with
  | rule e signs name parameters priority body =>
    have hnode : (rule e signs name parameters priority body).node =
        .rule e (.list ((rule e signs name parameters priority body).signs.map .text)) name.node
          (.list (parameters.map Word.node)) (.number priority.value) body.resolved := by
      rw [Definition.node, Definition.signs, List.map_append, List.map_map]
      rfl
    have hselection : name.node.nameRange = .ok (name.lexeme.token.range true) := rfl
    rw [hnode, Node.definitions, hselection, ok_bind, Node.elements, ok_bind,
      addParameters_words _ _ _ rfl, ok_bind, Node.elements, ok_bind, addModifiers_texts, ok_bind,
      body.aliasDefinitions_resolved (rule e signs name parameters priority body) rfl hnode.symm,
      ok_bind, ← hnode]
    rfl
  | term e name priority body =>
    have hselection : name.node.nameRange = .ok (name.lexeme.token.range true) := rfl
    rw [Definition.node, Node.definitions, hselection, ok_bind]
    dsimp only
    rw [addModifiers_texts, ok_bind,
      body.aliasDefinitions_resolved (term e name priority body) rfl rfl, ok_bind]
    rfl

theorem Source.definitions_node (e : Option Extent) (source : Source) :
    (source.node e).definitions = .ok (source.definitions e) := by
  cases source with
  | whole path => exact mapM_map_eq_ok (Name.directed_node _ _ _) [path.last]
  | renamed path name =>
    rw [Source.node, Node.definitions, name.isPresent_node, if_pos rfl, name.directed_node, ok_bind,
      Node.elements, ok_bind]
    have hsources := mapM_map_eq_ok (Name.directed_node .imported ((renamed path name).node e)
      (.ofExtent e)) [path.last]
    rw [Source.node, List.map_singleton] at hsources
    rw [hsources]
    rfl
  | listed path first more =>
    exact mapM_map_eq_ok (Name.directed_node _ _ _) (first :: more)

theorem Statement.definitions_node (s : Statement) : s.node.definitions = .ok s.definitions := by
  cases s with
  | definition d => exact d.definitions_node
  | override | extend | ignore | comment => rfl
  | declare e first more =>
    exact mapM_map_eq_ok (Name.directed_node _ _ _) (first :: more)
  | imports e source => exact source.definitions_node e

/-- A definition of a statement is that of its name, that of an alias, that of a name in a
directive, or that of an import under another name. -/
theorem Statement.forall_mem_definitions {P : GrammarServer.Definition → Prop} (s : Statement)
    (hdefinition : ∀ d, s = .definition d →
      P d.main ∧ ∀ a ∈ d.body.aliases, P (d.aliasDefinition a))
    (hdirected : ∀ directive, ∀ x ∈ s.uses,
      P (x.directed directive s.node (.ofExtent s.node.extent)))
    (hrenamed : ∀ e path name, s = .imports e (.renamed path name) →
      ∀ d ∈ (Source.renamed path name).definitions e, P d) : ∀ d ∈ s.definitions, P d := by
  cases s with
  | definition d =>
    obtain ⟨hmain, haliases⟩ := hdefinition d rfl
    exact List.forall_mem_cons.mpr ⟨hmain, List.forall_mem_map.mpr haliases⟩
  | override | extend | ignore | comment => nofun
  | declare e first more => exact List.forall_mem_map.mpr (hdirected .declared)
  | imports e source =>
    cases source with
    | whole path => exact List.forall_mem_singleton.mpr (hdirected .imported _ List.mem_cons_self)
    | renamed path name => exact hrenamed e path name rfl
    | listed path first more => exact List.forall_mem_map.mpr (hdirected .imported)

/-- The definitions of a statement name it as their own. -/
theorem Statement.node_definitions (s : Statement) : ∀ d ∈ s.definitions, d.node = s.node := by
  refine s.forall_mem_definitions ?_ ?_ ?_
  · rintro d rfl
    exact ⟨by cases d <;> rfl, fun _ _ => rfl⟩
  · exact fun _ _ _ => rfl
  · rintro e path name rfl
    exact List.forall_mem_singleton.mpr rfl

/-! ## Whole files -/

def table (ss : List Statement) : SymbolTable :=
  { definitions := .group GrammarServer.Definition.name (ss.flatMap Statement.definitions)
    references := .group Reference.name (ss.flatMap fun s => referencesAt s.node s.uses) }

theorem collectDefinitions_nodes (ss : List Statement) :
    SymbolTable.empty.collectDefinitions (ss.map Statement.node) =
      .ok { table ss with references := .empty } := by
  rw [SymbolTable.collectDefinitions, mapM_map_eq_ok Statement.definitions_node, ok_bind, table,
    List.flatMap_def]
  rfl

theorem collectReferences_nodes (ss : List Statement) (t : SymbolTable)
    (ht : t.references = .empty) :
    t.collectReferences (ss.map Statement.node) =
      .ok { t with references := (table ss).references } := by
  rw [SymbolTable.collectReferences, mapM_map_eq_ok Statement.references_node, ok_bind, ht, table,
    List.flatMap_def]
  rfl

end Typed

end GrammarServer
