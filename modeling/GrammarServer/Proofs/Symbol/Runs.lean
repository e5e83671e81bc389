import GrammarServer.Proofs.Node.Built
import GrammarServer.Proofs.Symbol.Doubled

/-!
# Runs of a symbol table

A table is used by collecting symbols into it, checking them, and asking it. Whatever is done with
it, and in whatever order, its two catalogs keep what the statements collected so far define and
use, and nothing but collecting changes them. In the same way each definition keeps the children
that were added to it.
-/
namespace GrammarServer

namespace Definition

def adopt (d child : Definition) : Definition := { child with parent := some d.name }

theorem with_children {d : Definition} {cs : List Definition} (h : d.children = some cs) :
    { d with children := some cs } = d := by
  rw [← h]
  cases d
  rfl

theorem addChild_of_some {d : Definition} {kept : List Definition} (h : d.children = some kept)
    (child : Definition) :
    d.addChild child = { d with children := some (kept ++ [d.adopt child]) } := by
  rw [addChild, h]
  rfl

theorem foldl_addChild (added : List Definition) : ∀ {d : Definition} {kept : List Definition},
    d.children = some kept →
      added.foldl addChild d = { d with children := some (kept ++ added.map d.adopt) } := by
  induction added with
  | nil =>
    intro d kept h
    rw [List.foldl_nil, List.map_nil, List.append_nil, with_children h]
  | cons child added ih =>
    intro d kept h
    have hadopt : (d.addChild child).adopt = d.adopt := rfl
    have hrest := ih (congrArg Definition.children (addChild_of_some h child))
    rw [List.foldl_cons, hrest, hadopt, List.append_assoc, List.map_cons]
    rfl

/-- The definition has some children that were added to it, which have none themselves. -/
structure Raises (d : Definition) (added : List Definition) : Prop where
  children_eq : d.children = some (added.map d.adopt)
  childless : ∀ child ∈ added, child.children = some []

theorem raises_nil {d : Definition} (h : d.children = some []) : d.Raises [] :=
  ⟨h, List.forall_mem_nil _⟩

theorem Raises.addChild {d : Definition} {added : List Definition} (h : d.Raises added)
    {child : Definition} (hchild : child.children = some []) :
    (d.addChild child).Raises (added ++ [child]) := by
  rw [addChild_of_some h.children_eq]
  refine ⟨?_, List.forall_mem_append.mpr ⟨h.childless, List.forall_mem_singleton.mpr hchild⟩⟩
  rw [List.map_append]
  rfl

end Definition

namespace Node

/-! ## What a statement defines -/

theorem childless_of_directed {directive : Directive} {statement symbol : Node} {range : Range}
    {d : Definition} (h : directed directive statement range symbol = .ok d) :
    d.children = some [] ∧ d.node = statement := by
  obtain ⟨kind, _, h⟩ := bind_eq_ok.mp h
  obtain ⟨selection, _, h⟩ := bind_eq_ok.mp h
  obtain rfl := pure_eq_ok.mp h
  exact ⟨rfl, rfl⟩

theorem childless_of_aliasDefinitions {container : Definition} {xs : List Node} :
    ∀ {ds : List Definition}, aliasDefinitions container xs = .ok ds →
      ∀ d ∈ ds, d.children = some [] := by
  induction xs with
  | nil =>
    intro ds h
    obtain rfl := pure_eq_ok.mp h
    exact List.forall_mem_nil _
  | cons x xs ih =>
    intro ds h
    obtain ⟨name, _, h⟩ := bind_eq_ok.mp h
    split at h
    · obtain ⟨selection, _, h⟩ := bind_eq_ok.mp h
      obtain ⟨others, hothers, h⟩ := bind_eq_ok.mp h
      obtain rfl := pure_eq_ok.mp h
      exact List.forall_mem_cons.mpr ⟨rfl, ih hothers⟩
    · exact ih h

theorem raises_of_addParameters {range : Range} {ns : List Node} :
    ∀ {d d' : Definition} {added : List Definition}, addParameters d range ns = .ok d' →
      d.Raises added → d'.kind = d.kind ∧ ∃ added', d'.Raises added' := by
  induction ns with
  | nil =>
    intro d d' added h hd
    obtain rfl := pure_eq_ok.mp h
    exact ⟨rfl, added, hd⟩
  | cons n ns ih =>
    intro d d' added h hd
    obtain ⟨selection, _, h⟩ := bind_eq_ok.mp h
    obtain ⟨hkind, hraises⟩ := ih h (hd.addChild rfl)
    exact ⟨hkind, hraises⟩

theorem exists_of_addModifiers {ns : List Node} : ∀ {d d' : Definition},
    addModifiers d ns = .ok d' → ∃ modifiers, d' = { d with modifiers } := by
  induction ns with
  | nil =>
    intro d d' h
    obtain rfl := pure_eq_ok.mp h
    exact ⟨d'.modifiers, by cases d'; rfl⟩
  | cons n ns ih =>
    intro d d' h
    rw [addModifiers] at h
    split at h
    · cases h
    · obtain ⟨modifiers, rfl⟩ := ih h
      exact ⟨modifiers, rfl⟩

/-- A definition of a statement has no children, or it is that of an import under another name, with
the names behind that, or that of a rule, with the parameters. -/
theorem forall_mem_definitions {P : Definition → Prop} {statement : Node} {ds : List Definition}
    (h : statement.definitions = .ok ds) (hchildless : ∀ d, d.children = some [] → P d)
    (himports : ∀ e path symbols name, statement = .imports e path symbols name →
      ∀ d added, d.Raises added → d.node = statement → P d)
    (hrule : ∀ d added, d.Raises added → d.kind = some .rule → P d) : ∀ d ∈ ds, P d := by
  have hdirected : ∀ {directive range symbols ds},
      List.mapM (directed directive statement range) symbols = .ok ds → ∀ d ∈ ds, P d := by
    intro directive range symbols ds h d hd
    obtain ⟨symbol, _, hsymbol⟩ := exists_of_mem_mapM h hd
    exact hchildless d (childless_of_directed hsymbol).1
  cases statement
  case declare e symbols => exact hdirected h
  case imports e path symbols name =>
    rw [definitions] at h
    split at h
    · obtain ⟨d, hd, h⟩ := bind_eq_ok.mp h
      obtain ⟨elements, _, h⟩ := bind_eq_ok.mp h
      obtain ⟨sources, hsources, h⟩ := bind_eq_ok.mp h
      obtain rfl := pure_eq_ok.mp h
      obtain ⟨hchildren, hnode⟩ := childless_of_directed hd
      rw [Definition.foldl_addChild sources hchildren, List.nil_append]
      refine List.forall_mem_singleton.mpr
        (himports e path symbols name rfl _ sources ⟨rfl, fun child hchild => ?_⟩ hnode)
      obtain ⟨symbol, _, hsymbol⟩ := exists_of_mem_mapM hsources hchild
      exact (childless_of_directed hsymbol).1
    · obtain ⟨elements, _, h⟩ := bind_eq_ok.mp h
      exact hdirected h
  case rule e modifiers name parameters priority expansions =>
    rw [definitions] at h
    obtain ⟨selection, _, h⟩ := bind_eq_ok.mp h
    obtain ⟨elements, _, h⟩ := bind_eq_ok.mp h
    obtain ⟨grown, hgrown, h⟩ := bind_eq_ok.mp h
    obtain ⟨signs, _, h⟩ := bind_eq_ok.mp h
    obtain ⟨main, hmain, h⟩ := bind_eq_ok.mp h
    obtain ⟨aliases, haliases, h⟩ := bind_eq_ok.mp h
    obtain rfl := pure_eq_ok.mp h
    obtain ⟨hkind, added, hadded⟩ := raises_of_addParameters hgrown (Definition.raises_nil rfl)
    obtain ⟨modifiers, rfl⟩ := exists_of_addModifiers hmain
    refine List.forall_mem_cons.mpr ⟨hrule _ added ⟨hadded.children_eq, hadded.childless⟩ hkind, ?_⟩
    exact fun d hd => hchildless d (childless_of_aliasDefinitions haliases d hd)
  case term e modifiers name priority expansions =>
    rw [definitions] at h
    obtain ⟨selection, _, h⟩ := bind_eq_ok.mp h
    obtain ⟨main, hmain, h⟩ := bind_eq_ok.mp h
    obtain ⟨aliases, haliases, h⟩ := bind_eq_ok.mp h
    obtain rfl := pure_eq_ok.mp h
    obtain ⟨modifiers, rfl⟩ := exists_of_addModifiers hmain
    refine List.forall_mem_cons.mpr ⟨hchildless _ rfl, ?_⟩
    exact fun d hd => hchildless d (childless_of_aliasDefinitions haliases d hd)
  all_goals
    obtain rfl := pure_eq_ok.mp h
    exact List.forall_mem_nil _

theorem exists_raises {statement : Node} {ds : List Definition}
    (h : statement.definitions = .ok ds) : ∀ d ∈ ds, ∃ added, d.Raises added :=
  forall_mem_definitions h (fun _ hd => ⟨[], Definition.raises_nil hd⟩)
    (fun _ _ _ _ _ _ added hadded _ => ⟨added, hadded⟩) fun _ added hadded _ => ⟨added, hadded⟩

end Node

namespace SymbolTable

/-! ## Operations -/

/-- The statements are those of a file that is read from a source, errors passed over or not. -/
def IsRead (statements : List Node) : Prop :=
  ∃ source d file, (Parse.strict source = .ok d ∨ (Parse.recovering source).result = .ok d) ∧
    d.tree.build = .ok file ∧ file.statements = statements

theorem IsRead.exists_typed {statements : List Node} (h : IsRead statements) :
    ∃ ss : List Typed.Statement, statements = ss.map Typed.Statement.node := by
  obtain ⟨source, d, file, hparse, hbuild, rfl⟩ := h
  obtain ⟨e, ss, rfl, _⟩ := Typed.exists_statements_of_recovering
    (hparse.elim Parse.recovering_of_strict id) hbuild
  exact ⟨ss, rfl⟩

/-- What can be done with a table: symbols are collected into it, it checks or lists them, or it is
asked about a kind or a name. -/
inductive Operation
  | collectDefinitions (statements : List Node)
  | collectReferences (statements : List Node)
  | validateDefinitions
  | validateReferences
  | listDefinitions
  | listReferences
  | listKind (kind : Kind)
  | lookUp (name : String)
  | get (name : String)
  | contains (name : String)

namespace Operation

def definitions : Operation → List Definition
  | collectDefinitions statements => statements.flatMap fun s => s.definitions.toOption.getD []
  | _ => []

def references : Operation → List Reference
  | collectReferences statements =>
    statements.flatMap fun s => (Node.references .absent s).toOption.getD []
  | _ => []

def Reads : Operation → Prop
  | collectDefinitions statements | collectReferences statements => IsRead statements
  | _ => True

theorem forall_mem_definitions {P : Definition → Prop}
    (h : ∀ {s : Node} {ds : List Definition}, s.definitions = .ok ds → ∀ d ∈ ds, P d)
    (op : Operation) : ∀ d ∈ op.definitions, P d := by
  intro d hd
  cases op
  case collectDefinitions statements =>
    obtain ⟨s, _, hd⟩ := List.mem_flatMap.mp hd
    cases hs : s.definitions with
    | error fault => rw [hs] at hd; cases hd
    | ok ds => rw [hs] at hd; exact h hs d hd
  all_goals cases hd

end Operation

def apply (t : SymbolTable) : Operation → Except Fault SymbolTable
  | .collectDefinitions statements => t.collectDefinitions statements
  | .collectReferences statements => t.collectReferences statements
  | .validateDefinitions => .ok t.validateDefinitions
  | .validateReferences => t.validateReferences
  | .listDefinitions => .ok t.allDefinitions.2
  | .listReferences => .ok t.allReferences.2
  | .listKind _ | .lookUp _ | .get _ | .contains _ => .ok t

def run (t : SymbolTable) (ops : List Operation) : Except Fault SymbolTable := ops.foldlM apply t

theorem run_cons_eq_ok {t t' : SymbolTable} {op : Operation} {ops : List Operation} :
    t.run (op :: ops) = .ok t' ↔ ∃ next, t.apply op = .ok next ∧ next.run ops = .ok t' := by
  rw [run, List.foldlM_cons]
  exact bind_eq_ok

theorem flatten_of_mapM {α β : Type} {f : α → Except Fault (List β)} {as : List α} :
    ∀ {found : List (List β)}, as.mapM f = .ok found →
      found.flatten = as.flatMap fun a => (f a).toOption.getD [] := by
  induction as with
  | nil =>
    intro found h
    obtain rfl := pure_eq_ok.mp h
    rfl
  | cons a as ih =>
    intro found h
    obtain ⟨here, others, hhere, hothers, rfl⟩ := mapM_cons_eq_ok.mp h
    rw [List.flatten_cons, List.flatMap_cons, ih hothers, hhere]
    rfl

/-- An operation adds what it collects to the catalogs, and leaves them alone otherwise. -/
theorem catalogs_of_apply {t t' : SymbolTable} {op : Operation} (h : t.apply op = .ok t') :
    t'.definitions = t.definitions.addAll Definition.name op.definitions ∧
      t'.references = t.references.addAll Reference.name op.references := by
  cases op
  case collectDefinitions statements =>
    obtain ⟨found, hfound, h⟩ := bind_eq_ok.mp h
    obtain rfl := pure_eq_ok.mp h
    exact ⟨congrArg (t.definitions.addAll Definition.name) (flatten_of_mapM hfound), rfl⟩
  case collectReferences statements =>
    obtain ⟨found, hfound, h⟩ := bind_eq_ok.mp h
    obtain rfl := pure_eq_ok.mp h
    exact ⟨rfl, congrArg (t.references.addAll Reference.name) (flatten_of_mapM hfound)⟩
  case validateReferences =>
    obtain ⟨found, _, h⟩ := bind_eq_ok.mp h
    obtain rfl := pure_eq_ok.mp h
    exact ⟨rfl, rfl⟩
  case listDefinitions =>
    obtain rfl := pure_eq_ok.mp h
    unfold allDefinitions
    split <;> exact ⟨rfl, rfl⟩
  case listReferences =>
    obtain rfl := pure_eq_ok.mp h
    unfold allReferences
    split <;> exact ⟨rfl, rfl⟩
  all_goals
    obtain rfl := pure_eq_ok.mp h
    exact ⟨rfl, rfl⟩

/-- Nothing fails on a table that was filled from statements. -/
theorem exists_apply {t : SymbolTable} {ds : List Definition}
    (hds : t.definitions = .group Definition.name ds) (h : ∀ d ∈ ds, ∃ added, d.Raises added)
    {op : Operation} (hop : op.Reads) : ∃ t', t.apply op = .ok t' := by
  cases op
  case collectDefinitions statements =>
    obtain ⟨ss, rfl⟩ := IsRead.exists_typed hop
    exact ⟨_, bind_eq_ok.mpr ⟨_, mapM_map_eq_ok Typed.Statement.definitions_node ss, rfl⟩⟩
  case collectReferences statements =>
    obtain ⟨ss, rfl⟩ := IsRead.exists_typed hop
    exact ⟨_, bind_eq_ok.mpr ⟨_, mapM_map_eq_ok Typed.Statement.references_node ss, rfl⟩⟩
  case validateReferences =>
    refine ⟨_, validateReferences_group hds fun d hd => ?_⟩
    obtain ⟨added, hadded⟩ := h d hd
    rw [hadded.children_eq, Option.isSome_some]
  all_goals exact ⟨_, rfl⟩

theorem exists_run {ops : List Operation} (hops : ∀ op ∈ ops, op.Reads) :
    ∀ {t : SymbolTable} {ds : List Definition}, t.definitions = .group Definition.name ds →
      (∀ d ∈ ds, ∃ added, d.Raises added) → ∃ t', t.run ops = .ok t' := by
  induction ops with
  | nil => exact fun {t} _ _ _ => ⟨t, rfl⟩
  | cons op ops ih =>
    intro t ds hds h
    obtain ⟨hop, hops⟩ := List.forall_mem_cons.mp hops
    obtain ⟨next, hnext⟩ := exists_apply hds h hop
    have hdefinitions : next.definitions = .group Definition.name (ds ++ op.definitions) := by
      rw [(catalogs_of_apply hnext).1, hds]
      exact List.foldl_append.symm
    obtain ⟨t', ht'⟩ := ih hops hdefinitions (List.forall_mem_append.mpr
      ⟨h, op.forall_mem_definitions Node.exists_raises⟩)
    exact ⟨t', run_cons_eq_ok.mpr ⟨next, hnext, ht'⟩⟩

theorem isRead_foldedTemplate {file : Node} (hbuild : foldedTemplate.tree.build = .ok file) :
    IsRead file.statements := by
  have hparse : Parse.strict "a\x7bx, \\\n x\x7d: B -> a\r\na: B" = .ok foldedTemplate :=
    Parse.strict_of_settled (by decide) rfl (by decide) (by decide +kernel)
  exact ⟨_, _, file, Or.inl hparse, hbuild, rfl⟩

end SymbolTable

end GrammarServer
