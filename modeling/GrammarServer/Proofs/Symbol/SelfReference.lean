import GrammarServer.Proofs.Symbol.Doubled

/-!
# A name refers to itself where it is defined

The definitions of a statement and its references are collected by two walks through it. Whatever
is defined, as the name of a rule or a terminal, as a parameter, an alias, or a name in a
directive, is found by the other walk too: exactly one reference has its name and its kind and
stands where the definition is selected.
-/
namespace GrammarServer

/-- What a definition has in common with the reference to it at the same place. -/
def Definition.label (d : Definition) : String × Option Kind × Range :=
  (d.name, d.kind, d.selection)

def Reference.label (r : Reference) : String × Option Kind × Range := (r.name, r.kind, r.range)

def Definition.family (d : Definition) : List Definition := d :: d.children.getD []

theorem Position.Precedes.ne {p q : Position} (h : p.Precedes q) : p ≠ q := by
  rintro rfl
  rw [Precedes] at h
  omega

namespace Typed

def Name.label (x : Name) : String × Option Kind × Range :=
  (String.ofList x.text, some x.lexeme.token.symbolKind, x.lexeme.token.range true)

theorem map_label_referencesAt (about : Node) (xs : List Name) :
    (referencesAt about xs).map Reference.label = xs.map Name.label := by
  rw [referencesAt, List.map_map]
  apply List.map_congr_left
  intro x _
  cases x <;> rfl

/-- Names that follow one another have different places, so their labels differ. -/
theorem nodup_labels {xs : List Name} (h : Lexeme.Ordered (xs.map Name.lexeme)) :
    (xs.map Name.label).Nodup := by
  have hpositions := List.pairwise_map.mp (pairwise_positions h)
  rw [List.Nodup, List.pairwise_map]
  refine hpositions.imp fun hprecedes heq => hprecedes.ne ?_
  exact congrArg (fun label => label.2.2.start) heq

/-! ## What a statement defines -/

/-- The names that a definition introduces: its own, its parameters and its aliases. -/
def Definition.introduced : Definition → List Name
  | rule _ _ name parameters _ body =>
    .rule name :: parameters.map Name.rule ++ body.aliases.map fun a => .rule a.2
  | term _ name _ body => .terminal name :: body.aliases.map fun a => .rule a.2

/-- The names that an import introduces, a new name in front of the name that it stands for. -/
def Source.introduced : Source → List Name
  | whole path => [path.last]
  | renamed path name => [name, path.last]
  | listed _ first more => first :: more

def Statement.introduced : Statement → List Name
  | definition d => d.introduced
  | declare _ first more => first :: more
  | imports _ source => source.introduced
  | _ => []

theorem Definition.introduced_sublist_uses (d : Definition) : d.introduced.Sublist d.uses := by
  cases d with
  | rule e signs name parameters priority body => exact body.aliases_sublist_uses.append_left _
  | term e name priority body => exact body.aliases_sublist_uses.cons_cons _

/-- Whatever a statement introduces is among the names used in it. -/
theorem Statement.introduced_subperm_uses (s : Statement) : s.introduced.Subperm s.uses := by
  cases s with
  | definition d => exact d.introduced_sublist_uses.subperm
  | declare => exact List.Subperm.refl _
  | imports e source =>
    cases source with
    | renamed path name => exact (List.Perm.swap path.last name []).subperm
    | whole | listed => exact List.Subperm.refl _
  | override | extend | ignore | comment => exact (List.nil_sublist _).subperm

theorem Name.label_rule (x : Word .ruleName) :
    (Name.rule x).label = (String.ofList x.text, some .rule, x.lexeme.token.range true) := by
  rw [label, lexeme, Token.symbolKind, Lexeme.token, x.terminal_eq]
  rfl

theorem Name.label_terminal (x : Word .terminalName) :
    (Name.terminal x).label =
      (String.ofList x.text, some .terminal, x.lexeme.token.range true) := by
  rw [label, lexeme, Token.symbolKind, Lexeme.token, x.terminal_eq]
  rfl

theorem Definition.map_label_aliases (d : Definition) (as : List (Option Extent × Word .ruleName)) :
    ((as.map d.aliasDefinition).flatMap GrammarServer.Definition.family).map
      GrammarServer.Definition.label = (as.map fun a => Name.rule a.2).map Name.label := by
  induction as with
  | nil => rfl
  | cons a as ih =>
    rw [List.map_cons, List.flatMap_cons, List.map_append, ih, List.map_cons, List.map_cons,
      Name.label_rule]
    rfl

theorem Definition.map_label_main (d : Definition) :
    d.main.family.map GrammarServer.Definition.label ++
      (d.body.aliases.map fun a => Name.rule a.2).map Name.label =
        d.introduced.map Name.label := by
  cases d with
  | rule e signs name parameters priority body =>
    have hparameters : (parameters.map Name.rule).map Name.label = parameters.map fun x =>
        (String.ofList x.text, some Kind.rule, x.lexeme.token.range true) := by
      rw [List.map_map]
      exact List.map_congr_left fun x _ => Name.label_rule x
    rw [introduced, List.map_append, List.map_cons, Name.label_rule, hparameters,
      GrammarServer.Definition.family, List.map_cons]
    congr 2
    exact List.map_map
  | term e name priority body =>
    rw [introduced, List.map_cons, Name.label_terminal]
    rfl

theorem Definition.map_label_definitions (d : Definition) :
    (d.definitions.flatMap GrammarServer.Definition.family).map GrammarServer.Definition.label =
      d.introduced.map Name.label := by
  rw [definitions, List.flatMap_cons, List.map_append, d.map_label_aliases, d.map_label_main]

theorem map_label_directed (directive : Directive) (statement : Node) (range : Range)
    (xs : List Name) :
    ((xs.map (Name.directed directive statement range)).flatMap
      GrammarServer.Definition.family).map GrammarServer.Definition.label = xs.map Name.label := by
  induction xs with
  | nil => rfl
  | cons x xs ih => rw [List.map_cons, List.flatMap_cons, List.map_append, ih]; rfl

theorem Statement.map_label_definitions (s : Statement) :
    (s.definitions.flatMap GrammarServer.Definition.family).map GrammarServer.Definition.label =
      s.introduced.map Name.label := by
  cases s with
  | definition d => exact d.map_label_definitions
  | declare e first more => exact map_label_directed _ _ _ (first :: more)
  | imports e source =>
    cases source with
    | whole path => rfl
    | renamed path name => rfl
    | listed path first more => exact map_label_directed _ _ _ (first :: more)
  | override | extend | ignore | comment => rfl

end Typed

/-- Every definition in a statement, and every child of one, has exactly one reference with its
name, its kind and its selection, and no two of them have the same. -/
theorem Node.definitions_refer_to_themselves {source : String} {d : Derivation} {file : Node}
    (hparse : Parse.strict source = .ok d ∨ (Parse.recovering source).result = .ok d)
    (hbuild : d.tree.build = .ok file) :
    ∀ n ∈ file.statements, ∃ ds rs, n.definitions = .ok ds ∧ Node.references .absent n = .ok rs ∧
      (∀ x ∈ ds.flatMap Definition.family, (rs.map Reference.label).count x.label = 1) ∧
      ((ds.flatMap Definition.family).map Definition.label).Nodup := by
  have hrecovering := hparse.elim Parse.recovering_of_strict id
  obtain ⟨ss, hss, hconveys, _⟩ := Typed.exists_conveyed_statements hrecovering hbuild
  have huses := d.uses_sublist
  rw [hconveys.tells.uses] at huses
  have hordered := (Parse.ordered_of_recovering hrecovering).sublist huses
  rw [hss, List.forall_mem_map]
  intro s hs
  have hsublist : s.uses.Sublist (ss.flatMap Typed.Statement.uses) := by
    rw [List.flatMap_def]
    exact List.sublist_flatten_of_mem (List.mem_map_of_mem hs)
  have hlabels := Typed.nodup_labels (hordered.sublist (hsublist.map Typed.Name.lexeme))
  obtain ⟨defined, hperm, hdefined⟩ := s.introduced_subperm_uses
  replace hperm := hperm.map Typed.Name.label
  replace hdefined := hdefined.map Typed.Name.label
  refine ⟨_, _, s.definitions_node, s.references_node, ?_, ?_⟩
  · intro x hx
    have hlabel : x.label ∈ s.introduced.map Typed.Name.label := by
      rw [← s.map_label_definitions]
      exact List.mem_map_of_mem hx
    rw [Typed.map_label_referencesAt]
    exact List.count_eq_one_of_mem hlabels (hdefined.subset (hperm.mem_iff.mpr hlabel))
  · rw [s.map_label_definitions, ← hperm.nodup_iff]
    exact hlabels.sublist hdefined

/-- The rule and its alias have the same name, and so have its two parameters. -/
theorem Node.definitions_refer_to_themselves_foldedTemplate :
    Parse.strict "a\x7bx, \\\n x\x7d: B -> a\r\na: B" = .ok foldedTemplate ∧
    ∃ file n ds rs, foldedTemplate.tree.build = .ok file ∧ n ∈ file.statements ∧
      n.definitions = .ok ds ∧ Node.references .absent n = .ok rs ∧
      (ds.flatMap Definition.family).map Definition.name = ["a", "x", "x", "a"] ∧
      rs.map Reference.name = ["a", "x", "x", "B", "a"] ∧
      (∀ x ∈ ds.flatMap Definition.family, (rs.map Reference.label).count x.label = 1) ∧
      ((ds.flatMap Definition.family).map Definition.label).Nodup := by
  have hparse : Parse.strict "a\x7bx, \\\n x\x7d: B -> a\r\na: B" = .ok foldedTemplate :=
    Parse.strict_of_settled (by decide) rfl (by decide) (by decide +kernel)
  have hview : foldedTemplate.tree.build.toOption.any (fun file => file.statements.any fun n =>
      n.definitions.toOption.any (fun ds =>
        (ds.flatMap Definition.family).map Definition.name == ["a", "x", "x", "a"]) &&
      (Node.references .absent n).toOption.any fun rs =>
        rs.map Reference.name == ["a", "x", "x", "B", "a"]) = true := by decide +kernel
  obtain ⟨file, hfile, hview⟩ := (Option.any_eq_true _ _).mp hview
  obtain ⟨n, hn, hview⟩ := List.any_eq_true.mp hview
  have hbuild := Typed.eq_ok_of_toOption hfile
  obtain ⟨ds, rs, hds, hrs, hcount, hnodup⟩ :=
    definitions_refer_to_themselves (Or.inl hparse) hbuild n hn
  rw [hds, hrs, Bool.and_eq_true] at hview
  exact ⟨hparse, file, n, ds, rs, hbuild, hn, hds, hrs, by simpa [Except.toOption] using hview.1,
    by simpa [Except.toOption] using hview.2, hcount, hnodup⟩

end GrammarServer
