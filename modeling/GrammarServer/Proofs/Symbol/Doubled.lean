import GrammarServer.Proofs.Symbol.Shown
import Mathlib.Data.List.Perm.Subperm

/-!
# Names defined more than once

The check of the definitions goes through a catalog twice: first name by name, then child by child
for each definition of a rule. What it records is stated here without the catalog, by the list of
the definitions as they are collected. A definition is recorded as doubled exactly if an earlier one
in its scope has its name, where a scope is the list of all definitions or that of the parameters of
one template.
-/
namespace GrammarServer

namespace Definition

def parameters (d : Definition) : List Definition :=
  match d.node with
  | .rule .. => d.children.getD []
  | _ => []

/-- The names behind that of a definition that an import gives. -/
def sources (d : Definition) : List Definition :=
  match d.node with
  | .imports .. => d.children.getD []
  | _ => []

def checkedChildren (d : Definition) : List Definition :=
  if d.kind == some .rule then d.children.getD [] else []

/-- The lists in which a name should stand once: that of the definitions, and those of the
parameters of each. -/
def scopes (ds : List Definition) : List (List Definition) := ds :: ds.map parameters

/-- The definitions that have the name of an earlier one. -/
def doubled (ds : List Definition) : List Definition := Catalog.repeatedAfter name [] ds

def recordedAs (cause : SymbolError.Cause) (d : Definition) : SymbolError × Option Definition :=
  (⟨cause, d.name, d.selection.start⟩, some d)

theorem doubled_subset (ds : List Definition) : doubled ds ⊆ ds :=
  (Catalog.repeatedAfter_sublist name ds []).subset

theorem parts_of_childless {d : Definition} (h : d.children = some []) :
    d.parameters = [] ∧ d.sources = [] := by
  unfold parameters sources
  rw [h]
  constructor <;> split <;> rfl

theorem flatten_scopes_cons (d : Definition) {ds : List Definition}
    (h : ∀ x ∈ ds, x.parameters = []) : (scopes (d :: ds)).flatten = d :: ds ++ d.parameters := by
  have hnone : (ds.map parameters).flatten = [] := by simpa using h
  rw [scopes, List.flatten_cons, List.map_cons, List.flatten_cons, hnone, List.append_nil]

theorem filter_map_recordedAs (cause wanted : SymbolError.Cause) (ds : List Definition) :
    (ds.map (recordedAs cause)).filter (·.1.cause == wanted) =
      if cause = wanted then ds.map (recordedAs cause) else [] := by
  split
  case isTrue h => exact List.filter_eq_self.mpr (by simp [recordedAs, h])
  case isFalse h => exact List.filter_eq_nil_iff.mpr (by simp [recordedAs, h])

end Definition

open Definition (doubled recordedAs scopes)

/-! ## The errors without the catalog -/

namespace Check

theorem single_of_ne_nil (name : String) {ds : List Definition} (h : ds ≠ []) :
    single name ds = ds.tail.map (recordedAs .multiple) := by
  cases ds with
  | nil => exact absurd rfl h
  | cons first others => rfl

theorem single_group_perm (ds : List Definition) :
    ((Catalog.group Definition.name ds).entries.flatMap fun entry => single entry.1 entry.2).Perm
      ((doubled ds).map (recordedAs .multiple)) := by
  have htails : ((Catalog.group Definition.name ds).entries.flatMap
      fun entry => single entry.1 entry.2) =
      ((Catalog.group Definition.name ds).entries.flatMap (·.2.tail)).map
        (recordedAs .multiple) := by
    rw [List.map_flatMap]
    refine List.flatMap_congr fun entry hentry => ?_
    exact single_of_ne_nil entry.1 ((Catalog.mem_entries_group _ _).mp hentry).2
  rw [htails]
  exact (Catalog.tails_group_perm _ _).map _

theorem flatMap_shadowed (ds : List Definition) (c : Definitions) :
    (ds.flatMap fun d => shadowed d c) =
      (ds.filter fun d => c.contains d.name).map (recordedAs .shadowed) := by
  induction ds with
  | nil => rfl
  | cons d ds ih =>
    rw [List.flatMap_cons, ih, shadowed, List.filter_cons]
    split <;> rfl

theorem shadowed_group_perm (ds : List Definition) (c : Definitions) :
    ((Catalog.group Definition.name ds).entries.flatMap
      fun entry => entry.2.flatMap fun d => shadowed d c).Perm
      ((ds.filter fun d => c.contains d.name).map (recordedAs .shadowed)) := by
  rw [← List.flatMap_assoc, flatMap_shadowed]
  exact ((Catalog.values_group_perm _ _).filter _).map _

end Check

namespace SymbolTable

variable {t : SymbolTable} {ds : List Definition}

theorem ruleChildren_eq (t : SymbolTable) :
    t.ruleChildren = t.definitions.values.flatMap fun d =>
      (Catalog.group Definition.name d.checkedChildren).entries := by
  rw [ruleChildren, definitionsOfKind]
  induction t.definitions.values with
  | nil => rfl
  | cons d rest ih =>
    rw [List.flatMap_cons, ← ih, Definition.checkedChildren, List.filter_cons]
    split
    · rw [List.flatMap_cons, Definition.childCatalog]
      cases d.children <;> rfl
    · rfl

theorem ruleChildren_flatMap_perm {β : Type} (hds : t.definitions = .group Definition.name ds)
    (f : String × List Definition → List β) :
    (t.ruleChildren.flatMap f).Perm (ds.flatMap fun d =>
      (Catalog.group Definition.name d.checkedChildren).entries.flatMap f) := by
  rw [ruleChildren_eq, List.flatMap_assoc, hds]
  exact (Catalog.values_group_perm _ _).flatMap_right _

/-- What the check of the definitions adds: the definitions with the name of an earlier one in their
scope, and the children of rules with the name of a definition. -/
theorem definitionErrors_perm (hds : t.definitions = .group Definition.name ds) :
    t.validateDefinitions.definitionErrors.Perm (t.definitionErrors ++
      ((doubled ds ++ ds.flatMap fun d => doubled d.checkedChildren).map (recordedAs .multiple) ++
        ((ds.flatMap Definition.checkedChildren).filter fun c =>
          t.definitions.contains c.name).map (recordedAs .shadowed))) := by
  have hdoubled := (ruleChildren_flatMap_perm hds fun entry => Check.single entry.1 entry.2).trans
    (List.Perm.flatMap_left ds fun d _ => Check.single_group_perm d.checkedChildren)
  have hshadowed := (ruleChildren_flatMap_perm hds fun entry =>
    entry.2.flatMap fun c => Check.shadowed c t.definitions).trans
    (List.Perm.flatMap_left ds fun d _ => Check.shadowed_group_perm d.checkedChildren t.definitions)
  rw [← List.map_flatMap] at hdoubled hshadowed
  have hinner :=
    (List.flatMap_append_perm t.ruleChildren _ _).symm.trans (hdoubled.append hshadowed)
  have houter := Check.single_group_perm ds
  rw [← hds] at houter
  rw [List.map_append, List.append_assoc, List.filter_flatMap]
  simp only [validateDefinitions, List.append_assoc]
  exact (houter.append hinner).append_left _

/-- Each error that is found in the definitions is the record of one of them or of a child. -/
theorem exists_recordedAs (hds : t.definitions = .group Definition.name ds)
    (hnone : t.definitionErrors = []) : ∀ e ∈ t.validateDefinitions.definitionErrors,
      ∃ cause x, e = recordedAs cause x ∧ (cause = .multiple ∨ cause = .shadowed) ∧
        (x ∈ ds ∨ ∃ y ∈ ds, x ∈ y.children.getD []) := by
  intro e he
  have hchild : ∀ y ∈ ds, ∀ x ∈ y.checkedChildren, ∃ y ∈ ds, x ∈ y.children.getD [] := by
    intro y hy x hx
    unfold Definition.checkedChildren at hx
    split at hx
    · exact ⟨y, hy, hx⟩
    · cases hx
  have hmem := (definitionErrors_perm hds).subset he
  rw [hnone, List.nil_append] at hmem
  rcases List.mem_append.mp hmem with hmem | hmem
  · obtain ⟨x, hx, rfl⟩ := List.mem_map.mp hmem
    refine ⟨.multiple, x, rfl, Or.inl rfl, ?_⟩
    rcases List.mem_append.mp hx with hx | hx
    · exact Or.inl (Definition.doubled_subset ds hx)
    · obtain ⟨y, hy, hxy⟩ := List.mem_flatMap.mp hx
      exact Or.inr (hchild y hy x (Definition.doubled_subset _ hxy))
  · obtain ⟨x, hx, rfl⟩ := List.mem_map.mp hmem
    obtain ⟨y, hy, hxy⟩ := List.mem_flatMap.mp (List.mem_of_mem_filter hx)
    exact ⟨.shadowed, x, rfl, Or.inr rfl, Or.inr (hchild y hy x hxy)⟩

end SymbolTable

/-! ## Definitions of statements -/

namespace Typed

/-- The children of a definition are the parameters of a rule, or they are at most one, the name
behind that of an import. -/
theorem Statement.children_cases (s : Statement) : ∀ d ∈ s.definitions,
    d.kind = some .rule ∧ d.parameters = d.children.getD [] ∧ d.sources = [] ∨
      d.parameters = [] ∧ d.sources = d.children.getD [] ∧ d.sources.length ≤ 1 := by
  refine s.forall_mem_definitions ?_ ?_ ?_
  · rintro d rfl
    cases d with
    | rule e signs name parameters priority body =>
      exact ⟨Or.inl ⟨rfl, rfl, rfl⟩, fun a _ => Or.inl ⟨rfl, rfl, rfl⟩⟩
    | term e name priority body =>
      exact ⟨Or.inr ⟨rfl, rfl, Nat.zero_le 1⟩, fun a _ => Or.inr ⟨rfl, rfl, Nat.zero_le 1⟩⟩
  · intro directive x hx
    obtain ⟨hparameters, hsources⟩ := Definition.parts_of_childless
      (d := x.directed directive s.node (.ofExtent s.node.extent)) rfl
    rw [hparameters, hsources]
    exact Or.inr ⟨rfl, rfl, Nat.zero_le 1⟩
  · rintro e path name rfl
    exact List.forall_mem_singleton.mpr (Or.inr ⟨rfl, rfl, Nat.le_refl 1⟩)

theorem Statement.doubled_checkedChildren (s : Statement) : ∀ d ∈ s.definitions,
    doubled d.checkedChildren = doubled d.parameters := by
  intro d hd
  unfold GrammarServer.Definition.checkedChildren
  rcases s.children_cases d hd with ⟨hkind, hparameters, _⟩ | ⟨hparameters, hsources, hlength⟩
  · rw [hkind, hparameters]
    rfl
  · -- the single child of an import cannot have the name of an earlier one
    have hsingle : doubled (d.children.getD []) = [] := by
      rw [← hsources]
      rcases hchildren : d.sources with _ | ⟨c, _ | ⟨c', rest⟩⟩
      · rfl
      · rfl
      · simp [hchildren] at hlength
    rw [hparameters]
    split
    · exact hsingle
    · rfl

/-! ## No two at the same place -/

theorem Alternatives.aliases_sublist_uses (as : Alternatives) :
    (as.aliases.map fun a => Name.rule a.2).Sublist as.uses := by
  induction as with
  | one a =>
    cases a with
    | plain e body => exact List.nil_sublist _
    | named e inner body name => exact List.sublist_append_right body.uses [Name.rule name]
  | cons a rest ih =>
    cases a with
    | plain e body => exact ih.trans (List.sublist_append_right _ _)
    | named e inner body name =>
      exact (List.sublist_append_right body.uses [Name.rule name]).append ih

/-- Names in a directive are selected where they stand. -/
theorem directed_selections (directive : Directive) (statement : Node) (range : Range)
    (first : Name) (more : List Name) :
    (scopes ((first :: more).map (Name.directed directive statement range))).flatten.map
      (·.selection.start) = (first :: more).map fun x => x.lexeme.token.position true := by
  have hmore : ∀ x ∈ more.map (Name.directed directive statement range), x.parameters = [] :=
    List.forall_mem_map.mpr fun x _ => (Definition.parts_of_childless rfl).1
  rw [List.map_cons, Definition.flatten_scopes_cons _ hmore, (Definition.parts_of_childless rfl).1,
    List.append_nil, ← List.map_cons, List.map_map]
  rfl

/-- The definitions of a statement and the parameters among their children are selected where
different names of the statement stand. -/
theorem Statement.selections_subperm (s : Statement) :
    (((scopes s.definitions).flatten).map (·.selection.start)).Subperm
      (s.uses.map fun x => x.lexeme.token.position true) := by
  cases s with
  | definition d =>
    have haliases : ∀ x ∈ d.body.aliases.map d.aliasDefinition, x.parameters = [] :=
      List.forall_mem_map.mpr fun a _ => (Definition.parts_of_childless rfl).1
    have hbody := d.body.aliases_sublist_uses.map fun x => x.lexeme.token.position true
    have hselections : (d.body.aliases.map d.aliasDefinition).map (·.selection.start) =
        (d.body.aliases.map fun a => Name.rule a.2).map fun x => x.lexeme.token.position true := by
      rw [List.map_map, List.map_map]
      rfl
    rw [← hselections] at hbody
    rw [Statement.definitions, Definition.definitions, Definition.flatten_scopes_cons _ haliases,
      List.map_append, List.map_cons, List.cons_append]
    cases d with
    | rule e signs name parameters priority body =>
      have hparameters :
          (Definition.rule e signs name parameters priority body).main.parameters.map
            (·.selection.start) =
          (parameters.map Name.rule).map fun x => x.lexeme.token.position true := by
        rw [List.map_map]
        exact List.map_map
      rw [Statement.uses, Definition.uses, List.cons_append, List.map_cons, List.map_append,
        hparameters]
      -- The uses have the parameters before the aliases, the scopes after them.
      refine (List.subperm_cons _).mpr (List.perm_append_comm.subperm.trans ?_)
      exact ((List.Sublist.refl _).append hbody).subperm
    | term e name priority body =>
      rw [Statement.uses, Definition.uses, List.map_cons, (Definition.parts_of_childless rfl).1,
        List.map_nil, List.append_nil]
      exact (List.subperm_cons _).mpr hbody.subperm
  | override | extend | ignore | comment => exact List.nil_subperm
  | declare e first more =>
    exact (List.Perm.of_eq (directed_selections _ _ _ first more)).subperm
  | imports e source =>
    cases source with
    | whole path => exact (List.Perm.of_eq (directed_selections _ _ _ path.last [])).subperm
    | listed path first more =>
      exact (List.Perm.of_eq (directed_selections _ _ _ first more)).subperm
    | renamed path name =>
      exact (List.sublist_cons_self _ [name.lexeme.token.position true]).subperm

theorem selections_subperm (ss : List Statement) :
    ((scopes (ss.flatMap Statement.definitions)).flatten.map (·.selection.start)).Subperm
      ((ss.flatMap Statement.uses).map fun x => x.lexeme.token.position true) := by
  induction ss with
  | nil => exact List.nil_subperm
  | cons s ss ih =>
    have hparts := s.selections_subperm.append ih
    rw [← List.map_append, ← List.map_append] at hparts
    refine List.Subperm.trans (List.Perm.subperm (List.Perm.map _ ?_)) hparts
    simp only [scopes, List.flatMap_cons, List.flatten_cons, List.map_append, List.flatten_append,
      List.append_assoc]
    refine List.Perm.append_left _ ?_
    rw [← List.append_assoc, ← List.append_assoc]
    exact List.perm_append_comm.append_right _

/-- No two definitions of a source, parameters included, are selected at the same place. -/
theorem nodup_selections {source : String} {d : Derivation} {ss : List Statement}
    (hparse : (Parse.recovering source).result = .ok d)
    (huses : d.uses = (ss.flatMap Statement.uses).map Name.lexeme) :
    ((scopes (ss.flatMap Statement.definitions)).flatten.map (·.selection.start)).Nodup := by
  have hsublist := d.uses_sublist
  rw [huses] at hsublist
  have hpositions := pairwise_positions ((Parse.ordered_of_recovering hparse).sublist hsublist)
  obtain ⟨starts, hperm, hstarts⟩ := selections_subperm ss
  refine hperm.nodup_iff.mp ((hpositions.sublist hstarts).imp ?_)
  rintro p q hprecedes rfl
  rw [Position.Precedes] at hprecedes
  omega

end Typed

/-- A definition is recorded as doubled once for each list, of all definitions or of the parameters
of one template, in which it comes after another of its name. -/
theorem SymbolTable.doubled_recorded {source : String} {d : Derivation} {file : Node}
    (hparse : Parse.strict source = .ok d ∨ (Parse.recovering source).result = .ok d)
    (hbuild : d.tree.build = .ok file) :
    ∃ found defined, file.statements.mapM Node.definitions = .ok found ∧
      empty.collectDefinitions file.statements = .ok defined ∧
      defined.definitions.values.Perm found.flatten ∧
      (defined.validateDefinitions.definitionErrors.filter (·.1.cause == .multiple)).Perm
        (((scopes found.flatten).flatMap doubled).map (recordedAs .multiple)) ∧
      (∀ e ∈ defined.validateDefinitions.definitionErrors, e.1.cause ≠ .notFound) ∧
      ((scopes found.flatten).flatten.map (·.selection.start)).Nodup := by
  have hrecovering : (Parse.recovering source).result = .ok d :=
    hparse.elim Parse.recovering_of_strict id
  obtain ⟨ss, hss, hconveys, _⟩ := Typed.exists_conveyed_statements hrecovering hbuild
  have hnodup := Typed.nodup_selections hrecovering hconveys.tells.uses
  have hdoubled : ((ss.flatMap Typed.Statement.definitions).flatMap fun x =>
      doubled x.checkedChildren) =
      ((ss.flatMap Typed.Statement.definitions).map Definition.parameters).flatMap doubled := by
    rw [List.flatMap_map]
    refine List.flatMap_congr fun x hx => ?_
    obtain ⟨s, _, hxs⟩ := List.mem_flatMap.mp hx
    exact s.doubled_checkedChildren x hxs
  have herrors := definitionErrors_perm (t := { Typed.table ss with references := .empty }) rfl
  rw [hdoubled] at herrors
  rw [hss]
  refine ⟨_, _, mapM_map_eq_ok Typed.Statement.definitions_node ss,
    Typed.collectDefinitions_nodes ss, ?_⟩
  rw [← List.flatMap_def]
  refine ⟨Catalog.values_group_perm _ _, ?_, ?_, hnodup⟩
  · have hmultiple := herrors.filter (·.1.cause == .multiple)
    rw [List.filter_append, List.filter_append, Definition.filter_map_recordedAs,
      Definition.filter_map_recordedAs, if_pos rfl, if_neg nofun, List.append_nil] at hmultiple
    exact hmultiple
  · intro e he
    obtain ⟨cause, x, rfl, hcause, _⟩ := exists_recordedAs rfl rfl e he
    rcases hcause with rfl | rfl <;> nofun

open GrammarServer.Derivation in
/-- The derivation of a template whose parameters and alias repeat names, and of a rule of the same
name. A line ends inside the template. -/
def foldedTemplate : Derivation :=
  ofItems
    (ofRule ⟨0, 1, 1⟩ "a"
      [ofWord .leftBrace ⟨1, 1, 2⟩ "\x7b",
        ofParts .templateParamNames [
          ofParts .templateParamNames [ofWord .ruleName ⟨2, 1, 3⟩ "x"],
          ofWord .comma ⟨3, 1, 4⟩ ",",
          ofWord .ruleName ⟨8, 2, 2⟩ "x"],
        ofWord .rightBrace ⟨9, 2, 3⟩ "\x7d"]
      [] ⟨10, 2, 4⟩
      (ofNamed (ofValue .terminal .terminalName ⟨12, 2, 6⟩ "B") ⟨14, 2, 8⟩ ⟨17, 2, 11⟩ "a"))
    [ofWord .newline ⟨18, 2, 12⟩ "\r\n",
      ofRule ⟨20, 3, 1⟩ "a" [] [] ⟨21, 3, 2⟩
        (ofAlternative [ofValue .terminal .terminalName ⟨23, 3, 4⟩ "B"])]

def Definition.ofDerivation (d : Derivation) : Except Fault (List Definition) := do
  let file ← d.tree.build
  let found ← file.statements.mapM Node.definitions
  return found.flatten

theorem Definition.exists_of_ofDerivation {d : Derivation} {view : List Definition → Bool}
    (h : (ofDerivation d).toOption.any view = true) : ∃ file found, d.tree.build = .ok file ∧
      file.statements.mapM Node.definitions = .ok found ∧ view found.flatten = true := by
  obtain ⟨ds, hds, hview⟩ := (Option.any_eq_true _ _).mp h
  rw [ofDerivation] at hds
  obtain ⟨file, hbuild, hds⟩ := Typed.exists_of_toOption_bind hds
  obtain ⟨found, hfound, hds⟩ := Typed.exists_of_toOption_bind hds
  obtain rfl : found.flatten = ds := Option.some.inj hds
  exact ⟨file, found, hbuild, hfound, hview⟩

/-- The alias and the second rule come after a rule of their name, the second parameter after the
first. -/
theorem SymbolTable.doubled_recorded_foldedTemplate :
    Parse.strict "a\x7bx, \\\n x\x7d: B -> a\r\na: B" = .ok foldedTemplate ∧
    ∃ file defined, foldedTemplate.tree.build = .ok file ∧
      empty.collectDefinitions file.statements = .ok defined ∧
      ((defined.validateDefinitions.definitionErrors.filter
        (·.1.cause == .multiple)).map Prod.fst).Perm
        [⟨.multiple, "a", ⟨1, 10⟩⟩, ⟨.multiple, "a", ⟨2, 0⟩⟩, ⟨.multiple, "x", ⟨1, 1⟩⟩] := by
  have hparse : Parse.strict "a\x7bx, \\\n x\x7d: B -> a\r\na: B" = .ok foldedTemplate :=
    Parse.strict_of_settled (by decide) rfl (by decide) (by decide +kernel)
  have hview : (Definition.ofDerivation foldedTemplate).toOption.any (fun ds =>
      (((scopes ds).flatMap doubled).map (recordedAs .multiple)).map Prod.fst ==
        [⟨.multiple, "a", ⟨1, 10⟩⟩, ⟨.multiple, "a", ⟨2, 0⟩⟩,
          ⟨.multiple, "x", ⟨1, 1⟩⟩]) = true := by
    decide +kernel
  obtain ⟨file, found, hbuild, hfound, hview⟩ := Definition.exists_of_ofDerivation hview
  obtain ⟨found', defined, hfound', hdefined, _, hrecorded, _⟩ :=
    doubled_recorded (Or.inl hparse) hbuild
  obtain rfl := Except.ok.inj (hfound.symm.trans hfound')
  refine ⟨hparse, file, defined, hbuild, hdefined, ?_⟩
  rw [← eq_of_beq hview]
  exact hrecorded.map Prod.fst

end GrammarServer
