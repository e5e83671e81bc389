import GrammarServer.Proofs.Symbol.Doubled

/-!
# Children with the name of a definition

A template parameter that has the name of a definition is recorded as shadowing it. The check looks
at all children of rules, and an import under another name has a child too, the name in front of the
arrow. If the new name is that of a rule, this child is checked as if it were a parameter.
-/
namespace GrammarServer

open Definition (recordedAs)

namespace Definition

def shadowing (ds cs : List Definition) : List Definition :=
  cs.filter fun c => ds.any (·.name == c.name)

/-- The names behind that of an import that are checked as if they were parameters. -/
def checkedSources (d : Definition) : List Definition :=
  if d.kind == some .rule then d.sources else []

theorem shadowing_eq_nil_iff {ds cs : List Definition} :
    shadowing ds cs = [] ↔ ∀ c ∈ cs, ∀ d ∈ ds, d.name ≠ c.name := by
  simp [shadowing, List.filter_eq_nil_iff]

end Definition

open Definition (shadowing)

namespace Typed

/-- The children that are checked are parameters and names behind those of imports. -/
theorem Statement.checkedChildren_definitions (s : Statement) : ∀ d ∈ s.definitions,
    d.checkedChildren = d.parameters ++ d.checkedSources := by
  intro d hd
  unfold GrammarServer.Definition.checkedChildren GrammarServer.Definition.checkedSources
  rcases s.children_cases d hd with ⟨hkind, hparameters, hsources⟩ | ⟨hparameters, hsources, _⟩
  · rw [hkind, hparameters, hsources, ite_self, List.append_nil]
    rfl
  · rw [hparameters, hsources, List.nil_append]

theorem shadowing_checkedChildren_perm (ss : List Statement)
    (all : List GrammarServer.Definition) :
    let ds := ss.flatMap Statement.definitions
    (shadowing all (ds.flatMap Definition.checkedChildren)).Perm
      (shadowing all (ds.flatMap Definition.parameters) ++
        shadowing all (ds.flatMap Definition.checkedSources)) := by
  intro ds
  have hchildren : ds.flatMap Definition.checkedChildren =
      ds.flatMap fun d => d.parameters ++ d.checkedSources := by
    refine List.flatMap_congr fun d hd => ?_
    obtain ⟨s, _, hds⟩ := List.mem_flatMap.mp hd
    exact s.checkedChildren_definitions d hds
  rw [hchildren, shadowing, shadowing, shadowing, ← List.filter_append]
  exact (List.flatMap_append_perm ds _ _).symm.filter _

end Typed

/-- Besides the template parameters that have the name of a definition, the names that imports
replace by names of rules are recorded as shadowing, if they are defined too. -/
theorem SymbolTable.shadowed_recorded_iff {source : String} {d : Derivation} {file : Node}
    (hparse : Parse.strict source = .ok d ∨ (Parse.recovering source).result = .ok d)
    (hbuild : d.tree.build = .ok file) :
    ∃ found defined, file.statements.mapM Node.definitions = .ok found ∧
      empty.collectDefinitions file.statements = .ok defined ∧
      let recorded := defined.validateDefinitions.definitionErrors.filter (·.1.cause == .shadowed)
      let parameters := shadowing found.flatten (found.flatten.flatMap Definition.parameters)
      let sources := shadowing found.flatten (found.flatten.flatMap Definition.checkedSources)
      recorded.Perm ((parameters ++ sources).map (recordedAs .shadowed)) ∧
      (recorded.Perm (parameters.map (recordedAs .shadowed)) ↔
        ∀ x ∈ found.flatten, x.kind = some .rule → ∀ c ∈ x.sources, ∀ y ∈ found.flatten,
          y.name ≠ c.name) := by
  have hrecovering : (Parse.recovering source).result = .ok d :=
    hparse.elim Parse.recovering_of_strict id
  obtain ⟨_, ss, rfl, _⟩ := Typed.exists_statements_of_recovering hrecovering hbuild
  have herrors := definitionErrors_perm (t := { Typed.table ss with references := .empty }) rfl
  refine ⟨_, _, mapM_map_eq_ok Typed.Statement.definitions_node ss,
    Typed.collectDefinitions_nodes ss, ?_⟩
  rw [← List.flatMap_def]
  intro recorded parameters sources
  have hrecorded : recorded.Perm ((parameters ++ sources).map (recordedAs .shadowed)) := by
    have hshadowed := herrors.filter (·.1.cause == .shadowed)
    rw [List.filter_append, List.filter_append, Definition.filter_map_recordedAs,
      Definition.filter_map_recordedAs, if_neg nofun, if_pos rfl, List.nil_append] at hshadowed
    simp only [Typed.table, Catalog.contains_group_eq_any] at hshadowed
    exact hshadowed.trans ((Typed.shadowing_checkedChildren_perm ss _).map _)
  refine ⟨hrecorded, ?_⟩
  -- Beside the parameters there is no room for another record.
  have halone : recorded.Perm (parameters.map (recordedAs .shadowed)) ↔ sources = [] := by
    constructor
    · intro hperm
      have hlength := (hperm.symm.trans hrecorded).length_eq
      rw [List.length_map, List.length_map, List.length_append] at hlength
      exact List.length_eq_zero_iff.mp (by omega)
    · intro hnil
      rwa [hnil, List.append_nil] at hrecorded
  rw [halone, Definition.shadowing_eq_nil_iff, List.forall_mem_flatMap]
  simp only [Definition.checkedSources, beq_iff_eq]
  refine forall₂_congr fun x hx => ?_
  split
  case isTrue hkind => simp [hkind]
  case isFalse hkind => simp [hkind]

open GrammarServer.Derivation in
/-- The derivation of `%import c.x -> Y` and, on the next line, `x{x}: Y`. -/
def shadowingTemplate : Derivation :=
  ofItems
    (ofParts .imports [
      ofWord .importWord ⟨0, 1, 1⟩ "%import",
      ofParts .importPath [ofParts .importLib [ofParts .importArgs [
        ofParts .importArgs [ofParts .name [ofWord .ruleName ⟨8, 1, 9⟩ "c"]],
        ofWord .dot ⟨9, 1, 10⟩ ".",
        ofParts .name [ofWord .ruleName ⟨10, 1, 11⟩ "x"]]]],
      ofWord .arrow ⟨12, 1, 13⟩ "->",
      ofParts .name [ofWord .terminalName ⟨15, 1, 16⟩ "Y"]])
    [ofWord .newline ⟨16, 1, 17⟩ "\n",
      ofRule ⟨17, 2, 1⟩ "x" (ofParameter ⟨18, 2, 2⟩ ⟨19, 2, 3⟩ "x" ⟨20, 2, 4⟩) [] ⟨21, 2, 5⟩
        (ofAlternative [ofValue .terminal .terminalName ⟨23, 2, 7⟩ "Y"])]

/-- A name that an import gives to a terminal leaves the parameter as the only one. -/
theorem SymbolTable.shadowed_recorded_iff_shadowingTemplate :
    Parse.strict "%import c.x -> Y\nx\x7bx\x7d: Y" = .ok shadowingTemplate ∧
    ∃ file defined, shadowingTemplate.tree.build = .ok file ∧
      empty.collectDefinitions file.statements = .ok defined ∧
      ((defined.validateDefinitions.definitionErrors.filter
        (·.1.cause == .shadowed)).map Prod.fst).Perm [⟨.shadowed, "x", ⟨1, 2⟩⟩] := by
  have hparse : Parse.strict "%import c.x -> Y\nx\x7bx\x7d: Y" = .ok shadowingTemplate :=
    Parse.strict_of_settled (by decide) rfl (by decide) (by decide +kernel)
  have hview : (Definition.ofDerivation shadowingTemplate).toOption.any (fun ds =>
      ((shadowing ds (ds.flatMap Definition.parameters)).map (recordedAs .shadowed)).map Prod.fst ==
        [⟨.shadowed, "x", ⟨1, 2⟩⟩] &&
      ds.all fun x => x.kind != some .rule || x.sources.all fun c => ds.all (·.name != c.name)) =
        true := by
    decide +kernel
  obtain ⟨file, found, hbuild, hfound, hview⟩ := Definition.exists_of_ofDerivation hview
  obtain ⟨found', defined, hfound', hdefined, _, hiff⟩ :=
    shadowed_recorded_iff (Or.inl hparse) hbuild
  obtain rfl := Except.ok.inj (hfound.symm.trans hfound')
  rw [Bool.and_eq_true, beq_iff_eq] at hview
  refine ⟨hparse, file, defined, hbuild, hdefined, ?_⟩
  rw [← hview.1]
  refine (hiff.mpr ?_).map Prod.fst
  intro x hx hkind c hc y hy
  have hfree := List.all_eq_true.mp hview.2 x hx
  rw [hkind, bne_self_eq_false, Bool.false_or] at hfree
  simpa using List.all_eq_true.mp (List.all_eq_true.mp hfree c hc) y hy

open GrammarServer.Derivation in
/-- The derivation of `%import common.x -> y` and, on the next line, `x: "a"`. -/
def shadowingImport : Derivation :=
  ofItems
    (ofParts .imports [
      ofWord .importWord ⟨0, 1, 1⟩ "%import",
      ofParts .importPath [ofParts .importLib [ofParts .importArgs [
        ofParts .importArgs [ofParts .name [ofWord .ruleName ⟨8, 1, 9⟩ "common"]],
        ofWord .dot ⟨14, 1, 15⟩ ".",
        ofParts .name [ofWord .ruleName ⟨15, 1, 16⟩ "x"]]]],
      ofWord .arrow ⟨17, 1, 18⟩ "->",
      ofParts .name [ofWord .ruleName ⟨20, 1, 21⟩ "y"]])
    [ofWord .newline ⟨21, 1, 22⟩ "\n",
      ofRule ⟨22, 2, 1⟩ "x" [] [] ⟨23, 2, 2⟩
        (ofAlternative [ofValue .literal .string ⟨25, 2, 4⟩ "\"a\""]),
      ofWord .newline ⟨28, 2, 7⟩ "\n"]

/-- There is no template, and yet the name behind that of an import is recorded. -/
theorem SymbolTable.shadowed_shadowingImport :
    Parse.strict "%import common.x -> y\nx: \"a\"\n" = .ok shadowingImport ∧
    ∃ file found defined, shadowingImport.tree.build = .ok file ∧
      file.statements.mapM Node.definitions = .ok found ∧
      found.flatten.flatMap Definition.parameters = [] ∧
      empty.collectDefinitions file.statements = .ok defined ∧
      defined.validateDefinitions.definitionErrors.map Prod.fst =
        [⟨.shadowed, "x", ⟨0, 15⟩⟩] := by
  have hparse : Parse.strict "%import common.x -> y\nx: \"a\"\n" = .ok shadowingImport :=
    Parse.strict_of_settled (by decide) rfl (by decide) (by decide +kernel)
  have hview : ((do
      let file ← shadowingImport.tree.build
      let found ← file.statements.mapM Node.definitions
      let defined ← empty.collectDefinitions file.statements
      return ((found.flatten.flatMap Definition.parameters).map Definition.name,
        defined.validateDefinitions.definitionErrors.map Prod.fst) :
        Except Fault (List String × List SymbolError))).toOption =
      some ([], [⟨.shadowed, "x", ⟨0, 15⟩⟩]) := by
    decide +kernel
  obtain ⟨file, hbuild, hview⟩ := Typed.exists_of_toOption_bind hview
  obtain ⟨found, hfound, hview⟩ := Typed.exists_of_toOption_bind hview
  obtain ⟨defined, hdefined, hview⟩ := Typed.exists_of_toOption_bind hview
  obtain ⟨hparameters, herrors⟩ := Prod.mk.inj (Option.some.inj hview)
  exact ⟨hparse, file, found, defined, hbuild, hfound, List.map_eq_nil_iff.mp hparameters, hdefined,
    herrors⟩

end GrammarServer
