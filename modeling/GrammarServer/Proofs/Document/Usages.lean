import GrammarServer.Proofs.Document.Diagnostics
import GrammarServer.Proofs.Session.History
import GrammarServer.Proofs.Symbol.Shown

/-!
# The symbols of a document and their usages

A document collects its symbols from the statements that are read from its text. Its usages are
looked up apart from the symbol table, where nothing is ever filled in. So a request for the
references of a name finds none, and is answered by the definition at most.
-/
namespace GrammarServer

def Typed.checkedTable (ss : List Statement) : SymbolTable :=
  { table ss with
    definitionErrors := (table ss).validateDefinitions.definitionErrors
    referenceErrors := (table ss).references.entries.flatMap fun entry =>
      Check.undefinedUses (ss.flatMap Statement.definitions) entry.1 entry.2 }

namespace Document

/-- The names that are used in a source, if a file can be built from it. -/
def readUses (source : String) : List Lexeme :=
  match (Parse.recovering source).result with
  | .error _ => []
  | .ok d => if d.tree.build.toOption.isSome then d.uses else []

theorem occursIn_of_mem_readUses {source : String} {x : Lexeme} (h : x ∈ readUses source) :
    x.OccursIn source := by
  cases hresult : (Parse.recovering source).result with
  | error e => simp [readUses, hresult] at h
  | ok d =>
    simp only [readUses, hresult] at h
    split at h
    · exact Parse.occursIn_of_recovering hresult x (d.uses_sublist.subset h)
    · cases h

theorem readUses_of_built {source : String} {errors : List SyntaxError} {d : Derivation}
    (hparse : Parse.recovering source = ⟨errors, .ok d⟩)
    (hbuilt : d.tree.build.toOption.isSome = true) : readUses source = d.uses := by
  simp only [readUses, hparse, hbuilt, if_true]

/-- A document with its symbols, which are collected from some statements. -/
structure Holds (d : Document) (uri source : String) (ss : List Typed.Statement) : Prop where
  uri_eq : d.uri = uri
  lines_eq : d.lines = Text.lines source
  usages_eq : d.usages = .empty
  definitions_eq : d.table.definitions = (Typed.table ss).definitions
  references_eq : d.table.references = (Typed.table ss).references
  uses_eq : readUses source = (ss.flatMap Typed.Statement.uses).map Typed.Name.lexeme

/-- The document holds the symbols of some statements, and reports what the parser could not read,
then what is wrong with the symbols, and at the end a failure of the analysis. -/
structure Reports (d : Document) (uri source : String) (ss : List Typed.Statement)
    (failures : List Problem) : Prop where
  uri_eq : d.uri = uri
  lines_eq : d.lines = Text.lines source
  usages_eq : d.usages = .empty
  table_eq : d.table = Typed.checkedTable ss
  uses_eq : readUses source = (ss.flatMap Typed.Statement.uses).map Typed.Name.lexeme
  isFailure : ∀ p ∈ failures, p.IsFailure
  diagnostics_eq : d.diagnostics =
    (parseProblems source ++ symbolProblems d.table ++ failures).map
      (Problem.diagnostic d.lines (some .error))

/-- A document that could not be read has no symbols. -/
theorem reports_reportAll {uri source : String} (h : readUses source = []) {p : Problem}
    (hp : p.IsFailure) :
    (({ uri, source, lines := Text.lines source } : Document).reportAll
      (parseProblems source ++ [p])).Reports uri source [] [p] := by
  rw [reportAll_eq]
  refine ⟨rfl, rfl, rfl, rfl, h, List.forall_mem_singleton.mpr hp, ?_⟩
  simp [symbolProblems, SymbolTable.empty]

theorem isFailure_failure (message : String) : (failure message).IsFailure := by
  simp [Problem.IsFailure, failure]

/-- However far the analysis gets, the document reports on the symbols of the statements read. -/
theorem exists_reports (load : Loader) (uri source : String) :
    ∃ ss failures, (ofText load uri source).Reports uri source ss failures := by
  cases hresult : (Parse.recovering source).result with
  | error e =>
    rw [ofText_of_parse_error load uri hresult]
    refine ⟨[], _, reports_reportAll (by simp [readUses, hresult]) ?_⟩
    simp [Problem.IsFailure, Problem.ofSyntaxError]
  | ok derivation =>
    cases hbuild : derivation.tree.build with
    | error fault =>
      rw [ofText_of_build_error load uri hresult hbuild]
      exact ⟨[], _, reports_reportAll (by simp [readUses, hresult, hbuild, Except.toOption])
        (isFailure_failure _)⟩
    | ok file =>
      obtain ⟨ss, hss, hconveys, _⟩ := Typed.exists_conveyed_statements hresult hbuild
      have hdefined := Typed.collectDefinitions_nodes ss
      have hcollected := Typed.collectReferences_nodes ss
        ({ Typed.table ss with references := .empty } : SymbolTable).validateDefinitions rfl
      rw [← hss] at hdefined hcollected
      refine ⟨ss, loadProblems load uri source, ?_⟩
      rw [ofText_of_file load uri hresult hbuild hdefined hcollected
        (SymbolTable.validateReferences_eq_ok rfl (Typed.isNamed_flatMap ss)) rfl]
      refine ⟨rfl, rfl, rfl, rfl, ?_, ?_, rfl⟩
      · simp only [readUses, hresult, hbuild, Except.toOption, Option.isSome_some, if_true]
        exact hconveys.tells.uses
      · exact List.forall_mem_map.mpr fun e _ => isFailure_failure e.message

/-- However far the analysis gets, the symbols of a document are those of the statements read. -/
theorem exists_holds (load : Loader) (uri source : String) :
    ∃ ss, (ofText load uri source).Holds uri source ss := by
  obtain ⟨ss, _, hreports⟩ := exists_reports load uri source
  refine ⟨ss, hreports.uri_eq, hreports.lines_eq, hreports.usages_eq, ?_, ?_, hreports.uses_eq⟩
  · rw [hreports.table_eq]
    rfl
  · rw [hreports.table_eq]
    rfl

/-- Every use of a name in the source becomes a reference. -/
theorem exists_reference (load : Loader) (uri : String) {source : String} {x : Lexeme}
    (h : x ∈ readUses source) : ∃ r ∈ (ofText load uri source).table.references.values,
      r.name = String.ofList x.text ∧ r.range = x.token.range true := by
  obtain ⟨ss, hholds⟩ := exists_holds load uri source
  rw [hholds.uses_eq] at h
  obtain ⟨y, hy, rfl⟩ := List.mem_map.mp h
  obtain ⟨s, hs, hys⟩ := List.mem_flatMap.mp hy
  rw [hholds.references_eq]
  refine ⟨y.lexeme.token.reference s.node, (Catalog.mem_values_group _ _).mpr ?_, rfl, rfl⟩
  exact List.mem_flatMap.mpr ⟨s, hs, List.mem_map_of_mem hys⟩

def collectedLocations (d : Document) (name : String) : List Location :=
  ((d.table.references.get? name).getD []).map (Reference.location d.uri)

/-- The references under a name are the uses of that name, in their order. -/
theorem collectedLocations_ofText (load : Loader) (uri source name : String) :
    (ofText load uri source).collectedLocations name =
      ((readUses source).filter fun x => String.ofList x.text == name).map fun x =>
        ⟨uri, x.token.range true⟩ := by
  obtain ⟨ss, hholds⟩ := exists_holds load uri source
  have hget : ∀ rs : List Reference, ((Catalog.group Reference.name rs).get? name).getD [] =
      rs.filter (·.name == name) := by
    intro rs
    rw [Catalog.get?_group]
    split
    · rename_i hnone
      rw [hnone]
      rfl
    · rfl
  rw [collectedLocations, hholds.uri_eq, hholds.references_eq, Typed.table, hget, hholds.uses_eq]
  simp only [List.map_flatMap, List.filter_flatMap, Typed.referencesAt, List.filter_map,
    List.map_map]
  rfl

theorem usageLocations_ofText (load : Loader) (uri source name : String) :
    (ofText load uri source).usageLocations name = [] := by
  obtain ⟨ss, hholds⟩ := exists_holds load uri source
  rw [usageLocations, hholds.usages_eq]
  rfl

/-- The usages of a name are found exactly if there are none: each use is collected, and none is
among the usages with which a request is answered. -/
theorem usages_complete_iff (s : Session) (uri source name : String) :
    let d := ofText s.load uri source
    d.collectedLocations name = ((readUses source).filter fun x => String.ofList x.text == name).map
      (fun x => ⟨uri, x.token.range true⟩) ∧
    d.usageLocations name = [] ∧
    (d.usageLocations name = d.collectedLocations name ↔
      ∀ x ∈ readUses source, String.ofList x.text ≠ name) ∧
    ∀ line column start stop, d.wordAt line column = .ok (some (name, start, stop)) → name ≠ "" →
      ∀ includeDeclaration : Bool,
        (s.update uri source).1.query (.references uri line column includeDeclaration) =
          .ok (.locations
            ((if includeDeclaration then d.definitionLocation name else none).toList ++
              d.usageLocations name)) := by
  have hcollected := collectedLocations_ofText s.load uri source name
  have husages := usageLocations_ofText s.load uri source name
  refine ⟨hcollected, husages, ?_, ?_⟩
  · rw [husages, hcollected, eq_comm, List.map_eq_nil_iff, List.filter_eq_nil_iff]
    simp
  · intro line column start stop hword hname includeDeclaration
    rw [Session.query, Session.document?_update, if_pos rfl]
    simp only [Session.referencesAnswer, hword, Typed.ok_bind, beq_iff_eq, if_neg hname]
    rfl

theorem wordAt_ofText (load : Loader) (uri source : String) (line column : Int) :
    (ofText load uri source).wordAt line column =
      wordAt { uri, source, lines := Text.lines source } line column := by
  obtain ⟨ss, hholds⟩ := exists_holds load uri source
  simp only [wordAt, Document.line, hholds.lines_eq]

theorem readUses_twoLines : readUses "a: b\nC: \"x\"" =
    [⟨.ruleName, ['a'], ⟨0, 1, 1⟩, ⟨1, 1, 2⟩⟩, ⟨.ruleName, ['b'], ⟨3, 1, 4⟩, ⟨4, 1, 5⟩⟩,
      ⟨.terminalName, ['C'], ⟨5, 2, 1⟩, ⟨6, 2, 2⟩⟩] := by
  have hparse : Parse.recovering "a: b\nC: \"x\"" = ⟨[], .ok twoLines⟩ :=
    Parse.recovering_of_settled (by decide) rfl (by decide) (by decide +kernel)
  rw [readUses_of_built hparse (by decide +kernel)]
  decide

/-- With the cursor on a name, the handler finds the definition of another one at most. -/
theorem usages_complete_iff_twoLines :
    (ofText .idle "u" "a: b\nC: \"x\"").wordAt 0 3 = .ok (some ("b", 3, 4)) ∧
      ((({ load := .idle } : Session).update "u" "a: b\nC: \"x\"").1.query
        (.references "u" 0 3 false) = .ok (.locations [])) := by
  have hword : (ofText .idle "u" "a: b\nC: \"x\"").wordAt 0 3 = .ok (some ("b", 3, 4)) := by
    rw [wordAt_ofText]
    rfl
  obtain ⟨_, husages, _, hanswer⟩ :=
    usages_complete_iff { load := .idle } "u" "a: b\nC: \"x\"" "b"
  rw [husages] at hanswer
  exact ⟨hword, hanswer 0 3 3 4 hword (by decide) false⟩

/-- The one use of a name is collected, and yet it is not among the usages. -/
theorem usages_lack_twoLines :
    (ofText .idle "u" "a: b\nC: \"x\"").collectedLocations "b" = [⟨"u", ⟨⟨0, 3⟩, ⟨0, 4⟩⟩⟩] ∧
      (ofText .idle "u" "a: b\nC: \"x\"").usageLocations "b" = [] := by
  rw [collectedLocations_ofText, usageLocations_ofText, readUses_twoLines]
  exact ⟨rfl, rfl⟩

end Document

end GrammarServer
