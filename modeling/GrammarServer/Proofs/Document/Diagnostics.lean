import GrammarServer.Document
import GrammarServer.Proofs.Parse.Complete
import GrammarServer.Proofs.Symbol.Checked
import GrammarServer.Proofs.Typed.Total

/-!
# The diagnostics of a document

Once the parser has got through a source nothing in the analysis fails, so a document reports the
errors of the parser and those in its symbols, in this order, and nothing else. Whatever the source,
a diagnostic is about some characters of one line, or about the end of a line.

Nesting is taken as unbounded. Where files are built on a stack of limited depth, building fails for
sources with some hundred and sixty groups inside one another; that limit is no part of the model.
-/
namespace GrammarServer

/-- A diagnostic starts in a line of the text, and is not empty. In a text without lines it starts
at the very beginning. -/
structure Diagnostic.InText (lines : List String) (x : Diagnostic) : Prop where
  line_nonneg : 0 ≤ x.range.start.line
  line_le : x.range.start.line ≤ max 0 ((lines.length : Int) - 1)
  column_nonneg : 0 ≤ x.range.start.column
  column_le : x.range.start.column ≤ (lines.getD x.range.start.line.toNat "").length
  stop_line : x.range.stop.line = x.range.start.line
  stop_column : x.range.start.column < x.range.stop.column

namespace Problem

theorem inText_diagnostic {p : Problem} (h : 0 < p.width) (lines : List String)
    (severity : Option Severity) : (p.diagnostic lines severity).InText lines where
  line_nonneg := by simp only [diagnostic]; omega
  line_le := by simp only [diagnostic]; omega
  column_nonneg := by simp only [diagnostic]; omega
  column_le := by simp only [diagnostic]; omega
  stop_line := rfl
  stop_column := by simp only [diagnostic]; omega

theorem width_ofSymbolError_pos {e : SymbolError} (h : e.IsNamed) : 0 < (ofSymbolError e).width :=
  Int.natCast_pos.mpr h.width_pos

def IsFailure (p : Problem) : Prop := "Error analyzing document".toList <+: p.message.toList

theorem not_isFailure_ofSyntaxError (e : SyntaxError) :
    ¬ (ofSyntaxError "Parse error: " e).IsFailure := by
  simp [IsFailure, ofSyntaxError]

theorem not_isFailure_ofSymbolError {e : SymbolError} (h : e.IsNamed) :
    ¬ (ofSymbolError e).IsFailure := by
  have hcause := h.cause_ne
  obtain ⟨cause, name, position⟩ := e
  cases cause <;> simp_all [IsFailure, ofSymbolError, SymbolError.message]

end Problem

namespace Document

theorem reportAll_eq (ps : List Problem) (d : Document) : d.reportAll ps =
    { d with
      diagnostics := d.diagnostics ++ ps.map (Problem.diagnostic d.lines (some .error)) } := by
  induction ps generalizing d with
  | nil => simp [reportAll]
  | cons p ps ih =>
    rw [reportAll, List.foldl_cons, ← reportAll, ih]
    simp [report]

def parseProblems (source : String) : List Problem :=
  (Parse.recovering source).errors.map (.ofSyntaxError "Parse error: ")

def symbolProblems (t : SymbolTable) : List Problem :=
  t.definitionErrors.map (fun e => .ofSymbolError e.1) ++
    t.referenceErrors.map fun e => .ofSymbolError e.1

def loadProblems (load : Loader) (uri source : String) : List Problem :=
  (load uri source).toList.map loadFailure

theorem ofText_of_parse_error (load : Loader) (uri : String) {source : String} {e : SyntaxError}
    (hresult : (Parse.recovering source).result = .error e) :
    ofText load uri source = ({ uri, source, lines := Text.lines source } : Document).reportAll
      (parseProblems source ++ [Problem.ofSyntaxError "Error analyzing document: " e]) := by
  simp [ofText, analyze, readStage, hresult, reportAll_eq, report, parseProblems]

theorem ofText_of_build_error (load : Loader) (uri : String) {source : String} {d : Derivation}
    {fault : Fault} (hresult : (Parse.recovering source).result = .ok d)
    (hbuild : d.tree.build = .error fault) :
    ofText load uri source = ({ uri, source, lines := Text.lines source } : Document).reportAll
      (parseProblems source ++ [failure fault.message]) := by
  simp [ofText, analyze, readStage, hresult, hbuild, reportAll_eq, report, parseProblems]

theorem ofText_of_file (load : Loader) (uri : String) {source : String} {d : Derivation}
    {file : Node} {defined collected checked : SymbolTable}
    (hresult : (Parse.recovering source).result = .ok d) (hbuild : d.tree.build = .ok file)
    (hdefined : SymbolTable.empty.collectDefinitions file.statements = .ok defined)
    (hcollected : defined.validateDefinitions.collectReferences file.statements = .ok collected)
    (hchecked : collected.validateReferences = .ok checked)
    (hkept : checked.definitionErrors = defined.validateDefinitions.definitionErrors) :
    ofText load uri source =
      { uri, source, lines := Text.lines source, table := checked, file := some file
        diagnostics := (parseProblems source ++ symbolProblems checked ++
          loadProblems load uri source).map
            (Problem.diagnostic (Text.lines source) (some .error)) } := by
  cases hload : load uri source <;>
    simp [ofText, analyze, readStage, definitionStage, definitionCheckStage, referenceStage,
      referenceCheckStage, loadStage, tableStage, statements, report, reportAll_eq, parseProblems,
      symbolProblems, loadProblems, hresult, hbuild, hdefined, hcollected, hchecked, hkept, hload]

/-! ## Analysis cannot fail -/

/-- Symbols are collected from the file of a source and checked without fail. -/
theorem exists_checked_file {source : String} {d : Derivation} {file : Node}
    (hresult : (Parse.recovering source).result = .ok d) (hbuild : d.tree.build = .ok file) :
    ∃ defined collected checked,
      SymbolTable.empty.collectDefinitions file.statements = .ok defined ∧
      defined.validateDefinitions.collectReferences file.statements = .ok collected ∧
      collected.validateReferences = .ok checked ∧
      checked.definitionErrors = defined.validateDefinitions.definitionErrors ∧
      (∀ e ∈ checked.definitionErrors, e.1.IsNamed) ∧
      ∀ e ∈ checked.referenceErrors, e.1.IsNamed := by
  obtain ⟨_, ss, rfl, _⟩ := Typed.exists_statements_of_recovering hresult hbuild
  exact Typed.exists_checked ss

theorem width_parseProblems_pos (source : String) : ∀ p ∈ parseProblems source, 0 < p.width :=
  List.forall_mem_map.mpr fun _ _ => Int.one_pos

theorem width_loadProblems_pos (load : Loader) (uri source : String) :
    ∀ p ∈ loadProblems load uri source, 0 < p.width :=
  List.forall_mem_map.mpr fun _ _ => Int.one_pos

theorem forall_mem_symbolProblems {P : Problem → Prop} {t : SymbolTable}
    (hdefinitions : ∀ e ∈ t.definitionErrors, e.1.IsNamed)
    (hreferences : ∀ e ∈ t.referenceErrors, e.1.IsNamed)
    (h : ∀ e : SymbolError, e.IsNamed → P (.ofSymbolError e)) : ∀ p ∈ symbolProblems t, P p :=
  List.forall_mem_append.mpr
    ⟨List.forall_mem_map.mpr fun e he => h e.1 (hdefinitions e he),
      List.forall_mem_map.mpr fun e he => h e.1 (hreferences e he)⟩

/-- The errors of the parser come first, and all diagnostics are those of problems with a width. -/
theorem exists_later_problems (load : Loader) (uri source : String) :
    ∃ later : List Problem, (∀ p ∈ later, 0 < p.width) ∧ (ofText load uri source).diagnostics =
      (parseProblems source ++ later).map
        (Problem.diagnostic (Text.lines source) (some .error)) := by
  -- The analysis ends with the parser, with the file that cannot be built, or with all stages done.
  cases hresult : (Parse.recovering source).result with
  | error e =>
    rw [ofText_of_parse_error load uri hresult, reportAll_eq]
    exact ⟨_, List.forall_mem_singleton.mpr Int.one_pos, rfl⟩
  | ok d =>
    cases hbuild : d.tree.build with
    | error fault =>
      rw [ofText_of_build_error load uri hresult hbuild, reportAll_eq]
      exact ⟨_, List.forall_mem_singleton.mpr Int.one_pos, rfl⟩
    | ok file =>
      obtain ⟨defined, collected, checked, hdefined, hcollected, hchecked, hkept, hdefinitions,
        hreferences⟩ := exists_checked_file hresult hbuild
      have hsymbols : ∀ p ∈ symbolProblems checked, 0 < p.width :=
        forall_mem_symbolProblems hdefinitions hreferences
          fun e he => Problem.width_ofSymbolError_pos he
      refine ⟨symbolProblems checked ++ loadProblems load uri source,
        List.forall_mem_append.mpr ⟨hsymbols, width_loadProblems_pos load uri source⟩, ?_⟩
      rw [ofText_of_file load uri hresult hbuild hdefined hcollected hchecked hkept,
        List.append_assoc]

theorem exists_problems (load : Loader) (uri source : String) :
    ∃ ps : List Problem, (∀ p ∈ ps, 0 < p.width) ∧ (ofText load uri source).diagnostics =
      ps.map (Problem.diagnostic (Text.lines source) (some .error)) := by
  obtain ⟨later, hlater, hdiagnostics⟩ := exists_later_problems load uri source
  exact ⟨_, List.forall_mem_append.mpr ⟨width_parseProblems_pos source, hlater⟩, hdiagnostics⟩

/-- What the parser gets through is analyzed without fail, to any depth of nesting, unless a
priority has too many digits. Whatever the source, diagnostics lie in the text. -/
theorem diagnostics_complete (load : Loader) (uri source : String) :
    (∀ d, (Parse.recovering source).result = .ok d → d.HasReadablePriorities →
      ∃ file defined collected checked, d.tree.build = .ok file ∧
        SymbolTable.empty.collectDefinitions file.statements = .ok defined ∧
        defined.validateDefinitions.collectReferences file.statements = .ok collected ∧
        collected.validateReferences = .ok checked ∧
        (ofText load uri source).file = some file ∧
        (ofText load uri source).table = checked ∧
        (load uri source = none →
          (ofText load uri source).diagnostics =
            ((Parse.recovering source).errors.map (Problem.ofSyntaxError "Parse error: ") ++
              checked.definitionErrors.map (fun e => Problem.ofSymbolError e.1) ++
              checked.referenceErrors.map (fun e => Problem.ofSymbolError e.1)).map
            (Problem.diagnostic (Text.lines source) (some .error)) ∧
          ∀ x ∈ (ofText load uri source).diagnostics,
            ¬ "Error analyzing document".toList <+: x.message.toList)) ∧
    ∀ x ∈ (ofText load uri source).diagnostics, x.InText (Text.lines source) := by
  constructor
  · intro d hresult hpriorities
    obtain ⟨file, hbuild⟩ := Typed.exists_file hresult hpriorities
    obtain ⟨defined, collected, checked, hdefined, hcollected, hchecked, hkept, hdefinitions,
      hreferences⟩ := exists_checked_file hresult hbuild
    have hdocument := ofText_of_file load uri hresult hbuild hdefined hcollected hchecked hkept
    rw [hdocument]
    refine ⟨file, defined, collected, checked, hbuild, hdefined, hcollected, hchecked, rfl, rfl, ?_⟩
    intro hload
    have hloaded : loadProblems load uri source = [] := by rw [loadProblems, hload]; rfl
    rw [hloaded, List.append_nil]
    refine ⟨by simp [parseProblems, symbolProblems], ?_⟩
    refine List.forall_mem_map.mpr (List.forall_mem_append.mpr ⟨?_, ?_⟩)
    · exact List.forall_mem_map.mpr fun e _ => Problem.not_isFailure_ofSyntaxError e
    · exact forall_mem_symbolProblems hdefinitions hreferences fun e he =>
        Problem.not_isFailure_ofSymbolError he
  · obtain ⟨ps, hwidth, hps⟩ := exists_problems load uri source
    rw [hps]
    exact List.forall_mem_map.mpr fun p hp => Problem.inText_diagnostic (hwidth p hp) _ _

open GrammarServer.Derivation in
/-- The derivation of two rules of one name, the first with a priority. -/
def ruleTwice : Derivation :=
  ofItems
    (ofRule ⟨0, 1, 1⟩ "a" [] [ofWord .dot ⟨1, 1, 2⟩ ".", ofWord .number ⟨2, 1, 3⟩ "1"] ⟨3, 1, 4⟩
      (ofAlternative [ofValue .terminal .terminalName ⟨5, 1, 6⟩ "B"]))
    [ofWord .newline ⟨6, 1, 7⟩ "\n",
      ofRule ⟨7, 2, 1⟩ "a" [] [] ⟨8, 2, 2⟩
        (ofAlternative [ofValue .terminal .terminalName ⟨10, 2, 4⟩ "B"])]

theorem checked_ruleTwice :
    ((do
      let file ← ruleTwice.tree.build
      let defined ← SymbolTable.empty.collectDefinitions file.statements
      let collected ← defined.validateDefinitions.collectReferences file.statements
      let checked ← collected.validateReferences
      return (checked.definitionErrors.map Prod.fst, checked.referenceErrors.map Prod.fst) :
        Except Fault (List SymbolError × List SymbolError))).toOption =
      some ([⟨.multiple, "a", ⟨1, 0⟩⟩], [⟨.undefinedReference, "B", ⟨1, 3⟩⟩]) := by
  decide +kernel

/-- The second of two rules of one name is reported, and so is the name that it uses. -/
theorem diagnostics_complete_ruleTwice :
    Parse.recovering "a.1: B\na: B" = ⟨[], .ok ruleTwice⟩ ∧ ruleTwice.HasReadablePriorities ∧
      (ofText .idle "a" "a.1: B\na: B").diagnostics =
        [⟨⟨⟨1, 0⟩, ⟨1, 1⟩⟩, "Multiple definitions found for rule 'a'.", some .error⟩,
          ⟨⟨⟨1, 3⟩, ⟨1, 4⟩⟩, "No definition found for terminal 'B'.", some .error⟩] ∧
      ∀ x ∈ (ofText .idle "a" "a.1: B\na: B").diagnostics,
        x.InText (Text.lines "a.1: B\na: B") := by
  have hparse : Parse.recovering "a.1: B\na: B" = ⟨[], .ok ruleTwice⟩ :=
    Parse.recovering_of_settled (by decide) rfl (by decide) (by decide +kernel)
  have hpriorities : ruleTwice.HasReadablePriorities := by decide
  obtain ⟨hanalysis, hplaced⟩ := diagnostics_complete .idle "a" "a.1: B\na: B"
  obtain ⟨file, defined, collected, checked, hbuild, hdefined, hcollected, hchecked, _, _,
    hdiagnostics⟩ := hanalysis ruleTwice (by rw [hparse]) hpriorities
  refine ⟨hparse, hpriorities, ?_, hplaced⟩
  have herrors := checked_ruleTwice
  rw [hbuild, Typed.ok_bind, hdefined, Typed.ok_bind, hcollected, Typed.ok_bind, hchecked,
    Typed.ok_bind] at herrors
  obtain ⟨hdefinitions, hreferences⟩ := Prod.mk.inj (Option.some.inj herrors)
  have hnames : ∀ {α : Type} (es : List (SymbolError × α)),
      es.map (fun e => Problem.ofSymbolError e.1) =
        (es.map Prod.fst).map Problem.ofSymbolError := by
    simp
  rw [(hdiagnostics rfl).1, hparse, hnames, hnames, hdefinitions, hreferences]
  rfl

end Document

end GrammarServer
