import GrammarServer.Node.Build
import GrammarServer.Parse.Run
import GrammarServer.Symbol.Table
import GrammarServer.Text.Word

/-!
# Documents

A document is the text of one grammar file with everything found out about it: its lines, its
statements, its symbols and its diagnostics. The analysis goes stage by stage; when a stage fails,
one more diagnostic says so and the rest is left undone.
-/
namespace GrammarServer

/-- What a diagnostic is made from: a place, which may lie outside the text, and a message. -/
structure Problem where
  line : Int := 0
  column : Int := 0
  width : Int := 1
  message : String

namespace Problem

/-- The message of a problem: the one given, or the text of its cause with no trace behind it. -/
def messageOr (cause given : String) : String := if given == "" then cause ++ "\nNone" else given

def ofSyntaxError (intro : String) (e : SyntaxError) : Problem :=
  { line := e.line, column := e.column, message := intro ++ e.message }

def ofSymbolError (e : SymbolError) : Problem :=
  { line := e.position.line, column := e.position.column, width := e.width, message := e.message }

/-- The diagnostic of a problem, moved into the text if it lies outside. -/
def diagnostic (lines : List String) (severity : Option Severity) (p : Problem) : Diagnostic :=
  let line : Int := min (max 0 p.line) (max 0 (lines.length - 1))
  let text := lines.getD line.toNat ""
  let column : Int := min (max 0 p.column) text.length
  { range := ⟨⟨line, column⟩, ⟨line, column + p.width⟩⟩, message := p.message, severity }

end Problem

/-- What keeps a grammar from being loaded, at the line and the column that it names, if any. -/
structure LoadError where
  line : Int := 0
  column : Int := 0
  message : String

/-- Loads a grammar as a whole, given where its file is and what it says. A document can be analyzed
with any loader. -/
def Loader : Type := (uri source : String) → Option LoadError

def Loader.idle : Loader := fun _ _ => none

structure Document where
  uri : String
  source : String
  lines : List String
  table : SymbolTable := .empty
  /-- The references in which usages are looked up. -/
  usages : Catalog Reference := .empty
  diagnostics : List Diagnostic := []
  /-- The statements of the file, once it has been read. -/
  file : Option Node := none

structure FormattingOptions where
  tabSize : Int
  insertSpaces : Bool
  insertFinalNewline : Bool

namespace Document

/-! ## Analysis -/

def report (d : Document) (p : Problem) : Document :=
  { d with diagnostics := d.diagnostics ++ [p.diagnostic d.lines (some .error)] }

def reportAll (d : Document) (ps : List Problem) : Document := ps.foldl report d

def statements (d : Document) : List Node :=
  match d.file with
  | some file => file.statements
  | none => []

/-- A stage of the analysis, which may fail after it has changed the document. -/
abbrev Stage := Document → Document × Option Problem

def failure (message : String) : Problem := { message := "Error analyzing document: " ++ message }

def tableStage (step : SymbolTable → Except Fault SymbolTable) : Stage := fun d =>
  match step d.table with
  | .ok table => ({ d with table }, none)
  | .error fault => (d, some (failure fault.message))

/-- Parses the source, reporting every error that could be passed over, and builds the file. -/
def readStage : Stage := fun d =>
  let outcome := Parse.recovering d.source
  let d := d.reportAll (outcome.errors.map (Problem.ofSyntaxError "Parse error: "))
  match outcome.result with
  | .error e => (d, some (.ofSyntaxError "Error analyzing document: " e))
  | .ok derivation =>
    match derivation.tree.build with
    | .ok file => ({ d with file := some file }, none)
    | .error fault => (d, some (failure fault.message))

def definitionStage : Stage := fun d =>
  tableStage (fun t => t.collectDefinitions d.statements) d

def definitionCheckStage : Stage := fun d =>
  let table := d.table.validateDefinitions
  (reportAll { d with table } (table.definitionErrors.map fun e => .ofSymbolError e.1), none)

def referenceStage : Stage := fun d => tableStage (fun t => t.collectReferences d.statements) d

def referenceCheckStage : Stage := fun d =>
  match d.table.validateReferences with
  | .ok table =>
    (reportAll { d with table } (table.referenceErrors.map fun e => .ofSymbolError e.1), none)
  | .error fault => (d, some (failure fault.message))

def loadFailure (e : LoadError) : Problem :=
  { failure e.message with line := e.line, column := e.column }

def loadStage (load : Loader) : Stage := fun d => (d, (load d.uri d.source).map loadFailure)

def analyze : List Stage → Document → Document
  | [], d => d
  | stage :: rest, d =>
    match stage d with
    | (d, none) => analyze rest d
    | (d, some p) => d.report p

def ofText (load : Loader) (uri source : String) : Document :=
  analyze
    [readStage, definitionStage, definitionCheckStage, referenceStage, referenceCheckStage,
      loadStage load]
    { uri, source, lines := Text.lines source }

/-! ## Words -/

/-- The line with a number, counted from the end if negative. -/
def line (d : Document) (n : Int) : Except Fault String :=
  let place := if n < 0 then n + d.lines.length else n
  match d.lines[place.toNat]? with
  | some s => if place < 0 then .error .listTooShort else .ok s
  | none => .error .listTooShort

def wordStart (cs : List Char) (column : Int) : Int :=
  if column ≤ 0 then column
  else column - ((cs.take column.toNat).reverse.takeWhile Text.isWordChar).length

/-- Where the word at a column ends. A negative column counts from the end of the line; a word
that runs up to the end from there goes on at the start of the line. -/
def wordEnd (cs : List Char) (column : Int) : Except Fault Int :=
  if 0 ≤ column then
    .ok (column + ((cs.drop column.toNat).takeWhile Text.isWordChar).length)
  else if column + cs.length < 0 then .error .textTooShort
  else
    let back : Nat := ((cs.drop (column + cs.length).toNat).takeWhile Text.isWordChar).length
    if column + back < 0 then .ok (column + back)
    else .ok (cs.takeWhile Text.isWordChar).length

/-- A place in a text of some length, negative ones counted from the end. -/
def sliceBound (length : Nat) (place : Int) : Nat :=
  if place < 0 then (place + length).toNat else min place.toNat length

def slice (cs : List Char) (start stop : Int) : List Char :=
  let first := sliceBound cs.length start
  (cs.drop first).take (sliceBound cs.length stop - first)

def wordAt (d : Document) (line column : Int) : Except Fault (Option (String × Int × Int)) := do
  if line ≥ d.lines.length then return none
  let cs := (← d.line line).toList
  if column ≥ cs.length then return none
  let start := wordStart cs column
  let stop ← wordEnd cs column
  if start == stop then return none
  return some (String.ofList (slice cs start stop), start, stop)

/-! ## Views -/

def definitionLocation (d : Document) (name : String) : Option Location :=
  (d.table.definition? name).map (Definition.location d.uri)

def usageLocations (d : Document) (name : String) : List Location :=
  ((d.usages.get? name).getD []).map (Reference.location d.uri)

def outline (d : Document) : List Outline := d.table.definitions.values.map Definition.outline

def keywords : List String := ["import", "ignore", "override", "extend", "declare"]

def keywordCompletion (word : String) : Completion :=
  ⟨word, .keyword, "Keyword", "Lark keyword: " ++ word⟩

/-- What can be completed anywhere in a document: every definition, then the keywords. -/
def completions (d : Document) : Except Fault (List Completion) := do
  let found ← d.table.definitions.values.mapM Definition.completion
  return found ++ keywords.map keywordCompletion

def hover (d : Document) (line column : Int) : Except Fault (Option Hover) := do
  match ← d.wordAt line column with
  | none => return none
  | some (word, start, stop) =>
    match d.table.get? word with
    | none => return none
    | some [] => throw .listTooShort
    | some (definition :: _) =>
      return some (← definition.hover (some ⟨⟨line, start⟩, ⟨line, stop⟩⟩))

def FormattingOptions.indent (o : FormattingOptions) : String :=
  if o.insertSpaces then String.ofList (List.replicate o.tabSize.toNat ' ') else "\t"

/-- The edit that lays out a document anew. A document without statements keeps its text. -/
def format (d : Document) (options : FormattingOptions) : Except Fault TextEdit := do
  if d.statements.isEmpty then
    return ⟨d.source, ⟨⟨0, 0⟩, ⟨(Text.splitLines d.source).length + 1, 0⟩⟩⟩
  else
    let body ← Layout.ofStatements (FormattingOptions.indent options) d.statements
    let newText := if options.insertFinalNewline then body ++ "\n" else body
    let lines := Text.splitLines newText
    return ⟨newText, ⟨⟨0, 0⟩, ⟨lines.length, (lines.getLastD "").length⟩⟩⟩

end Document

end GrammarServer
