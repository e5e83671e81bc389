import GrammarServer.Loading

/-!
# Sessions

The server keeps the documents that an editor has open. Opening or changing a document analyzes
its text afresh and publishes the diagnostics; requests about a document that is not open have an
empty answer.
-/
namespace GrammarServer

def serverName : String := "lark-parser-language-server"

def version : String := "0.4.0"

structure Session where
  load : Loader := Loading.loader
  /-- The open documents in the order in which they were opened. -/
  documents : List (String × Document) := []

inductive Request
  | didOpen (uri text : String)
  /-- Changes in order; one that carries no text changes nothing. -/
  | didChange (uri : String) (texts : List (Option String))
  | didClose (uri : String)
  | completion (uri : String)
  | hover (uri : String) (line column : Int)
  | definition (uri : String) (line column : Int)
  | references (uri : String) (line column : Int) (includeDeclaration : Bool)
  | documentSymbol (uri : String)
  | formatting (uri : String) (options : FormattingOptions)

inductive Answer
  | nothing
  | completions (items : List Completion)
  | hover (h : Hover)
  | location (l : Location)
  | locations (ls : List Location)
  | outline (entries : List Outline)
  | edits (es : List TextEdit)

structure Response where
  answer : Answer
  published : List (String × List Diagnostic)

namespace Session

def features : List String :=
  ["textDocument/completion", "textDocument/definition", "textDocument/didChange",
   "textDocument/didClose", "textDocument/didOpen", "textDocument/documentSymbol",
   "textDocument/formatting", "textDocument/hover", "textDocument/references"]

def document? (s : Session) (uri : String) : Option Document := s.documents.lookup uri

def openUris (s : Session) : List String := s.documents.map (·.1)

def putIn (uri : String) (d : Document) : List (String × Document) → List (String × Document)
  | [] => [(uri, d)]
  | (key, old) :: rest =>
    if key == uri then (key, d) :: rest else (key, old) :: putIn uri d rest

/-- Gives a document a new text, and publishes what is found in it. -/
def update (s : Session) (uri text : String) : Session × (String × List Diagnostic) :=
  let d := Document.ofText s.load uri text
  ({ s with documents := putIn uri d s.documents }, (uri, d.diagnostics))

def close (s : Session) (uri : String) : Session :=
  { s with documents := s.documents.filter fun entry => entry.1 != uri }

def change (uri : String) : List (Option String) → Session →
    Session × List (String × List Diagnostic)
  | [], s => (s, [])
  | none :: rest, s => change uri rest s
  | some text :: rest, s =>
    let (s, published) := s.update uri text
    let (s, others) := change uri rest s
    (s, published :: others)

def definitionAnswer (d : Document) (line column : Int) : Except Fault Answer := do
  match ← d.wordAt line column with
  | none => return .nothing
  | some (word, _) =>
    match d.definitionLocation word with
    | some location => return .location location
    | none => return .nothing

/-- The usages of the name under the cursor, after its definition if that is asked for. -/
def referencesAnswer (d : Document) (line column : Int) (includeDeclaration : Bool) :
    Except Fault Answer := do
  match ← d.wordAt line column with
  | none => return .locations []
  | some (word, _) =>
    if word == "" then return .locations []
    else
      let declaration := if includeDeclaration then d.definitionLocation word else none
      return .locations (declaration.toList ++ d.usageLocations word)

def query (s : Session) : Request → Except Fault Answer
  | .completion uri =>
    match s.document? uri with
    | none => return .completions []
    | some d => return .completions (← d.completions)
  | .hover uri line column =>
    match s.document? uri with
    | none => return .nothing
    | some d => do
      match ← d.hover line column with
      | some h => return .hover h
      | none => return .nothing
  | .definition uri line column =>
    match s.document? uri with
    | none => return .nothing
    | some d => definitionAnswer d line column
  | .references uri line column includeDeclaration =>
    match s.document? uri with
    | none => return .locations []
    | some d => referencesAnswer d line column includeDeclaration
  | .documentSymbol uri =>
    match s.document? uri with
    | none => return .outline []
    | some d => return .outline d.outline
  | .formatting uri options =>
    match s.document? uri with
    | none => return .edits [⟨"", .zero⟩]
    | some d => return .edits [← d.format options]
  | _ => return .nothing

def handle (s : Session) (r : Request) : Session × Except Fault Response :=
  match r with
  | .didOpen uri text =>
    let (s, published) := s.update uri text
    (s, .ok ⟨.nothing, [published]⟩)
  | .didChange uri texts =>
    match s.document? uri with
    | none => (s, .ok ⟨.nothing, []⟩)
    | some _ =>
      let (s, published) := change uri texts s
      (s, .ok ⟨.nothing, published⟩)
  | .didClose uri => (s.close uri, .ok ⟨.nothing, []⟩)
  | r => (s, (s.query r).map fun answer => ⟨answer, []⟩)

end Session

end GrammarServer
