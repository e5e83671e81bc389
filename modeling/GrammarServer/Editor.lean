import GrammarServer.Symbol.Place

/-!
# What an editor is shown

Locations, outlines, completions, hover texts, edits and diagnostics.
-/
namespace GrammarServer

structure Location where
  uri : String
  range : Range

inductive OutlineKind
  | method | constant | variable | null
deriving DecidableEq

inductive Outline
  | entry (name : String) (kind : OutlineKind) (range selection : Range)
    (children : Option (List Outline))

def Outline.name : Outline → String
  | entry name .. => name

inductive CompletionKind
  | function | variable | text | keyword
deriving DecidableEq

structure Completion where
  label : String
  kind : CompletionKind
  detail : String
  documentation : String

/-- A text in Markdown, shown over a range. -/
structure Hover where
  contents : String
  range : Range

structure TextEdit where
  newText : String
  range : Range

inductive Severity
  | error | warning | information | hint
deriving DecidableEq

structure Diagnostic where
  range : Range
  message : String
  severity : Option Severity

end GrammarServer
