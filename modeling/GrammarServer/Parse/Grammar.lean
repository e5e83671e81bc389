import GrammarServer.Lexeme.Terminal

/-!
# The grammar of the grammar notation

The phrases of a grammar file and the productions that derive them. A phrase is shown in a tree
under its label; a spliced phrase hands its children to the phrase above it, and a transparent one
disappears when it has a single child.
-/
namespace GrammarServer

inductive Phrase
  | start | list | item | rule | ruleModifiers | priority | templateParams | templateParamNames
  | expansions | alternatives | aliasing | expansion | exprs | expr | atom | value | terminal
  | nonterminal | name | symbol | maybe | range | templateUsage | templateArgs | term | override
  | extend | ignore | declare | imports | importPath | importLib | importRel | importArgs
  | nameList | names | declareArgs | literal | comment
deriving DecidableEq, Repr

namespace Phrase

def all : List Phrase :=
  [start, list, item, rule, ruleModifiers, priority, templateParams, templateParamNames,
   expansions, alternatives, aliasing, expansion, exprs, expr, atom, value, terminal, nonterminal,
   name, symbol, maybe, range, templateUsage, templateArgs, term, override, extend, ignore,
   declare, imports, importPath, importLib, importRel, importArgs, nameList, names, declareArgs,
   literal, comment]

def label : Phrase → String
  | start => "start"
  | list => "_list"
  | item => "_item"
  | rule => "rule"
  | ruleModifiers => "rule_modifiers"
  | priority => "priority"
  | templateParams => "template_params"
  | templateParamNames => "_template_params"
  | expansions => "expansions"
  | alternatives => "_expansions"
  | aliasing => "alias"
  | expansion => "expansion"
  | exprs => "_expansion"
  | expr => "expr"
  | atom => "atom"
  | value => "value"
  | terminal => "terminal"
  | nonterminal => "nonterminal"
  | name => "name"
  | symbol => "symbol"
  | maybe => "maybe"
  | range => "range"
  | templateUsage => "template_usage"
  | templateArgs => "_template_args"
  | term => "term"
  | override => "override"
  | extend => "extend"
  | ignore => "ignore"
  | declare => "declare"
  | imports => "import"
  | importPath => "_import_path"
  | importLib => "import_lib"
  | importRel => "import_rel"
  | importArgs => "_import_args"
  | nameList => "name_list"
  | names => "_name_list"
  | declareArgs => "_declare_args"
  | literal => "literal"
  | comment => "comment"

/-- Phrases that only group others: their children go to the phrase above. -/
def isSpliced : Phrase → Bool
  | list | item | templateParamNames | alternatives | exprs | templateArgs | importPath
  | importArgs | names | declareArgs => true
  | _ => false

/-- Phrases that stand aside when they have a single child. -/
def isTransparent : Phrase → Bool
  | aliasing | atom | name | symbol => true
  | _ => false

end Phrase

inductive Symbol
  | terminal (t : Terminal)
  | phrase (p : Phrase)
deriving DecidableEq, Repr

instance : Coe Terminal Symbol := ⟨.terminal⟩
instance : Coe Phrase Symbol := ⟨.phrase⟩

structure Production where
  left : Phrase
  right : List Symbol
deriving DecidableEq, Repr

namespace Production
open Terminal Phrase

def all : List Production :=
  [⟨.start, [list]⟩,
   ⟨list, [item]⟩,
   ⟨list, [list, item]⟩,
   ⟨item, [rule]⟩,
   ⟨item, [term]⟩,
   ⟨item, [ignore]⟩,
   ⟨item, [imports]⟩,
   ⟨item, [declare]⟩,
   ⟨item, [override]⟩,
   ⟨item, [extend]⟩,
   ⟨item, [Phrase.comment]⟩,
   ⟨item, [newline]⟩,
   ⟨rule, [ruleModifiers, ruleName, templateParams, priority, colon, expansions]⟩,
   ⟨ruleModifiers, []⟩,
   ⟨ruleModifiers, [modifiers]⟩,
   ⟨priority, []⟩,
   ⟨priority, [dot, number]⟩,
   ⟨templateParams, []⟩,
   ⟨templateParams, [leftBrace, templateParamNames, rightBrace]⟩,
   ⟨templateParamNames, [ruleName]⟩,
   ⟨templateParamNames, [templateParamNames, comma, ruleName]⟩,
   ⟨expansions, [alternatives]⟩,
   ⟨alternatives, [aliasing]⟩,
   ⟨alternatives, [alternatives, bar, aliasing]⟩,
   ⟨alternatives, [alternatives, newlineBar, aliasing]⟩,
   ⟨aliasing, [expansion, arrow, nonterminal]⟩,
   ⟨aliasing, [expansion]⟩,
   ⟨expansion, [exprs]⟩,
   ⟨exprs, []⟩,
   ⟨exprs, [exprs, expr]⟩,
   ⟨expr, [atom]⟩,
   ⟨expr, [atom, operator]⟩,
   ⟨expr, [atom, tilde, number]⟩,
   ⟨expr, [atom, tilde, number, dotDot, number]⟩,
   ⟨atom, [leftParen, expansions, rightParen]⟩,
   ⟨atom, [maybe]⟩,
   ⟨atom, [value]⟩,
   ⟨value, [Phrase.terminal]⟩,
   ⟨value, [nonterminal]⟩,
   ⟨value, [literal]⟩,
   ⟨value, [range]⟩,
   ⟨value, [templateUsage]⟩,
   ⟨Phrase.terminal, [terminalName]⟩,
   ⟨nonterminal, [ruleName]⟩,
   ⟨Phrase.name, [ruleName]⟩,
   ⟨Phrase.name, [terminalName]⟩,
   ⟨symbol, [Phrase.terminal]⟩,
   ⟨symbol, [nonterminal]⟩,
   ⟨maybe, [leftBracket, expansions, rightBracket]⟩,
   ⟨range, [string, dotDot, string]⟩,
   ⟨templateUsage, [nonterminal, leftBrace, templateArgs, rightBrace]⟩,
   ⟨templateArgs, [value]⟩,
   ⟨templateArgs, [templateArgs, comma, value]⟩,
   ⟨term, [terminalName, colon, expansions]⟩,
   ⟨term, [terminalName, dot, number, colon, expansions]⟩,
   ⟨override, [overrideWord, rule]⟩,
   ⟨override, [overrideWord, term]⟩,
   ⟨extend, [extendWord, rule]⟩,
   ⟨extend, [extendWord, term]⟩,
   ⟨ignore, [ignoreWord, expansions]⟩,
   ⟨declare, [declareWord, declareArgs]⟩,
   ⟨imports, [importWord, importPath]⟩,
   ⟨imports, [importWord, importPath, leftParen, nameList, rightParen]⟩,
   ⟨imports, [importWord, importPath, arrow, Phrase.name]⟩,
   ⟨importPath, [importLib]⟩,
   ⟨importPath, [importRel]⟩,
   ⟨importLib, [importArgs]⟩,
   ⟨importRel, [dot, importArgs]⟩,
   ⟨importArgs, [Phrase.name]⟩,
   ⟨importArgs, [importArgs, dot, Phrase.name]⟩,
   ⟨nameList, [names]⟩,
   ⟨names, [Phrase.name]⟩,
   ⟨names, [names, comma, Phrase.name]⟩,
   ⟨declareArgs, [symbol]⟩,
   ⟨declareArgs, [declareArgs, symbol]⟩,
   ⟨literal, [regexp]⟩,
   ⟨literal, [string]⟩,
   ⟨Phrase.comment, [Terminal.comment]⟩]

end Production

end GrammarServer
