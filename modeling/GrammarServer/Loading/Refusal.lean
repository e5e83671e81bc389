import GrammarServer.Fault
import GrammarServer.SyntaxError

/-!
# Why a grammar cannot be loaded

The obstacles in the way of making a parser from a grammar, and the texts that tell of them.
-/
namespace GrammarServer.Loading

inductive Refusal
  | unreadable (e : SyntaxError)
  /-- A statement ends without a line break. -/
  | unended
  /-- An import names no file to import from. -/
  | nothingImported (name : String)
  | missingFile (path : String)
  | importedTwice (name path : String)
  | definedTwice (isTerminal : Bool) (name : String)
  | nothingToOverride (isTerminal : Bool) (name : String)
  | nothingToExtend (isTerminal : Bool) (name : String)
  /-- A terminal is extended as if it were a rule, or a rule as if it were a terminal. -/
  | otherSort (isTerminal : Bool) (name : String)
  | otherParameters (isTerminal : Bool) (name : String)
  /-- A name that was only declared is extended. -/
  | declaredExtended (isTerminal : Bool) (name : String)
  | priorityTooLong (digits : Nat)
  | ruleInTerminal (rule terminal : String)
  | undefinedTerminal (name : String)
  /-- A terminal uses one that was only declared. -/
  | declaredInTerminal
  | recursiveTerminal (name : String)
  | parameterIsRule (parameter template : String)
  | parameterTwice (parameter template : String)
  | undefinedTemplate (template : String) (isTerminal : Bool) (user : String)
  | argumentCount (template : String) (wanted given : Nat) (isTerminal : Bool) (user : String)
  | undefinedUse (name : String) (isTerminal : Bool) (user : String)
  | undefinedIgnored (names : List String)
  | emptyTerminal (name : String)
  | emptyLiteral (literal : String)
  /-- A literal ends in the middle of an escape. -/
  | openLiteral (inner : String)
  | brokenRegexp
  /-- A range of characters does not go from one character to another. -/
  | rangeOfTexts
  | aliasInTerminal
  | badRange (repeated : String) (low high : Int)
  | boundTooLong (digits : Nat)
  /-- A rule that was only declared has no body. -/
  | declaredRule
  | aliasOfSpliced (rule name : String)
  /-- A part of an alternative has a name, and not the whole of it. -/
  | nestedAlias
  | undefinedRule (name : String)
  | emptyMatch (terminal regexp : String)
  | declaredIgnored (names : List String)

namespace Refusal

def sort (isTerminal : Bool) : String := if isTerminal then "terminal" else "rule"

def heading (isTerminal : Bool) : String := if isTerminal then "Terminal" else "Rule"

def place (isTerminal : Bool) (user : String) : String :=
  "(in " ++ sort isTerminal ++ " " ++ user ++ ")"

def nameSet (names : List String) : String :=
  "\x7b" ++ ", ".intercalate (names.map Text.quoted) ++ "\x7d"

def message : Refusal → String
  | unreadable e => e.message
  | unended => SyntaxError.showExpected [.newline]
  | nothingImported name => "Nothing was imported from grammar `" ++ name ++ "`"
  | missingFile path => "[Errno 2] No such file or directory: " ++ Text.quoted path
  | importedTwice name path =>
    "Cannot import '" ++ name ++ "' from '" ++ path ++ "': Symbol already defined."
  | definedTwice isTerminal name => heading isTerminal ++ " '" ++ name ++ "' defined more than once"
  | nothingToOverride isTerminal name =>
    "Cannot override a nonexisting " ++ sort isTerminal ++ " " ++ name
  | nothingToExtend isTerminal name =>
    "Can't extend " ++ sort isTerminal ++ " " ++ name ++ " as it wasn't defined before"
  | otherSort isTerminal name =>
    "Cannot extend " ++ sort isTerminal ++ " " ++ name ++
      " - one is a terminal, while the other is not."
  | otherParameters isTerminal name =>
    "Cannot extend " ++ sort isTerminal ++ " with different parameters: " ++ name
  | declaredExtended isTerminal name =>
    "Can't extend " ++ sort isTerminal ++ " " ++ name ++ " - it is abstract."
  | priorityTooLong digits => (Fault.numeralTooLong digits).message
  | ruleInTerminal rule terminal =>
    "Rules aren't allowed inside terminals (NonTerminal('" ++ rule ++ "') in " ++ terminal ++ ")"
  | undefinedTerminal name => "Terminal used but not defined: " ++ name
  | declaredInTerminal => ""
  | recursiveTerminal name =>
    "Recursion in terminal '" ++ name ++
      "' (recursion is only allowed in rules, not terminals)"
  | parameterIsRule parameter template =>
    "Template Parameter conflicts with rule " ++ parameter ++ " (in template " ++ template ++ ")"
  | parameterTwice parameter template =>
    "Duplicate Template Parameter " ++ parameter ++ " (in template " ++ template ++ ")"
  | undefinedTemplate template isTerminal user =>
    "Template '" ++ template ++ "' used but not defined " ++ place isTerminal user
  | argumentCount template wanted given isTerminal user =>
    "Wrong number of template arguments used for " ++ template ++ " (expected " ++
      toString wanted ++ ", got " ++ toString given ++ ") " ++ place isTerminal user
  | undefinedUse name isTerminal user =>
    heading isTerminal ++ " '" ++ name ++ "' used but not defined " ++ place isTerminal user
  | undefinedIgnored names =>
    "Terminals " ++ nameSet names ++ " were marked to ignore but were not defined!"
  | emptyTerminal name => "Terminals cannot be empty (" ++ name ++ ")"
  | emptyLiteral literal => "Empty terminals are not allowed (" ++ literal ++ ")"
  | openLiteral inner =>
    "Literal ended unexpectedly (bad escaping): `" ++ Text.quoted inner ++ "`"
  | brokenRegexp =>
    "You can only use newlines in regular expressions with the `x` (verbose) flag"
  | rangeOfTexts => "Error trying to process rule \"range\":\n\n"
  | aliasInTerminal => "Aliasing not allowed in terminals (You used -> in the wrong place)"
  | badRange repeated low high =>
    "Bad Range for " ++ repeated ++ " (" ++ toString low ++ ".." ++ toString high ++
      " isn't allowed)"
  | boundTooLong digits => (Fault.inPhrase "expr" (.numeralTooLong digits)).message
  | declaredRule => (Fault.noField "NoneType" "iter_subtrees").message
  | aliasOfSpliced rule name =>
    "Rule " ++ rule ++ " is marked for expansion (it starts with an underscore) and isn't " ++
      "allowed to have aliases (alias=" ++ name ++ ")"
  | nestedAlias => ""
  | undefinedRule name => "Using an undefined rule: NonTerminal(" ++ Text.quoted name ++ ")"
  | emptyMatch terminal regexp =>
    "Lexer does not allow zero-width terminals. (" ++ terminal ++ ": " ++ regexp ++ ")"
  | declaredIgnored names => "Ignore terminals are not defined: " ++ nameSet names

end Refusal

end GrammarServer.Loading
