import GrammarServer.Text.Integer
import GrammarServer.Text.Quoted

/-!
# Faults

The ways in which an operation on loosely typed nodes can go wrong: a value of the wrong kind
stands where a list, a token or a node with a certain field is needed, a list or a text is too
short, or a text is no numeral. A value is named by its kind.
-/
namespace GrammarServer

inductive Fault
  /-- A list has no item at the place asked for. -/
  | listTooShort
  /-- A text has no character at the place asked for. -/
  | textTooShort
  | noField (kind field : String)
  | fixedField (kind field : String)
  | notIterable (kind : String)
  | notIndexable (kind : String)
  | notSearchable (kind : String)
  | notHashable (kind : String)
  /-- The parts to be joined are no sequence at all. -/
  | notJoinable
  /-- One of the parts to be joined is no text. -/
  | partNotText (position : Nat) (kind : String)
  | notNumeral (text : String)
  | numeralTooLong (digits : Nat)
  | noTokens
  | notAPlace (kind : String)
  | takesNoArguments (kind : String)
  /-- A list stands where the name of a field is needed. -/
  | listAsName
  /-- The fault arose while a phrase was turned into a node. -/
  | inPhrase (label : String) (cause : Fault)
deriving DecidableEq, Repr

namespace Fault

def shownLength : Nat := 200

def message : Fault → String
  | listTooShort => "list index out of range"
  | textTooShort => "string index out of range"
  | noField kind field => "'" ++ kind ++ "' object has no attribute '" ++ field ++ "'"
  | fixedField kind field => "property '" ++ field ++ "' of '" ++ kind ++ "' object has no setter"
  | notIterable kind => "'" ++ kind ++ "' object is not iterable"
  | notIndexable kind => "'" ++ kind ++ "' object is not subscriptable"
  | notSearchable kind => "argument of type '" ++ kind ++ "' is not iterable"
  | notHashable kind => "unhashable type: '" ++ kind ++ "'"
  | notJoinable => "can only join an iterable"
  | partNotText position kind =>
    "sequence item " ++ toString position ++ ": expected str instance, " ++ kind ++ " found"
  | notNumeral text =>
    "invalid literal for int() with base 10: " ++
      String.ofList ((Text.quotedChars text.toList).take shownLength)
  | numeralTooLong digits =>
    "Exceeds the limit (" ++ toString Text.digitLimit ++
      " digits) for integer string conversion: value has " ++ toString digits ++
      " digits; use sys.set_int_max_str_digits() to increase the limit"
  | noTokens => "Tree does not contain any tokens"
  | notAPlace kind => "Unsupported type for containment check: <class '" ++ kind ++ "'>"
  | takesNoArguments kind => kind ++ "() takes no arguments"
  | listAsName => "attribute name must be string, not 'list'"
  | inPhrase label cause =>
    "Error trying to process rule \"" ++ label ++ "\":\n\n" ++ cause.message

end Fault

end GrammarServer
