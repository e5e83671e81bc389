import GrammarServer.Text.Blank
import GrammarServer.Text.Digit

/-!
# Reading whole numbers

A numeral may have blanks around it, a sign in front and single underscores between its digits,
which may be those of any script. Of the blanks, the four information separators do not count.
Numerals beyond a certain length are refused.
-/
namespace GrammarServer.Text

def isNumeralBlank (c : Char) : Bool := isBlank c && !(28 ≤ c.toNat && c.toNat ≤ 31)

/-- Whether every underscore stands between two digits and there is a digit at all. The flag tells
whether a digit stands right in front. -/
def isSpaced (afterDigit : Bool) : List Char → Bool
  | [] => afterDigit
  | c :: cs => if c == '_' then afterDigit && isSpaced false cs else isSpaced true cs

/-- The number that digits write, underscores left out. -/
def valueOf (cs : List Char) : Nat :=
  cs.foldl (fun value c => match digit? c with
    | some d => value * 10 + d
    | none => value) 0

def digitLimit : Nat := 4300

inductive NumeralError
  | notNumeral
  | tooLong (digits : Nat)
deriving DecidableEq, Repr

/-- The number that a text without a sign writes. That the digits are too many is noticed before
anything that follows them. -/
def readNumeral (cs : List Char) : Except NumeralError Nat :=
  let digits := cs.takeWhile fun c => isDigit c || c == '_'
  let count := (digits.filter isDigit).length
  if !isSpaced false digits then .error .notNumeral
  else if count > digitLimit then .error (.tooLong count)
  else if (cs.drop digits.length).all isNumeralBlank then .ok (valueOf digits)
  else .error .notNumeral

def readSigned : List Char → Except NumeralError Int
  | '-' :: cs => (readNumeral cs).map fun n => -(n : Int)
  | '+' :: cs => (readNumeral cs).map fun n => (n : Int)
  | cs => (readNumeral cs).map fun n => (n : Int)

def readInteger (s : String) : Except NumeralError Int :=
  readSigned (s.toList.dropWhile isNumeralBlank)

end GrammarServer.Text
