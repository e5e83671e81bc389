import GrammarServer.Loading.Refusal
import GrammarServer.Loading.Width

/-!
# Patterns of terminals

A pattern matches one text or a regular expression, and may have flags. It is written in code
points, since an escape can write one that is not a character. Patterns are put together as regular
expressions: one after another, as alternatives of which the wider ones come first, or repeated.
-/
namespace GrammarServer.Loading

def codePoints (s : String) : List Nat := s.toList.map Char.toNat

structure Pattern where
  isText : Bool
  value : List Nat
  flags : List Char
deriving DecidableEq

namespace Pattern

def ofText (value : List Nat) (flags : List Char) : Pattern := ⟨true, value, flags⟩

def ofRegexp (value : List Nat) (flags : List Char) : Pattern := ⟨false, value, flags⟩

/-- Stands for a pattern that is not known. -/
def anything : Pattern := ofRegexp (codePoints ".") []

/-! ## Literals -/

def escapeLetters : List Char := ['U', 'u', 'x', 'n', 'f', 't', 'r']

/-- Doubles the backslashes that are to stay. One at the very end escapes nothing. -/
def doubleBackslashes : List Char → Option (List Char)
  | '\\' :: '\\' :: rest => (doubleBackslashes rest).map (['\\', '\\', '\\', '\\'] ++ ·)
  | '\\' :: c :: rest =>
    (doubleBackslashes rest).map fun cs =>
      if escapeLetters.contains c then '\\' :: c :: cs else '\\' :: '\\' :: c :: cs
  | ['\\'] => none
  | c :: rest => (doubleBackslashes rest).map (c :: ·)
  | [] => some []

def bareQuotes : List Char → List Char
  | '\\' :: '"' :: rest => '"' :: bareQuotes rest
  | c :: rest => c :: bareQuotes rest
  | [] => []

def unifyBreaks : List Char → List Char
  | '\r' :: '\n' :: rest => '\n' :: unifyBreaks rest
  | '\r' :: rest => '\n' :: unifyBreaks rest
  | c :: rest => c :: unifyBreaks rest
  | [] => []

def hexDigit? (c : Char) : Option Nat :=
  if '0' ≤ c && c ≤ '9' then some (c.toNat - '0'.toNat)
  else if 'a' ≤ c && c ≤ 'f' then some (c.toNat - 'a'.toNat + 10)
  else if 'A' ≤ c && c ≤ 'F' then some (c.toNat - 'A'.toNat + 10)
  else none

def codeOfHex? (digits : List Char) : Option Nat :=
  digits.foldlM (fun n c => (hexDigit? c).map (n * 16 + ·)) 0

/-- Evaluates escapes. One that makes no sense stays as it is. -/
def evaluate : List Char → List Nat
  | '\\' :: '\\' :: rest => '\\'.toNat :: evaluate rest
  | '\\' :: '"' :: rest => '"'.toNat :: evaluate rest
  | '\\' :: 'n' :: rest => '\n'.toNat :: evaluate rest
  | '\\' :: 't' :: rest => '\t'.toNat :: evaluate rest
  | '\\' :: 'r' :: rest => '\r'.toNat :: evaluate rest
  | '\\' :: 'f' :: rest => '\x0c'.toNat :: evaluate rest
  | '\\' :: 'x' :: a :: b :: rest =>
    ((codeOfHex? [a, b]).map fun n => [n]).getD (['\\', 'x', a, b].map Char.toNat) ++ evaluate rest
  | '\\' :: 'u' :: a :: b :: c :: d :: rest =>
    ((codeOfHex? [a, b, c, d]).map fun n => [n]).getD (['\\', 'u', a, b, c, d].map Char.toNat) ++
      evaluate rest
  | '\\' :: 'U' :: a :: b :: c :: d :: e :: f :: g :: h :: rest =>
    ((codeOfHex? [a, b, c, d, e, f, g, h]).map fun n => [n]).getD
      (['\\', 'U', a, b, c, d, e, f, g, h].map Char.toNat) ++ evaluate rest
  | c :: rest => c.toNat :: evaluate rest
  | [] => []

/-- Makes one backslash of each two. -/
def halveBackslashes : List Nat → List Nat
  | 92 :: 92 :: rest => 92 :: halveBackslashes rest
  | c :: rest => c :: halveBackslashes rest
  | [] => []

/-- What the text inside a literal stands for. -/
def meaning (inner : List Char) : Except Refusal (List Nat) :=
  match doubleBackslashes inner with
  | some cs => .ok (evaluate (unifyBreaks (bareQuotes cs)))
  | none => .error (.openLiteral (String.ofList inner))

def knownFlags : List Char := ['i', 'm', 's', 'l', 'u', 'x']

def isDelimiter (c : Char) : Bool := c == '"' || c == '/'

/-- The pattern that a literal writes, between quotes or slashes and before its flags. -/
def ofLiteral (isText : Bool) (literal : String) : Except Refusal Pattern := do
  let given := literal.toList.reverse.takeWhile fun c => !isDelimiter c
  let flags := knownFlags.filter given.contains
  if !isText && literal.toList.contains '\n' && !flags.contains 'x' then throw .brokenRegexp
  let value ← meaning ((literal.toList.take (literal.length - given.length - 1)).drop 1)
  if value.isEmpty then throw (.emptyLiteral literal)
  return if isText then ofText (halveBackslashes value) flags else ofRegexp value flags

def inside (literal : String) : List Char := (literal.toList.take (literal.length - 1)).drop 1

def ofRange (first last : String) : Except Refusal Pattern := do
  let start ← meaning (inside first)
  let stop ← meaning (inside last)
  if start.length != 1 || stop.length != 1 then throw .rangeOfTexts
  return ofRegexp (('[' :: inside first ++ '-' :: inside last ++ [']']).map Char.toNat) []

/-! ## Regular expressions -/

def specialChars : List Nat :=
  codePoints "()[]\x7b\x7d?*+-|^$\\.&~# \t\n\r\x0b\x0c"

def escaped (value : List Nat) : List Nat :=
  value.flatMap fun c => if specialChars.contains c then ['\\'.toNat, c] else [c]

def withFlags (flags : List Char) (regexp : List Nat) : List Nat :=
  flags.foldl (fun cs f => ['(', '?', f, ':'].map Char.toNat ++ cs ++ [')'.toNat]) regexp

def regexp (p : Pattern) : List Nat :=
  withFlags p.flags (if p.isText then escaped p.value else p.value)

/-- A code point in a quoted text. One that is not a character is shown by its number. -/
def quotedCode (mark : Char) (n : Nat) : List Char :=
  if n.isValidChar then Text.quotedChar mark (Char.ofNat n) else '\\' :: 'u' :: Text.hexDigits 4 n

def display (p : Pattern) : String :=
  let mark := Text.quotationMark (p.regexp.map Char.ofNat)
  String.ofList (mark :: p.regexp.flatMap (quotedCode mark) ++ [mark])

def width (p : Pattern) : Width :=
  if p.isText then ⟨p.value.length, p.value.length⟩
  else .ofRegexp (p.regexp.map Char.ofNat)

/-- A regular expression as a group that is not numbered. -/
def grouped (regexp : List Nat) : List Nat := codePoints "(?:" ++ regexp ++ codePoints ")"

def inSequence : List Pattern → Pattern
  | [] => ofText [] []
  | [p] => p
  | ps => ofRegexp (ps.flatMap regexp) []

/-- Whether a pattern is tried before another one. -/
def isWider (p q : Pattern) : Bool :=
  let v := p.width
  let w := q.width
  if v.most != w.most then w.most < v.most
  else if v.least != w.least then w.least < v.least
  else q.value.length < p.value.length

def asAlternatives : List Pattern → Pattern
  | [] => ofText [] []
  | [p] => p
  | ps =>
    let sorted := ps.mergeSort fun p q => !isWider q p
    ofRegexp (grouped ((codePoints "|").intercalate (sorted.map regexp))) []

def repeated (p : Pattern) (mark : String) : Pattern :=
  ofRegexp (grouped p.regexp ++ codePoints mark) p.flags

end Pattern

end GrammarServer.Loading
