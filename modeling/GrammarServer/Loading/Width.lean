/-!
# How wide a match can be

A regular expression is read from left to right. Each open group keeps how wide its alternatives
are: those already passed, and the present one up to the last item, which a mark of repetition may
still repeat. Expressions that are not well formed get some width, too.
-/
namespace GrammarServer.Loading

/-- The least and the largest number of characters that a match can have. -/
structure Width where
  least : Nat
  most : Nat
deriving DecidableEq, Repr

namespace Width

def zero : Width := ⟨0, 0⟩

def one : Width := ⟨1, 1⟩

def limit : Nat := 4294967295

def bounded (w : Width) : Width := ⟨min w.least (limit - 1), min w.most limit⟩

def plus (v w : Width) : Width := ⟨v.least + w.least, v.most + w.most⟩

def either (v w : Width) : Width := ⟨min v.least w.least, max v.most w.most⟩

def times (low high : Nat) (w : Width) : Width := ⟨w.least * low, w.most * high⟩

inductive Purpose
  /-- It only holds its parts together. -/
  | plain
  /-- Its match can be referred to by a number. -/
  | numbered (n : Nat)
  /-- It looks ahead or back, and matches nothing itself. -/
  | test
  /-- Its first alternative holds if another group has matched, its second one if not. -/
  | conditional

structure Group where
  purpose : Purpose
  /-- Whether blanks and comments between items mean nothing. -/
  isVerbose : Bool
  passed : Option Width := none
  before : Width := zero
  last : Width := zero

namespace Group

def branch (g : Group) : Width := (g.before.plus g.last).bounded

def add (w : Width) (g : Group) : Group := { g with before := g.before.plus g.last, last := w }

def repeatLast (low high : Nat) (g : Group) : Group := { g with last := g.last.times low high }

def alternatives (g : Group) : Width :=
  match g.passed with
  | none => g.branch
  | some w => (w.either g.branch).bounded

def nextBranch (g : Group) : Group :=
  { g with passed := some g.alternatives, before := zero, last := zero }

def width (g : Group) : Width :=
  match g.purpose with
  | .test => zero
  | .conditional => if g.passed.isNone then zero.either g.branch else g.alternatives
  | _ => g.alternatives

end Group

/-- What has been read of an expression: the groups that are open, the innermost first, and the
groups that can be referred to. -/
structure Reader where
  inner : Group
  outer : List Group := []
  opened : Nat := 0
  closed : List (Nat × Width) := []
  names : List (List Char × Nat) := []

namespace Reader

def add (w : Width) (r : Reader) : Reader := { r with inner := r.inner.add w }

def repeatLast (low high : Nat) (r : Reader) : Reader :=
  { r with inner := r.inner.repeatLast low high }

def enter (purpose : Purpose) (isVerbose : Bool) (r : Reader) : Reader :=
  { r with inner := { purpose, isVerbose }, outer := r.inner :: r.outer }

def enterNumbered (name : Option (List Char)) (r : Reader) : Reader :=
  let n := r.opened + 1
  let names := match name with
    | some name => (name, n) :: r.names
    | none => r.names
  { (r.enter (.numbered n) r.inner.isVerbose) with opened := n, names }

def leave (r : Reader) : Reader :=
  match r.outer with
  | [] => r
  | g :: rest =>
    let w := r.inner.width
    let closed := match r.inner.purpose with
      | .numbered n => (n, w) :: r.closed
      | _ => r.closed
    { r with inner := g.add w, outer := rest, closed }

def addReference (n : Nat) (r : Reader) : Reader := r.add ((r.closed.lookup n).getD zero)

end Reader

/-! ## Parts of the notation -/

def isDigit (c : Char) : Bool := '0' ≤ c && c ≤ '9'

def isOctal (c : Char) : Bool := '0' ≤ c && c ≤ '7'

def digitValue (c : Char) : Nat := c.toNat - '0'.toNat

def numeral (cs : List Char) : Nat := cs.foldl (fun n c => n * 10 + digitValue c) 0

/-- How many characters it takes to come to one of this kind, that one included. -/
def upTo (d : Char) (cs : List Char) : Nat := (cs.takeWhile (· != d)).length + 1

/-- The length of a set of characters after its opening bracket. Its first member may be a closing
bracket. -/
def setLength : (isFirst : Bool) → List Char → Nat
  | _, [] => 0
  | _, '\\' :: _ :: cs => 2 + setLength false cs
  | true, '^' :: ']' :: cs => 2 + setLength false cs
  | isFirst, c :: cs => if c == ']' && !isFirst then 1 else 1 + setLength false cs

/-- The bounds that are written after an opening brace, and how long they are, the closing brace
included. -/
def bounds? (cs : List Char) : Option (Nat × Nat × Nat) :=
  let low := cs.takeWhile isDigit
  let rest := cs.drop low.length
  let least := numeral low
  match rest with
  | '\x7d' :: _ => if low.isEmpty then none else some (least, least, low.length + 1)
  | ',' :: rest =>
    let high := rest.takeWhile isDigit
    match rest.drop high.length with
    | '\x7d' :: _ =>
      some (least, if high.isEmpty then limit else numeral high, low.length + high.length + 2)
    | _ => none
  | _ => none

/-- A mark of repetition may be followed by another sign, which tells how to choose. -/
def choiceLength (cs : List Char) : Nat :=
  match cs with
  | '?' :: _ | '+' :: _ => 1
  | _ => 0

/-- A backslash and what follows. Gives how many characters belong to it, too. -/
def readEscape (r : Reader) (cs : List Char) : Reader × Nat :=
  match cs with
  | [] => (r, 0)
  | c :: rest =>
    if ['A', 'b', 'B', 'Z'].contains c then (r.add zero, 1)
    else if c == 'x' then (r.add one, 3)
    else if c == 'u' then (r.add one, 5)
    else if c == 'U' then (r.add one, 9)
    else if c == 'N' then (r.add one, 1 + upTo '\x7d' rest)
    else if c == '0' then (r.add one, 1 + ((rest.take 2).takeWhile isOctal).length)
    else if isDigit c then
      match rest with
      | d :: e :: _ =>
        if !isDigit d then (r.addReference (digitValue c), 1)
        else if isOctal c && isOctal d && isOctal e then (r.add one, 3)
        else (r.addReference (numeral [c, d]), 2)
      | [d] =>
        if isDigit d then (r.addReference (numeral [c, d]), 2)
        else (r.addReference (digitValue c), 1)
      | [] => (r.addReference (digitValue c), 1)
    else (r.add one, 1)

/-- Flags after an opening parenthesis and a question mark: for the rest of the expression, or for
a group. -/
def readFlags (r : Reader) (cs : List Char) : Reader × Nat :=
  let flags := cs.takeWhile fun c => c == '-' || c.isAlpha
  let isOn := (flags.takeWhile (· != '-')).contains 'x'
  let isOff := (flags.dropWhile (· != '-')).contains 'x'
  let isVerbose := (r.inner.isVerbose || isOn) && !isOff
  match cs.drop flags.length with
  | ':' :: _ => (r.enter .plain isVerbose, flags.length + 2)
  | _ => ({ r with inner := { r.inner with isVerbose } }, flags.length + 2)

def readOpening (r : Reader) (cs : List Char) : Reader × Nat :=
  let isVerbose := r.inner.isVerbose
  match cs with
  | '?' :: ':' :: _ | '?' :: '>' :: _ => (r.enter .plain isVerbose, 2)
  | '?' :: '=' :: _ | '?' :: '!' :: _ => (r.enter .test isVerbose, 2)
  | '?' :: '<' :: '=' :: _ | '?' :: '<' :: '!' :: _ => (r.enter .test isVerbose, 3)
  | '?' :: '#' :: rest => (r, 2 + upTo ')' rest)
  | '?' :: '(' :: rest => (r.enter .conditional isVerbose, 2 + upTo ')' rest)
  | '?' :: 'P' :: '<' :: rest =>
    (r.enterNumbered (some (rest.takeWhile (· != '>'))), 3 + upTo '>' rest)
  | '?' :: 'P' :: '=' :: rest =>
    let name := rest.takeWhile (· != ')')
    (r.addReference ((r.names.lookup name).getD 0), 3 + upTo ')' rest)
  | '?' :: rest => readFlags r rest
  | _ => (r.enterNumbered none, 0)

/-- Reads a character. Gives how many of the characters after it belong to it, too. -/
def readChar (r : Reader) (c : Char) (cs : List Char) : Reader × Nat :=
  if r.inner.isVerbose && [' ', '\t', '\n', '\r', '\x0b', '\x0c'].contains c then (r, 0)
  else if r.inner.isVerbose && c == '#' then (r, upTo '\n' cs)
  else
    match c with
    | '\\' => readEscape r cs
    | '[' => (r.add one, setLength true cs)
    | '(' => readOpening r cs
    | ')' => (r.leave, 0)
    | '|' => ({ r with inner := r.inner.nextBranch }, 0)
    | '^' | '$' => (r.add zero, 0)
    | '*' => (r.repeatLast 0 limit, choiceLength cs)
    | '+' => (r.repeatLast 1 limit, choiceLength cs)
    | '?' => (r.repeatLast 0 1, choiceLength cs)
    | '\x7b' =>
      match bounds? cs with
      | some (low, high, n) => (r.repeatLast low high, n + choiceLength (cs.drop n))
      | none => (r.add one, 0)
    | _ => (r.add one, 0)

/-- Reads an expression. The number counts the characters that belong to what was read last. -/
def readAll : Nat → List Char → Reader → Reader
  | _, [], r => r
  | owed + 1, _ :: cs, r => readAll owed cs r
  | 0, c :: cs, r =>
    let (r, owed) := readChar r c cs
    readAll owed cs r

def ofRegexp (cs : List Char) : Width :=
  (readAll 0 cs { inner := { purpose := .plain, isVerbose := false } }).inner.width

end Width

end GrammarServer.Loading
