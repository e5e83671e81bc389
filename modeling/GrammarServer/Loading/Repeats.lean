import GrammarServer.Loading.Terminals

/-!
# Repeated parts of rules

A part that is repeated without end becomes a rule of its own, named for the rule in which it is
first met. A part repeated a few times becomes a choice of sequences; one repeated many times is
put together from rules that repeat it a small number of times, one upon another. The bounds of
such a repetition must not be negative, nor the lower one exceed the upper.
-/
namespace GrammarServer.Loading

/-- Splits a number into small factors and summands: from one, multiply by each factor and add its
summand in turn. A factor and its summand are at most five together. -/
def smallFactors : Nat → Nat → List (Nat × Nat)
  | 0, n => [(n, 0)]
  | fuel + 1, n =>
    if n ≤ 5 then [(n, 0)]
    else
      match [5, 4, 3, 2].find? fun a => a + n % a ≤ 5 with
      | some a => smallFactors fuel (n / a) ++ [(a, n % a)]
      | none => [(n, 0)]

/-- The factors of a number. Each of them halves it at least. -/
def factorsOf (n : Nat) : List (Nat × Nat) := smallFactors (Nat.log2 n + 1) n

structure Repeat where
  key : String
  name : String
  body : Body

/-- The rules made for repeated parts, in order. -/
structure Repeats where
  made : List Repeat := []

namespace Repeats

def name? (r : Repeats) (key : String) : Option String :=
  (r.made.find? fun x => x.key == key).map Repeat.name

def symbol (r : Repeats) (key : String) : Body := .symbol (.rule ((r.name? key).getD ""))

/-- Adds a rule, unless there is one that repeats the same, and gives the symbol of it. The body
may use the symbol. -/
def make (r : Repeats) (owner word key : String) (body : Body → Body) : Repeats × Body :=
  match r.name? key with
  | some _ => (r, r.symbol key)
  | none =>
    let name := "__" ++ owner ++ "_" ++ word ++ "_" ++ toString r.made.length
    let symbol : Body := .symbol (.rule name)
    (⟨r.made ++ [⟨key, name, body symbol⟩]⟩, symbol)

def makeEndless (r : Repeats) (owner word : String) (part : Body) : Repeats × Body :=
  r.make owner word part.display fun more =>
    .choice [.sequence [part], .sequence [more, part]]

def counts (a b : Nat) : String := "a" ++ toString a ++ "_b" ++ toString b

/-- The rule that repeats `whole` `a` times and then `part` `b` times. -/
def makeExact (r : Repeats) (owner : String) (a b : Nat) (whole part : Body) : Repeats × Body :=
  r.make owner ("repeat_" ++ counts a b)
    (", ".intercalate [toString a, toString b, whole.display, part.display])
    fun _ => .choice [.sequence (List.replicate a whole ++ List.replicate b part)]

/-- The rule that repeats `part` less often than `a` times `whole` and `b` times `part` would,
given what repeats it less often than `whole`. -/
def makeFewer (r : Repeats) (owner : String) (a b : Nat) (whole fewer part : Body) :
    Repeats × Body :=
  r.make owner ("repeat_" ++ counts a b ++ "_opt")
    (", ".intercalate [toString a, toString b, whole.display, part.display, "opt"])
    fun _ => .choice
      ((List.range a).map (fun k => .sequence (List.replicate k whole ++ [fewer])) ++
        (List.range b).map fun k => .sequence (List.replicate a whole ++ List.replicate k part))

def exactly (owner : String) (part : Body) :
    List (Nat × Nat) → Repeats → (whole : Body) → Repeats × Body
  | [], r, whole => (r, whole)
  | (a, b) :: rest, r, whole =>
    let (r, whole) := r.makeExact owner a b whole part
    exactly owner part rest r whole

def lessThan (owner : String) (part : Body) :
    List (Nat × Nat) → Repeats → (whole fewer : Body) → Repeats × Body
  | [], r, _, fewer => (r, fewer)
  | [(a, b)], r, whole, fewer => r.makeFewer owner a b whole fewer part
  | (a, b) :: rest, r, whole, fewer =>
    let (r, fewer) := r.makeFewer owner a b whole fewer part
    let (r, whole) := r.makeExact owner a b whole part
    lessThan owner part rest r whole fewer

def fewTimes : Int := 50

def between (r : Repeats) (owner : String) (part : Body) (low high : Int) : Repeats × Body :=
  if high < fewTimes then
    let numbers := (List.range (high - low + 1).toNat).map fun (k : Nat) => (low + k).toNat
    (r, .choice (numbers.map fun k => .sequence (List.replicate k part)))
  else
    let (r, first) := exactly owner part (factorsOf low.toNat) r part
    if low == high then (r, first)
    else
      let factors := factorsOf (high - low + 1).toNat
      let (r, more) := lessThan owner part factors r part (.sequence [])
      (r, .choice [.sequence [first, more]])

def within (r : Repeats) (owner : String) (part : Body) : List Int → Repeats × Body
  | [n] => r.between owner part n n
  | [low, high] => r.between owner part low high
  | _ => (r, part)

end Repeats

namespace Body

mutual

/-- How many children a part leaves in a tree at most. -/
def size (keepsAll : Bool) : Body → Nat
  | symbol s => if s.isKept keepsAll then 1 else 0
  | choice alternatives => largest keepsAll alternatives
  | sequence parts => total keepsAll parts
  | naming part _ => size keepsAll part
  | _ => 0

def total (keepsAll : Bool) : List Body → Nat
  | [] => 0
  | b :: rest => size keepsAll b + total keepsAll rest

def largest (keepsAll : Bool) : List Body → Nat
  | [] => 0
  | b :: rest => max (size keepsAll b) (largest keepsAll rest)

end

mutual

/-- A body in which nothing is optional or repeated any more, given the rules for its parts. -/
def expand (r : Repeats) (keepsAll : Bool) : Body → Body
  | choice alternatives => choice (expandAll r keepsAll alternatives)
  | sequence parts => sequence (expandAll r keepsAll parts)
  | naming part name => naming (expand r keepsAll part) name
  | optional part =>
    let part := expand r keepsAll part
    choice [part, sequence (List.replicate (part.size keepsAll) (symbol .vacant))]
  | marked part mark =>
    let part := expand r keepsAll part
    if mark == "?" then choice [part, sequence []]
    else if mark == "+" then r.symbol part.display
    else choice [r.symbol part.display, sequence []]
  | times part bounds =>
    let part := expand r keepsAll part
    match readBounds bounds with
    | .ok bounds => (r.within "" part bounds).2
    | .error _ => part
  | b => b

def expandAll (r : Repeats) (keepsAll : Bool) : List Body → List Body
  | [] => []
  | b :: rest => expand r keepsAll b :: expandAll r keepsAll rest

end

end Body

namespace Repeats

/-- Makes the rule for a part that is repeated under a mark, if that takes one. -/
def addMarked (r : Repeats) (owner mark : String) (part : Body) : Repeats :=
  if mark == "?" then r
  else (r.makeEndless owner (if mark == "+" then "plus" else "star") part).1

def boundObstacle (part : Body) : List Int → Option Refusal
  | [low, high] =>
    if high < low || low < 0 then some (.badRange part.display low high) else none
  | _ => none

/-- Makes the rules for the repeated parts of a rule, and checks the bounds of repetitions. -/
def addParts (owner : String) (keepsAll : Bool) : List Body → Repeats → Except Refusal Repeats
  | [], r => .ok r
  | .marked part mark :: rest, r =>
    addParts owner keepsAll rest (r.addMarked owner mark (part.expand r keepsAll))
  | .times part bounds :: rest, r => do
    let part := part.expand r keepsAll
    let bounds ← readBounds bounds
    match boundObstacle part bounds with
    | some refusal => .error refusal
    | none => addParts owner keepsAll rest (r.within owner part bounds).1
  | _ :: rest, r => addParts owner keepsAll rest r

end Repeats

end GrammarServer.Loading
