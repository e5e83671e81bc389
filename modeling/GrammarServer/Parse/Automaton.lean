import GrammarServer.Parse.Grammar

/-!
# The parsing automaton

The states of a bottom-up parser with one terminal of lookahead. A state's kernel is a set of
productions marked at the place reached so far; an edge leads over a symbol to the state in which
it has been read. Lookaheads are those of the merged states: a completed production may be reduced
before exactly the terminals that can follow it in some context that reaches the state. Where a
terminal can also be shifted, it is shifted.
-/
namespace GrammarServer

/-- A set of terminals, as the bits of a number. -/
abbrev TerminalSet := Nat

namespace TerminalSet

def single (t : Terminal) : TerminalSet := 1 <<< t.ctorIdx

def holds (s : TerminalSet) (t : Terminal) : Bool := s.testBit t.ctorIdx

end TerminalSet

namespace Automaton

/-- Repeats a step until it changes nothing, at most the given number of times. -/
def settle {α : Type} [BEq α] (step : α → α) : Nat → α → α
  | 0, x => x
  | n + 1, x =>
    let y := step x
    if y == x then x else settle step n y

abbrev PhraseTable (α : Type) := List α

def PhraseTable.of {α : Type} [Inhabited α] (table : PhraseTable α) (p : Phrase) : α :=
  table.getD p.ctorIdx default

/-! ## What a phrase may be empty, start with and open -/

def emptyIn (known : PhraseTable Bool) : Symbol → Bool
  | .terminal _ => false
  | .phrase p => known.of p

def emptyPhrases : PhraseTable Bool :=
  settle (Production.all.foldl fun known q =>
      if q.right.all (emptyIn known) then known.set q.left.ctorIdx true else known)
    Phrase.all.length (Phrase.all.map fun _ => false)

def canBeEmpty (symbols : List Symbol) : Bool := symbols.all (emptyIn emptyPhrases)

def firstIn (known : PhraseTable TerminalSet) : List Symbol → TerminalSet
  | [] => 0
  | .terminal t :: _ => .single t
  | .phrase p :: rest =>
    if emptyPhrases.of p then known.of p ||| firstIn known rest else known.of p

def firstOfPhrases : PhraseTable TerminalSet :=
  settle (Production.all.foldl fun known q =>
      known.modify q.left.ctorIdx (· ||| firstIn known q.right))
    Phrase.all.length (Phrase.all.map fun _ => 0)

def firstOf (symbols : List Symbol) : TerminalSet := firstIn firstOfPhrases symbols

/-- How a phrase comes to be expected where another one is: the terminals that can follow it by
then, and whether what follows the other one can follow it too. -/
structure Corner where
  follow : TerminalSet
  reaches : Bool
deriving BEq, Inhabited

def Corner.join (old : Option Corner) (new : Corner) : Option Corner :=
  match old with
  | none => some new
  | some c => some ⟨c.follow ||| new.follow, c.reaches || new.reaches⟩

def cornersStep (known : PhraseTable (Option Corner)) : PhraseTable (Option Corner) :=
  Production.all.foldl (fun known q =>
    match known.of q.left, q.right with
    | some c, .phrase p :: rest =>
      let follow := if canBeEmpty rest then firstOf rest ||| c.follow else firstOf rest
      known.modify p.ctorIdx (Corner.join · ⟨follow, c.reaches && canBeEmpty rest⟩)
    | _, _ => known) known

/-- For each phrase, the phrases expected together with it. -/
def corners : PhraseTable (PhraseTable (Option Corner)) :=
  Phrase.all.map fun p =>
    settle cornersStep Phrase.all.length
      ((Phrase.all.map fun _ => none).set p.ctorIdx (some ⟨0, true⟩))

/-! ## States and edges -/

/-- A production, by its number, with the symbols that are still to come. -/
structure Marked where
  number : Nat
  passed : Nat
  rest : List Symbol

namespace Marked

instance : BEq Marked := ⟨fun a b => a.number == b.number && a.passed == b.passed⟩

def whole : Marked := ⟨Production.all.length, 0, [.phrase .start]⟩

def opening : List Marked := Production.all.mapIdx fun i q => ⟨i, 0, q.right⟩

def openingOf : PhraseTable (List Marked) :=
  let numbered := Production.all.zip opening
  Phrase.all.map fun p => (numbered.filter fun q => q.1.left == p).map (·.2)

def precedes (a b : Marked) : Bool :=
  a.number < b.number || (a.number == b.number && a.passed < b.passed)

def insert (a : Marked) : List Marked → List Marked
  | [] => [a]
  | b :: rest => if a.precedes b then a :: b :: rest else b :: insert a rest

def across (x : Symbol) (a : Marked) : Option Marked :=
  match a.rest with
  | [] => none
  | y :: rest => if x == y then some ⟨a.number, a.passed + 1, rest⟩ else none

end Marked

def expectedWith (a : Marked) (p : Phrase) : Option Corner :=
  match a.rest with
  | .phrase q :: _ => (corners.of q).of p
  | _ => none

def closure (kernel : List Marked) : List Marked :=
  kernel ++ (Phrase.all.filter fun p => kernel.any fun a => (expectedWith a p).isSome).flatMap
    Marked.openingOf.of

def nextSymbols : List Marked → List Symbol → List Symbol
  | [], found => found.reverse
  | a :: rest, found =>
    match a.rest with
    | [] => nextSymbols rest found
    | x :: _ => nextSymbols rest (if found.contains x then found else x :: found)

def kernelOver (x : Symbol) (items : List Marked) : List Marked :=
  (items.filterMap (Marked.across x)).foldl (fun kernel a => a.insert kernel) []

structure Core where
  kernel : List Marked
  edges : List (Symbol × Nat)

def Core.target (s : Core) (x : Symbol) : Option Nat := s.edges.lookup x

/-- The kernels found so far with this one among them, and its number. -/
def locate (found : List (List Marked)) (kernel : List Marked) : List (List Marked) × Nat :=
  match found.findIdx? (· == kernel) with
  | some n => (found, n)
  | none => (found ++ [kernel], found.length)

def edgesFrom (items : List Marked) : List Symbol → List (List Marked) →
    List (List Marked) × List (Symbol × Nat)
  | [], found => (found, [])
  | x :: rest, found =>
    let (found, n) := locate found (kernelOver x items)
    let (found, edges) := edgesFrom items rest found
    (found, (x, n) :: edges)

/-- Works off the kernels found, at most the given number of them. -/
def explore : Nat → List (List Marked) → List Core → List Core
  | 0, _, cores => cores
  | fuel + 1, found, cores =>
    match found[cores.length]? with
    | none => cores
    | some kernel =>
      let items := closure kernel
      let (found, edges) := edgesFrom items (nextSymbols items []) found
      explore fuel found (cores ++ [⟨kernel, edges⟩])

def stateBound : Nat := 400

def cores : List Core := explore stateBound [[Marked.whole]] []

/-! ## Lookaheads -/

/-- What can follow the productions of phrase `p` when the marked production `a`, itself followed
by `after`, expects it. -/
def followOf (a : Marked) (after : TerminalSet) (p : Phrase) : TerminalSet :=
  match expectedWith a p with
  | none => 0
  | some c =>
    let rest := a.rest.tail
    if c.reaches then
      c.follow ||| firstOf rest ||| (if canBeEmpty rest then after else 0)
    else c.follow

def addLookahead (table : List (List TerminalSet)) (state : Nat) (kernel : List Marked)
    (a : Marked) (s : TerminalSet) : List (List TerminalSet) :=
  match kernel.findIdx? (· == a) with
  | none => table
  | some i => table.modify state fun sets => sets.modify i (· ||| s)

/-- Sends the lookahead of one production of a state over the edge that it takes. -/
def pass (cores : List Core) (core : Core) (a : Marked) (s : TerminalSet)
    (table : List (List TerminalSet)) : List (List TerminalSet) :=
  match a.rest with
  | [] => table
  | x :: rest =>
    match core.target x with
    | none => table
    | some n =>
      match cores[n]? with
      | none => table
      | some next => addLookahead table n next.kernel ⟨a.number, a.passed + 1, rest⟩ s

/-- Sends the lookaheads of a state's kernel on to the states after it. -/
def passAll (cores : List Core) (core : Core) (sets : List TerminalSet)
    (table : List (List TerminalSet)) : List (List TerminalSet) :=
  (core.kernel.zip sets).foldl (fun table (a, s) =>
    let table := pass cores core a s table
    Phrase.all.foldl (fun table p =>
      match expectedWith a p with
      | none => table
      | some _ =>
        (Marked.openingOf.of p).foldl (fun table b =>
          pass cores core b (followOf a s p) table) table) table) table

def lookaheadStep (cores : List Core) (table : List (List TerminalSet)) :
    List (List TerminalSet) :=
  (cores.zipIdx).foldl (fun table (core, n) => passAll cores core (table.getD n []) table) table

def lookaheads (cores : List Core) : List (List TerminalSet) :=
  settle (lookaheadStep cores) stateBound
    (cores.map fun core => core.kernel.map fun a =>
      if a == Marked.whole then TerminalSet.single .endOfInput else 0)

/-! ## Actions -/

inductive Action
  | shift (state : Nat)
  | reduce (q : Production)
  | accept

structure State where
  actions : List (Terminal × Action)
  gotos : List (Phrase × Nat)

def State.actionsOf : Option State → List (Terminal × Action)
  | some state => state.actions
  | none => []

def State.gotoOf (p : Phrase) : Option State → Option Nat
  | some state => state.gotos.lookup p
  | none => none

def completed (core : Core) (sets : List TerminalSet) : List (Nat × TerminalSet) :=
  (core.kernel.zip sets).flatMap fun (a, s) =>
    (if a.rest.isEmpty then [(a.number, s)] else []) ++
    Phrase.all.flatMap fun p =>
      match expectedWith a p with
      | none => []
      | some _ =>
        ((Marked.openingOf.of p).filter (·.rest.isEmpty)).map fun b => (b.number, followOf a s p)

def actionOf (core : Core) (complete : List (Nat × TerminalSet)) (t : Terminal) :
    Option Action :=
  match core.target (.terminal t) with
  | some n => some (.shift n)
  | none =>
    match complete.find? fun (_, s) => s.holds t with
    | none => none
    | some (number, _) =>
      match Production.all[number]? with
      | some q => some (.reduce q)
      | none => some .accept

def stateOf (core : Core) (sets : List TerminalSet) : State :=
  let complete := completed core sets
  { actions := Terminal.inNameOrder.filterMap fun t => (actionOf core complete t).map (t, ·)
    gotos := core.edges.filterMap fun (x, n) =>
      match x with
      | .phrase p => some (p, n)
      | .terminal _ => none }

end Automaton

@[irreducible] def automaton : Array Automaton.State :=
  let cores := Automaton.cores
  ((cores.zip (Automaton.lookaheads cores)).map fun (core, sets) =>
    Automaton.stateOf core sets).toArray

end GrammarServer
