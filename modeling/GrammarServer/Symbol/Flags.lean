/-!
# Kinds, directives and modifiers

What is known of a symbol besides its name: whether it is a rule or a terminal, the directives by
which it came into the grammar, and the modifiers that its name and the signs before it give it.
-/
namespace GrammarServer

inductive Kind
  | rule | terminal
deriving DecidableEq, Repr

namespace Kind

def word : Kind → String
  | rule => "rule"
  | terminal => "terminal"

def heading : Kind → String
  | rule => "Rule"
  | terminal => "Terminal"

def constant : Kind → String
  | rule => "Kind.RULE"
  | terminal => "Kind.TERMINAL"

def all : List Kind := [rule, terminal]

end Kind

inductive Directive
  | overrided | extended | ignored | declared | imported
deriving DecidableEq, Repr

namespace Directive

def all : List Directive := [overrided, extended, ignored, declared, imported]

def name : Directive → String
  | overrided => "OVERRIDED"
  | extended => "EXTENDED"
  | ignored => "IGNORED"
  | declared => "DECLARED"
  | imported => "IMPORTED"

def value : Directive → Nat
  | overrided => 1
  | extended => 2
  | ignored => 4
  | declared => 8
  | imported => 16

end Directive

inductive Modifier
  | inlined | conditionallyInlined | pinned
deriving DecidableEq, Repr

namespace Modifier

def all : List Modifier := [inlined, conditionallyInlined, pinned]

def name : Modifier → String
  | inlined => "INLINED"
  | conditionallyInlined => "CONDITIONALLY_INLINED"
  | pinned => "PINNED"

def value : Modifier → Nat
  | inlined => 1
  | conditionallyInlined => 2
  | pinned => 4

def sign : Modifier → String
  | inlined => "_"
  | conditionallyInlined => "?"
  | pinned => "!"

def ofSign? (s : String) : Option Modifier := all.find? fun m => m.sign == s

end Modifier

structure Directives where
  members : List Directive
deriving DecidableEq, Repr

namespace Directives

def none : Directives := ⟨[]⟩

def has (s : Directives) (d : Directive) : Bool := s.members.contains d

def toList (s : Directives) : List Directive := Directive.all.filter s.has

def number (s : Directives) : Nat := s.toList.foldl (fun n d => n + d.value) 0

end Directives

structure Modifiers where
  members : List Modifier
deriving DecidableEq, Repr

namespace Modifiers

def none : Modifiers := ⟨[]⟩

def has (s : Modifiers) (m : Modifier) : Bool := s.members.contains m

def toList (s : Modifiers) : List Modifier := Modifier.all.filter s.has

def number (s : Modifiers) : Nat := s.toList.foldl (fun n m => n + m.value) 0

def union (s t : Modifiers) : Modifiers := ⟨s.members ++ t.members⟩

/-- The modifier that a sign stands for; other texts stand for none. -/
def ofSign (s : String) : Modifiers :=
  match Modifier.ofSign? s with
  | some m => ⟨[m]⟩
  | Option.none => none

/-- The sign of a set of just one modifier. -/
def sign (s : Modifiers) : String :=
  match s.toList with
  | [m] => m.sign
  | _ => ""

end Modifiers

end GrammarServer
