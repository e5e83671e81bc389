import GrammarServer.Parse.Derivation
import GrammarServer.Proofs.Typed.Basic

/-!
# Faithful files

A layout cannot keep everything apart. An override is laid out as an extension, a name given to an
alternative inside a group is shown and not written, the path of an import is taken apart at its
last dot, and an escaped slash ends a regular expression only if no other slash follows on its
line. A derivation is faithful if it has none of these.
-/
namespace GrammarServer

namespace Derivation

mutual

def namesAlternative : Derivation → Bool
  | leaf _ => false
  | node q ds =>
    match q.left with
    | .aliasing => q.right.contains (.terminal .arrow)
    | .expansions | .alternatives => namesOneOf ds
    | _ => false

def namesOneOf : List Derivation → Bool
  | [] => false
  | d :: rest => namesAlternative d || namesOneOf rest

end

def isName : Terminal → Bool
  | .ruleName | .terminalName => true
  | _ => false

def nameCount (d : Derivation) : Nat := d.lexemes.countP fun x => isName x.terminal

/-- Whether a phrase is none of those that a layout changes, whatever its parts are. -/
def isFaithfulNode : Phrase → List Derivation → Bool
  | .override, _ => false
  | .atom, [_, body, _] => !body.namesAlternative
  | .imports, [_, path] => 2 ≤ path.nameCount
  | .imports, [_, path, _, _] => 2 ≤ path.nameCount
  | .imports, [_, path, _, _, _] => path.nameCount == 1
  | _, _ => true

mutual

def isFaithful : Derivation → Bool
  | leaf x => x.terminal != .regexp || Terminal.closingEscapes x.text % 2 == 0
  | node q ds => isFaithfulNode q.left ds && areFaithful ds

def areFaithful : List Derivation → Bool
  | [] => true
  | d :: rest => isFaithful d && areFaithful rest

end

def isNamingGroup : Phrase → List Derivation → Bool
  | .atom, [_, body, _] => body.namesAlternative
  | _, _ => false

mutual

/-- Whether an alternative directly inside a group has a name. -/
def namesGroup : Derivation → Bool
  | leaf _ => false
  | node q ds => isNamingGroup q.left ds || namesGroupIn ds

def namesGroupIn : List Derivation → Bool
  | [] => false
  | d :: rest => namesGroup d || namesGroupIn rest

end

mutual

/-- Whether the words of a file can be read again once it is laid out. That is so if its statements
are faithful, and even if some of them override others. -/
def isWritable : Derivation → Bool
  | leaf _ => true
  | node q ds =>
    match q.left with
    | .start | .list | .item => areWritable ds
    | .override => areFaithful ds
    | _ => (node q ds).isFaithful

def areWritable : List Derivation → Bool
  | [] => true
  | d :: rest => isWritable d && areWritable rest

end

end Derivation

namespace Typed

mutual

def Value.Faithful : Value → Prop
  | .regexp x => Terminal.closingEscapes x.text % 2 = 0
  | .usage _ _ arguments => arguments.Faithful
  | _ => True

def Values.Faithful : Values → Prop
  | .one v => v.Faithful
  | .cons v rest => v.Faithful ∧ rest.Faithful

def Atom.Faithful : Atom → Prop
  | .value v => v.Faithful
  | .group body => body.Unnamed ∧ body.Faithful
  | .maybe _ body => body.Faithful

def Expr.Faithful : Expr → Prop
  | .mk _ atom _ => atom.Faithful

def Exprs.Faithful : Exprs → Prop
  | .nil => True
  | .cons x rest => x.Faithful ∧ rest.Faithful

def Alternative.Faithful : Alternative → Prop
  | .plain _ body => body.Faithful
  | .named _ _ body _ => body.Faithful

def Alternatives.Faithful : Alternatives → Prop
  | .one a => a.Faithful
  | .cons a rest => a.Faithful ∧ rest.Faithful

def Alternative.Unnamed : Alternative → Prop
  | .plain .. => True
  | .named .. => False

def Alternatives.Unnamed : Alternatives → Prop
  | .one a => a.Unnamed
  | .cons a rest => a.Unnamed ∧ rest.Unnamed

end

mutual

/-- Nothing directly inside a group has a name. -/
def Value.GroupsUnnamed : Value → Prop
  | .usage _ _ arguments => arguments.GroupsUnnamed
  | _ => True

def Values.GroupsUnnamed : Values → Prop
  | .one v => v.GroupsUnnamed
  | .cons v rest => v.GroupsUnnamed ∧ rest.GroupsUnnamed

def Atom.GroupsUnnamed : Atom → Prop
  | .value v => v.GroupsUnnamed
  | .group body => body.Unnamed ∧ body.GroupsUnnamed
  | .maybe _ body => body.GroupsUnnamed

def Expr.GroupsUnnamed : Expr → Prop
  | .mk _ atom _ => atom.GroupsUnnamed

def Exprs.GroupsUnnamed : Exprs → Prop
  | .nil => True
  | .cons x rest => x.GroupsUnnamed ∧ rest.GroupsUnnamed

def Alternative.GroupsUnnamed : Alternative → Prop
  | .plain _ body => body.GroupsUnnamed
  | .named _ _ body _ => body.GroupsUnnamed

def Alternatives.GroupsUnnamed : Alternatives → Prop
  | .one a => a.GroupsUnnamed
  | .cons a rest => a.GroupsUnnamed ∧ rest.GroupsUnnamed

end

theorem Values.faithful_snoc : ∀ (vs : Values) (w : Value),
    (vs.snoc w).Faithful ↔ vs.Faithful ∧ w.Faithful
  | .one _, _ => Iff.rfl
  | .cons v rest, w => by rw [snoc, Faithful, faithful_snoc rest w, Faithful, and_assoc]

theorem Exprs.faithful_snoc : ∀ (xs : Exprs) (y : Expr),
    (xs.snoc y).Faithful ↔ xs.Faithful ∧ y.Faithful
  | .nil, y => by simp [snoc, Faithful]
  | .cons x rest, y => by rw [snoc, Faithful, faithful_snoc rest y, Faithful, and_assoc]

theorem Alternatives.faithful_snoc : ∀ (as : Alternatives) (b : Alternative),
    (as.snoc b).Faithful ↔ as.Faithful ∧ b.Faithful
  | .one _, _ => Iff.rfl
  | .cons a rest, b => by rw [snoc, Faithful, faithful_snoc rest b, Faithful, and_assoc]

theorem Values.groupsUnnamed_snoc : ∀ (vs : Values) (w : Value),
    (vs.snoc w).GroupsUnnamed ↔ vs.GroupsUnnamed ∧ w.GroupsUnnamed
  | .one _, _ => Iff.rfl
  | .cons v rest, w => by
    rw [snoc, GroupsUnnamed, groupsUnnamed_snoc rest w, GroupsUnnamed, and_assoc]

theorem Exprs.groupsUnnamed_snoc : ∀ (xs : Exprs) (y : Expr),
    (xs.snoc y).GroupsUnnamed ↔ xs.GroupsUnnamed ∧ y.GroupsUnnamed
  | .nil, y => by simp [snoc, GroupsUnnamed]
  | .cons x rest, y => by
    rw [snoc, GroupsUnnamed, groupsUnnamed_snoc rest y, GroupsUnnamed, and_assoc]

theorem Alternatives.groupsUnnamed_snoc : ∀ (as : Alternatives) (b : Alternative),
    (as.snoc b).GroupsUnnamed ↔ as.GroupsUnnamed ∧ b.GroupsUnnamed
  | .one _, _ => Iff.rfl
  | .cons a rest, b => by
    rw [snoc, GroupsUnnamed, groupsUnnamed_snoc rest b, GroupsUnnamed, and_assoc]

theorem Alternatives.unnamed_snoc : ∀ (as : Alternatives) (b : Alternative),
    (as.snoc b).Unnamed ↔ as.Unnamed ∧ b.Unnamed
  | .one _, _ => Iff.rfl
  | .cons a rest, b => by rw [snoc, Unnamed, unnamed_snoc rest b, Unnamed, and_assoc]

def Definition.Faithful : Definition → Prop
  | rule _ _ _ _ _ body => body.Faithful
  | term _ _ _ body => body.Faithful

def Definition.GroupsUnnamed : Definition → Prop
  | rule _ _ _ _ _ body => body.GroupsUnnamed
  | term _ _ _ body => body.GroupsUnnamed

def Source.Faithful : Source → Prop
  | whole path => path.init ≠ []
  | renamed path _ => path.init ≠ []
  | listed path _ more => path.init = [] ∧ more ≠ []

def Statement.Faithful : Statement → Prop
  | definition d => d.Faithful
  | override _ _ => False
  | extend _ d => d.Faithful
  | ignore _ body => body.Faithful
  | imports _ source => source.Faithful
  | declare .. | comment .. => True

def Statement.GroupsUnnamed : Statement → Prop
  | definition d | override _ d | extend _ d => d.GroupsUnnamed
  | ignore _ body => body.GroupsUnnamed
  | declare .. | imports .. | comment .. => True

def Statement.Writable : Statement → Prop
  | override _ d => d.Faithful
  | s => s.Faithful

end Typed

end GrammarServer
