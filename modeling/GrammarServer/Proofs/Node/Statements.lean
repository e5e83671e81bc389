import GrammarServer.Proofs.Typed.OfDerivation
import Mathlib.Data.List.Forall2

/-!
# The statements of a file, one by one

A derivation of a file lists items, and an item is a statement or the end of a line. The nodes of
the file are built from its statements, one from each and in their order. But for the ends of lines,
all that is written in the file is written in one of them.
-/
namespace GrammarServer.Derivation

/-! ## Symbols that stand in a derivation -/

section

variable {S : Symbol → Bool}

mutual

/-- If such symbols have only such parts, then all their lexemes are of such terminals. -/
theorem forall_lexemes (hS : ∀ q ∈ Production.all, S q.left = true → q.right.all S = true) :
    ∀ d : Derivation, d.Valid → S d.symbol = true → ∀ x ∈ d.lexemes, S x.terminal = true
  | leaf _, _, hx => List.forall_mem_singleton.mpr hx
  | node q ds, ⟨hq, hspell, hvalid⟩, hleft => by
    have hright := hS q hq hleft
    rw [← hspell, List.all_map] at hright
    exact forall_lexemesOfAll hS ds hvalid hright

theorem forall_lexemesOfAll (hS : ∀ q ∈ Production.all, S q.left = true → q.right.all S = true) :
    ∀ ds : List Derivation, AllValid ds → ds.all (S ∘ symbol) = true →
      ∀ x ∈ lexemesOfAll ds, S x.terminal = true
  | [], _, _ => nofun
  | d :: ds, ⟨hd, hds⟩, h => by
    obtain ⟨hfirst, hrest⟩ := Bool.and_eq_true_iff.mp h
    exact List.forall_mem_append.mpr
      ⟨forall_lexemes hS d hd hfirst, forall_lexemesOfAll hS ds hds hrest⟩

end

mutual

/-- If such symbols start with such a part, then their first lexeme is of such a terminal. -/
theorem head_lexemes
    (hS : ∀ q ∈ Production.all, S q.left = true → q.right.head?.any S = true) :
    ∀ d : Derivation, d.Valid → S d.symbol = true →
      d.lexemes.head?.any (fun x => S x.terminal) = true
  | leaf _, _, hx => hx
  | node q ds, ⟨hq, hspell, hvalid⟩, hleft => by
    have hright := hS q hq hleft
    rw [← hspell, List.head?_map, Option.any_map] at hright
    exact head_lexemesOfAll hS ds hvalid hright

theorem head_lexemesOfAll
    (hS : ∀ q ∈ Production.all, S q.left = true → q.right.head?.any S = true) :
    ∀ ds : List Derivation, AllValid ds → ds.head?.any (S ∘ symbol) = true →
      (lexemesOfAll ds).head?.any (fun x => S x.terminal) = true
  | [], _, h => h
  | d :: ds, ⟨hd, _⟩, h => by
    have hfirst := head_lexemes hS d hd h
    obtain ⟨x, hx, hSx⟩ := (Option.any_eq_true _ _).mp hfirst
    rw [lexemesOfAll, List.head?_append, hx]
    exact hSx

end

end

/-! ## Statements -/

def isListing : Phrase → Bool
  | .start | .list | .item => true
  | _ => false

mutual

def statements : Derivation → List Derivation
  | leaf _ => []
  | node q ds => if isListing q.left then statementsOf ds else [node q ds]

def statementsOf : List Derivation → List Derivation
  | [] => []
  | d :: ds => statements d ++ statementsOf ds

end

def isStatement : Phrase → Bool
  | .rule | .term | .ignore | .imports | .declare | .override | .extend | .comment => true
  | _ => false

def isListed : Symbol → Bool
  | .terminal t => t == .newline
  | .phrase p => p == .list || p == .item || isStatement p

theorem isListed_right : ∀ q ∈ Production.all,
    isListing q.left = true → q.right.all isListed = true := by
  decide

theorem isSpliced_of_isListed {p : Phrase} (h : isListed p = true) (hp : isListing p = true) :
    p.isSpliced = true := by
  cases p <;> revert h hp <;> decide

theorem isStatement_of_isListed {p : Phrase} (h : isListed p = true) (hp : isListing p = false) :
    isStatement p = true ∧ isWhole p = true := by
  cases p <;> revert h hp <;> decide

/-- A node is built from a statement of well-spelled lexemes. -/
structure Makes (d : Derivation) (n : Node) : Prop where
  statement : ∃ p, d.symbol = .phrase p ∧ isStatement p = true
  valid : d.Valid
  spelled : ∀ x ∈ d.lexemes, x.IsSpelled
  builds : ∃ e, d.Builds e [n]

theorem exists_eq_singleton_of_builds {d : Derivation} {p : Phrase} (hp : d.symbol = .phrase p)
    (hwhole : isWhole p = true) {e : Option Extent} {ns : List Node} (h : d.Builds e ns) :
    ∃ n, ns = [n] := by
  have hlength := Node.length_of_buildAll h
  rw [List.length_map, length_nodes (by rwa [hp]), hp] at hlength
  exact List.length_eq_one_iff.mp hlength

mutual

theorem forall₂_makes : ∀ d : Derivation, d.Valid → (∀ x ∈ d.lexemes, x.IsSpelled) →
    isListed d.symbol = true → ∀ {e : Option Extent} {ns : List Node}, d.Builds e ns →
      List.Forall₂ Makes d.statements ns
  | leaf x, _, _, hlisted, e, ns, h => by
    have hnewline : x.terminal = .newline := by simpa [symbol, isListed] using hlisted
    rw [builds_leaf.mp h, hnewline]
    exact .nil
  | node q ds, hvalid, hspelled, hlisted, e, ns, h => by
    rw [statements]
    split
    case isTrue hlisting =>
      have hright := isListed_right q hvalid.1 hlisting
      rw [← hvalid.2.1, List.all_map] at hright
      exact forall₂_makes_all ds hvalid.2.2 hspelled hright
        ((builds_spliced (isSpliced_of_isListed hlisted hlisting)).mp h)
    case isFalse hlisting =>
      obtain ⟨hstatement, hwhole⟩ :=
        isStatement_of_isListed hlisted (Bool.eq_false_iff.mpr hlisting)
      obtain ⟨n, rfl⟩ := exists_eq_singleton_of_builds rfl hwhole h
      exact .cons ⟨⟨_, rfl, hstatement⟩, hvalid, hspelled, e, h⟩ .nil

theorem forall₂_makes_all : ∀ ds : List Derivation, AllValid ds →
    (∀ x ∈ lexemesOfAll ds, x.IsSpelled) → ds.all (isListed ∘ symbol) = true →
    ∀ {e : Option Extent} {ns : List Node}, BuildsAll e ds ns →
      List.Forall₂ Makes (statementsOf ds) ns
  | [], _, _, _, e, ns, h => by
    rw [show ns = [] from h]
    exact .nil
  | d :: ds, ⟨hd, hds⟩, hspelled, hlisted, e, ns, h => by
    obtain ⟨ms, rest, hms, hrest, rfl⟩ := h
    obtain ⟨hfirst, hothers⟩ := Bool.and_eq_true_iff.mp hlisted
    obtain ⟨hx, hxs⟩ := List.forall_mem_append.mp hspelled
    exact List.rel_append (forall₂_makes d hd hx hfirst hms)
      (forall₂_makes_all ds hds hxs hothers hrest)

end

def inLines (xs : List Lexeme) : List Lexeme := xs.filter (·.terminal != .newline)

theorem inLines_cons {x : Lexeme} (hx : x.terminal ≠ .newline) (xs : List Lexeme) :
    inLines (x :: xs) = x :: inLines xs :=
  List.filter_cons_of_pos (by simpa using hx)

theorem inLines_eq_self {xs : List Lexeme} (h : ∀ x ∈ xs, x.terminal ≠ .newline) :
    inLines xs = xs :=
  List.filter_eq_self.mpr (by simpa using h)

mutual

theorem inLines_lexemes : ∀ d : Derivation, d.Valid → isListed d.symbol = true →
    inLines d.lexemes = d.statements.flatMap fun p => inLines p.lexemes
  | leaf x, _, hlisted => by
    have hnewline : x.terminal = .newline := by simpa [symbol, isListed] using hlisted
    simp [lexemes, statements, inLines, hnewline]
  | node q ds, ⟨hq, hspell, hvalid⟩, _ => by
    rw [statements]
    split
    case isTrue hlisting =>
      have hright := isListed_right q hq hlisting
      rw [← hspell, List.all_map] at hright
      exact inLines_lexemesOfAll ds hvalid hright
    case isFalse => exact (List.append_nil _).symm

theorem inLines_lexemesOfAll : ∀ ds : List Derivation, AllValid ds →
    ds.all (isListed ∘ symbol) = true →
    inLines (lexemesOfAll ds) = (statementsOf ds).flatMap fun p => inLines p.lexemes
  | [], _, _ => rfl
  | d :: ds, ⟨hd, hds⟩, hlisted => by
    obtain ⟨hfirst, hothers⟩ := Bool.and_eq_true_iff.mp hlisted
    rw [lexemesOfAll, statementsOf, List.flatMap_append, ← inLines_lexemes d hd hfirst,
      ← inLines_lexemesOfAll ds hds hothers]
    exact List.filter_append _ _

end

theorem exists_leaf {d : Derivation} {t : Terminal} (h : d.symbol = .terminal t) :
    ∃ x, d = leaf x ∧ x.terminal = t := by
  cases d with
  | leaf x => exact ⟨x, rfl, Symbol.terminal.inj h⟩
  | node q ds => cases h

/-- A phrase has parts that one of its productions asks for. -/
theorem exists_parts {d : Derivation} (hvalid : d.Valid) {p : Phrase} (h : d.symbol = .phrase p) :
    ∃ r ds, d = node ⟨p, r⟩ ds ∧ r ∈ Typed.rightsOf p ∧ ds.map symbol = r ∧ AllValid ds := by
  cases d with
  | leaf x => cases h
  | node q ds =>
    obtain ⟨hq, hspell, hds⟩ := hvalid
    obtain rfl : q.left = p := Symbol.phrase.inj h
    exact ⟨q.right, ds, rfl, Typed.right_mem hq, hspell, hds⟩

section

variable {d : Derivation} (hvalid : d.Valid) (hstart : d.symbol = .phrase .start)

include hvalid hstart

/-- A file is a list of items. -/
theorem exists_list : ∃ r l, d = node ⟨.start, r⟩ [l] ∧ [l].map symbol = r ∧
    l.symbol = .phrase .list ∧ l.Valid := by
  obtain ⟨r, ds, rfl, hr, hspell, hds⟩ := exists_parts hvalid hstart
  obtain rfl : r = [.phrase .list] := List.mem_singleton.mp hr
  obtain ⟨l, rfl, hl⟩ := List.map_eq_singleton_iff.mp hspell
  exact ⟨_, l, rfl, hspell, hl, hds.1⟩

/-- The nodes of a file are built from its statements, one from each. -/
theorem forall₂_makes_statements (hspelled : ∀ x ∈ d.lexemes, x.IsSpelled) {file : Node}
    (h : d.tree.build = .ok file) : List.Forall₂ Makes d.statements file.statements := by
  have hbuilds := (build_tree_eq_ok hstart).mp h
  obtain ⟨r, l, rfl, hspell, hlist, hl⟩ := exists_list hvalid hstart
  obtain ⟨parts, n, ⟨ms, _, hms, rfl, rfl⟩, hn, hfile⟩ :=
    (builds_node hspell rfl (by rintro ⟨⟩) rfl).mp hbuilds
  obtain rfl := (List.cons.inj hfile).1
  have hlexemes : ∀ x ∈ l.lexemes, x.IsSpelled := fun x hx =>
    hspelled x (List.mem_append_left _ hx)
  have hsense := Typed.sense_of_builds l hl hlexemes none ms hms
  rw [hlist] at hsense
  obtain ⟨ss, rfl, _⟩ := hsense
  simp only [Node.Conversion.ofPhrase, Form.make, List.append_nil,
    Typed.filter_isPart_nodes] at hn
  cases hn
  have hmakes := forall₂_makes l hl hlexemes (by rw [hlist]; rfl) hms
  rw [statements, if_pos (by rfl), statementsOf, statementsOf, List.append_nil]
  exact hmakes

/-- What stands in the lines of a file stands in its statements. -/
theorem inLines_lexemes_statements :
    inLines d.lexemes = d.statements.flatMap fun p => inLines p.lexemes := by
  obtain ⟨r, l, rfl, _, hlist, hl⟩ := exists_list hvalid hstart
  rw [statements, if_pos (by rfl)]
  exact inLines_lexemesOfAll [l] ⟨hl, trivial⟩ (by simp [hlist, isListed])

end

end GrammarServer.Derivation
