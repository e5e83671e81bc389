import GrammarServer.Proofs.Node.Shape
import Mathlib.Data.List.Chain

/-!
# Statements kept apart

A name after a statement may go on with it or start the next one, and the parser always lets it go
on. So it finds every derivation in which line breaks keep the statements apart. Whether they do
can be told from the lexemes: each statement has just one lexeme that marks it and none that breaks
a line. Hence lexemes that have such a derivation have no other.
-/
namespace GrammarServer

open Automaton

namespace Derivation

/-! ## Items of a file -/

mutual

def items : Derivation → List Derivation
  | .leaf _ => []
  | .node q ds => if q.left = .item then [.node q ds] else itemsOfAll ds

def itemsOfAll : List Derivation → List Derivation
  | [] => []
  | d :: ds => items d ++ itemsOfAll ds

end

def isBreak : Derivation → Bool
  | .leaf _ => false
  | .node q _ => q.right == [.terminal .newline]

/-- Of two items, one after the other, at most one is a statement. So between two consecutive
statements of a file there is a line break. -/
def Apart (d : Derivation) : Prop :=
  d.items.IsChain fun i j => i.isBreak = true ∨ j.isBreak = true

def statementPhrases : List Phrase :=
  [.rule, .term, .ignore, .imports, .declare, .override, .extend, .comment]

theorem right_of_item : ∀ q ∈ Production.all, q.left = .item →
    q.right = [.terminal .newline] ∨ ∃ p ∈ statementPhrases, q.right = [.phrase p] := by
  decide +kernel

theorem right_of_list : ∀ q ∈ Production.all, q.left = .list →
    q.right = [.phrase .item] ∨ q.right = [.phrase .list, .phrase .item] := by
  decide +kernel

theorem right_of_start : ∀ q ∈ Production.all, q.left = .start →
    q.right = [.phrase .list] := by
  decide +kernel

/-- An item is a line break or a statement. -/
theorem item_cases {i : Derivation} (hvalid : i.Valid) (hi : i.symbol = .phrase .item) :
    (∃ q x, i = .node q [.leaf x] ∧ x.terminal = .newline ∧ i.isBreak = true) ∨
      ∃ q s p, i = .node q [s] ∧ s.Valid ∧ s.symbol = .phrase p ∧ p ∈ statementPhrases ∧
        i.isBreak = false := by
  cases i with
  | leaf x => cases hi
  | node q ds =>
    obtain ⟨hq, hspell, hds⟩ := hvalid
    have hleft : q.left = .item := Symbol.phrase.inj hi
    rcases right_of_item q hq hleft with hright | ⟨p, hp, hright⟩
    · left
      rw [hright] at hspell
      obtain ⟨s, rfl, hs⟩ := List.map_eq_singleton_iff.mp hspell
      cases s with
      | leaf x => exact ⟨q, x, rfl, Symbol.terminal.inj hs, by rw [isBreak, hright]; rfl⟩
      | node q' ds' => cases hs
    · right
      rw [hright] at hspell
      obtain ⟨s, rfl, hs⟩ := List.map_eq_singleton_iff.mp hspell
      exact ⟨q, s, p, rfl, hds.1, hs, hp, by rw [isBreak, hright]; rfl⟩

/-- Induction along the items of a file. -/
@[elab_as_elim]
theorem list_induction {P : Derivation → Prop}
    (one : ∀ q i, q.left = .list → i.Valid → i.symbol = .phrase .item → P (.node q [i]))
    (more : ∀ q l i, q.left = .list → i.Valid → i.symbol = .phrase .item → P l →
      P (.node q [l, i])) :
    ∀ l : Derivation, l.Valid → l.symbol = .phrase .list → P l
  | .leaf _, _, hl => nomatch hl
  | .node _ [], ⟨hq, hspell, _⟩, hl => by
    rcases right_of_list _ hq (Symbol.phrase.inj hl) with h | h <;> simp [h] at hspell
  | .node q [i], ⟨hq, hspell, hi, _⟩, hl => by
    have hleft : q.left = .list := Symbol.phrase.inj hl
    rcases right_of_list q hq hleft with h | h
    · rw [h] at hspell
      exact one q i hleft hi (List.cons.inj hspell).1
    · simp [h] at hspell
  | .node q [l, i], ⟨hq, hspell, hl', hi, _⟩, hl => by
    have hleft : q.left = .list := Symbol.phrase.inj hl
    rcases right_of_list q hq hleft with h | h
    · simp [h] at hspell
    · rw [h] at hspell
      obtain ⟨hlist, hspell⟩ := List.cons.inj hspell
      exact more q l i hleft hi (List.cons.inj hspell).1 (list_induction one more l hl' hlist)
  | .node _ (_ :: _ :: _ :: _), ⟨hq, hspell, _⟩, hl => by
    rcases right_of_list _ hq (Symbol.phrase.inj hl) with h | h <;> simp [h] at hspell

theorem items_item {i : Derivation} (h : i.symbol = .phrase .item) : i.items = [i] := by
  cases i with
  | leaf x => cases h
  | node q ds => rw [items, if_pos (Symbol.phrase.inj h)]

theorem items_one {q : Production} {i : Derivation} (hq : q.left = .list)
    (hi : i.symbol = .phrase .item) : (node q [i]).items = [i] := by
  rw [items, if_neg (by rw [hq]; decide), itemsOfAll, itemsOfAll, items_item hi]
  rfl

theorem items_more {q : Production} {l i : Derivation} (hq : q.left = .list)
    (hi : i.symbol = .phrase .item) : (node q [l, i]).items = l.items ++ [i] := by
  rw [items, if_neg (by rw [hq]; decide), itemsOfAll, itemsOfAll, itemsOfAll, items_item hi]
  rfl

/-- The items of a file are valid, and together they cover it. -/
theorem items_of_list {l : Derivation} (hvalid : l.Valid) (hl : l.symbol = .phrase .list) :
    (∀ i ∈ l.items, i.Valid ∧ i.symbol = .phrase .item) ∧
      l.lexemes = l.items.flatMap lexemes := by
  refine list_induction ?_ ?_ l hvalid hl
  · intro q i hq hvalid hi
    rw [items_one hq hi]
    simp [hvalid, hi, lexemes, lexemesOfAll]
  · rintro q l i hq hvalid hi ⟨hitems, hlexemes⟩
    rw [items_more hq hi]
    refine ⟨?_, ?_⟩
    · intro j hj
      rcases List.mem_append.mp hj with hj | hj
      · exact hitems j hj
      · exact List.mem_singleton.mp hj ▸ ⟨hvalid, hi⟩
    · simp [lexemes, lexemesOfAll, hlexemes]

theorem start_cases {d : Derivation} (hvalid : d.Valid) (hstart : d.symbol = .phrase .start) :
    ∃ q l, d = .node q [l] ∧ q.left = .start ∧ l.Valid ∧ l.symbol = .phrase .list := by
  cases d with
  | leaf x => cases hstart
  | node q ds =>
    obtain ⟨hq, hspell, hds⟩ := hvalid
    have hleft : q.left = .start := Symbol.phrase.inj hstart
    rw [right_of_start q hq hleft] at hspell
    obtain ⟨l, rfl, hl⟩ := List.map_eq_singleton_iff.mp hspell
    exact ⟨q, l, rfl, hleft, hds.1, hl⟩

theorem items_start {q : Production} {l : Derivation} (hq : q.left = .start) :
    (node q [l]).items = l.items := by
  rw [items, if_neg (by rw [hq]; decide), itemsOfAll, itemsOfAll, List.append_nil]

/-! ## Derivations inside statements -/

def isInner : Symbol → Bool
  | .terminal t => t != .newline
  | .phrase p => p != .start && p != .list && p != .item

theorem isInner_of_mem : ∀ q ∈ Production.all, isInner (.phrase q.left) = true →
    ∀ x ∈ q.right, isInner x = true := by
  decide +kernel

theorem isInner_of_statement : ∀ p ∈ statementPhrases, isInner (.phrase p) = true := by
  decide

theorem isInner_children {q : Production} {ds : List Derivation} (hq : q ∈ Production.all)
    (hspell : ds.map symbol = q.right) (hinner : isInner (.phrase q.left) = true) :
    ∀ d ∈ ds, isInner d.symbol = true := by
  intro d hd
  apply isInner_of_mem q hq hinner
  rw [← hspell]
  exact List.mem_map_of_mem hd

/-! ## Apart means settled -/

def namesSymbol (t : Terminal) : Bool := t == .ruleName || t == .terminalName

def isOpenEnded : Symbol → Bool
  | .terminal _ => false
  | .phrase p => [.expansion, .aliasing, .alternatives, .expansions, .rule, .term, .override,
      .extend, .ignore, .declare].contains p

/-- An open-ended phrase stands at the end or before a terminal that is no name. -/
def isClosed (atEnd : Bool) : List Symbol → Bool
  | [] => true
  | [x] => !isOpenEnded x || atEnd
  | x :: .terminal t :: rest =>
    (!isOpenEnded x || !namesSymbol t) && isClosed atEnd (.terminal t :: rest)
  | x :: .phrase p :: rest => !isOpenEnded x && isClosed atEnd (.phrase p :: rest)

theorem isClosed_right : ∀ q ∈ Production.all, isInner (.phrase q.left) = true →
    isClosed (isOpenEnded (.phrase q.left)) q.right = true := by
  decide +kernel

theorem goesOnWith_of_not_isOpenEnded {p : Phrase} {t : Terminal}
    (h : isOpenEnded (.phrase p) = true → namesSymbol t = false) : goesOnWith p t = false := by
  by_cases hp : p = .expansion ∨ p = .declare
  · have hopen : isOpenEnded (.phrase p) = true := by rcases hp with rfl | rfl <;> rfl
    have ht : (t == .ruleName || t == .terminalName) = false := h hopen
    rw [goesOnWith, ht, Bool.and_false]
  · simp only [not_or] at hp
    simp [goesOnWith, hp.1, hp.2]

mutual

/-- A part of a statement is settled before whatever comes after it, unless it is open-ended and a
name comes. -/
theorem settled_of_isInner : ∀ (d : Derivation) (t : Terminal), d.Valid →
    isInner d.symbol = true → (isOpenEnded d.symbol = true → namesSymbol t = false) → d.Settled t
  | .leaf _, _, _, _, _ => trivial
  | .node q ds, t, ⟨hq, hspell, hds⟩, hinner, ht => by
    have hclosed := isClosed_right q hq hinner
    rw [← hspell] at hclosed
    exact ⟨goesOnWith_of_not_isOpenEnded ht,
      allSettled_of_isInner ds t hds (isInner_children hq hspell hinner) hclosed ht⟩

theorem allSettled_of_isInner : ∀ (ds : List Derivation) (t : Terminal) {atEnd : Bool},
    AllValid ds → (∀ d ∈ ds, isInner d.symbol = true) →
    isClosed atEnd (ds.map symbol) = true → (atEnd = true → namesSymbol t = false) → AllSettled t ds
  | [], _, _, _, _, _, _ => trivial
  | d :: ds, t, atEnd, ⟨hd, hds⟩, hinner, hclosed, ht => by
    have hinner' : ∀ d' ∈ ds, isInner d'.symbol = true :=
      fun d' hd' => hinner d' (List.mem_cons_of_mem d hd')
    have hsettled := settled_of_isInner d (leading t ds) hd (hinner d List.mem_cons_self)
    match ds, hclosed with
    | [], hclosed =>
      have hlast : (!isOpenEnded d.symbol || atEnd) = true := hclosed
      refine ⟨hsettled fun hopen => ?_, trivial⟩
      rw [hopen, Bool.not_true, Bool.false_or] at hlast
      exact ht hlast
    | .leaf x :: ds, hclosed =>
      obtain ⟨hnext, hrest⟩ := Bool.and_eq_true_iff.mp hclosed
      refine ⟨hsettled fun hopen => ?_, allSettled_of_isInner _ t hds hinner' hrest ht⟩
      rw [hopen, Bool.not_true, Bool.false_or, Bool.not_eq_true'] at hnext
      exact hnext
    | .node q ds' :: ds, hclosed =>
      obtain ⟨hnext, hrest⟩ := Bool.and_eq_true_iff.mp hclosed
      refine ⟨hsettled fun hopen => ?_, allSettled_of_isInner _ t hds hinner' hrest ht⟩
      rw [hopen] at hnext
      cases hnext

end

theorem settled_item {i : Derivation} {t : Terminal} (hvalid : i.Valid)
    (hi : i.symbol = .phrase .item) (h : namesSymbol t = false ∨ i.isBreak = true) :
    i.Settled t := by
  have hgoes : ∀ q ds, i = .node q ds → goesOnWith q.left t = false := by
    rintro q ds rfl
    rw [show q.left = .item from Symbol.phrase.inj hi]
    rfl
  rcases item_cases hvalid hi with ⟨q, x, rfl, _⟩ | ⟨q, s, p, rfl, hs, hp, hmem, hbreak⟩
  · exact ⟨hgoes q _ rfl, trivial, trivial⟩
  · have ht : namesSymbol t = false := by simpa [hbreak] using h
    have hinner : isInner s.symbol = true := hp ▸ isInner_of_statement p hmem
    exact ⟨hgoes q _ rfl, settled_of_isInner s t hs hinner fun _ => ht, trivial⟩

/-- Where items are kept apart, a name comes only after a line break. -/
theorem settled_list {l : Derivation} (hvalid : l.Valid) (hl : l.symbol = .phrase .list) :
    ∀ t : Terminal, l.items.IsChain (fun i j => i.isBreak = true ∨ j.isBreak = true) →
      (namesSymbol t = false ∨ ∀ i ∈ l.items.getLast?, i.isBreak = true) → l.Settled t := by
  refine list_induction ?_ ?_ l hvalid hl
  · intro q i hq hvalid hi t _ ht
    rw [items_one hq hi] at ht
    refine ⟨by rw [hq]; rfl, settled_item hvalid hi (ht.imp_right fun h => h i rfl), trivial⟩
  · intro q l i hq hvalid hi ih t hchain ht
    rw [items_more hq hi] at hchain ht
    rw [List.getLast?_append, List.getLast?_singleton, Option.some_or] at ht
    obtain ⟨hbefore, _, hstep⟩ := List.isChain_append.mp hchain
    refine ⟨by rw [hq]; rfl, ih _ hbefore ?_,
      settled_item hvalid hi (ht.imp_right fun h => h i rfl), trivial⟩
    rcases item_cases hvalid hi with ⟨q', x, rfl, hx, _⟩ | ⟨_, _, _, _, _, _, _, hbreak⟩
    · left
      show namesSymbol x.terminal = false
      rw [hx]
      rfl
    · right
      intro j hj
      have hor := hstep j hj i rfl
      rwa [hbreak, Bool.false_eq_true, or_false] at hor

theorem Apart.settled {d : Derivation} (h : d.Apart) (hvalid : d.Valid)
    (hstart : d.symbol = .phrase .start) : d.Settled .endOfInput := by
  obtain ⟨q, l, rfl, hq, hvalid, hl⟩ := start_cases hvalid hstart
  rw [Apart, items_start hq] at h
  exact ⟨by rw [hq]; rfl, settled_list hvalid hl .endOfInput h (Or.inl rfl), trivial⟩

/-! ## Apartness can be told from the lexemes -/

/-- Statements, and the terminal that each has exactly one of. -/
def isMark : Symbol → Bool
  | .terminal t => [.colon, .ignoreWord, .declareWord, .importWord, .comment].contains t
  | .phrase p => statementPhrases.contains p

/-- Whether lines are broken between any two marks, where a mark may have been seen before. -/
def isSpread (seen : Bool) : List Lexeme → Bool
  | [] => true
  | x :: xs =>
    if x.terminal = .newline then isSpread false xs
    else if isMark (.terminal x.terminal) then !seen && isSpread true xs
    else isSpread seen xs

theorem countP_isMark : ∀ q ∈ Production.all, isInner (.phrase q.left) = true →
    q.right.countP isMark = if isMark (.phrase q.left) then 1 else 0 := by
  decide +kernel

mutual

/-- A statement has one mark, and its parts have none; lines are broken in neither. -/
theorem marks_of_isInner : ∀ d : Derivation, d.Valid → isInner d.symbol = true →
    (∀ x ∈ d.lexemes, x.terminal ≠ .newline) ∧
      d.lexemes.countP (fun x => isMark (.terminal x.terminal)) =
        if isMark d.symbol then 1 else 0
  | .leaf x, _, hinner => by
    have hx : x.terminal ≠ .newline := by simpa [symbol, isInner] using hinner
    refine ⟨by simpa [lexemes] using hx, ?_⟩
    rw [lexemes, List.countP_singleton, symbol]
  | .node q ds, ⟨hq, hspell, hds⟩, hinner => by
    obtain ⟨hbreaks, hmarks⟩ := marks_of_all ds hds (isInner_children hq hspell hinner)
    rw [hspell, countP_isMark q hq hinner] at hmarks
    exact ⟨hbreaks, hmarks⟩

theorem marks_of_all : ∀ ds : List Derivation, AllValid ds →
    (∀ d ∈ ds, isInner d.symbol = true) →
    (∀ x ∈ lexemesOfAll ds, x.terminal ≠ .newline) ∧
      (lexemesOfAll ds).countP (fun x => isMark (.terminal x.terminal)) =
        (ds.map symbol).countP isMark
  | [], _, _ => ⟨nofun, rfl⟩
  | d :: ds, ⟨hd, hds⟩, hinner => by
    obtain ⟨hbreak, hmark⟩ := marks_of_isInner d hd (hinner d List.mem_cons_self)
    obtain ⟨hbreaks, hmarks⟩ := marks_of_all ds hds
      fun d' hd' => hinner d' (List.mem_cons_of_mem d hd')
    rw [lexemesOfAll, List.countP_append, hmark, hmarks, List.map_cons, List.countP_cons,
      Nat.add_comm]
    refine ⟨?_, rfl⟩
    intro x hx
    exact (List.mem_append.mp hx).elim (hbreak x) (hbreaks x)

end

theorem isSpread_append_of_unmarked {xs : List Lexeme} (rest : List Lexeme) (seen : Bool)
    (hbreak : ∀ x ∈ xs, x.terminal ≠ .newline)
    (hmark : xs.countP (fun x => isMark (.terminal x.terminal)) = 0) :
    isSpread seen (xs ++ rest) = isSpread seen rest := by
  induction xs with
  | nil => rfl
  | cons x xs ih =>
    rw [List.countP_eq_zero] at hmark ih
    rw [List.cons_append, isSpread, if_neg (hbreak x List.mem_cons_self),
      if_neg (hmark x List.mem_cons_self)]
    exact ih (fun y hy => hbreak y (List.mem_cons_of_mem x hy))
      fun y hy => hmark y (List.mem_cons_of_mem x hy)

theorem isSpread_append {xs : List Lexeme} (rest : List Lexeme) (seen : Bool)
    (hbreak : ∀ x ∈ xs, x.terminal ≠ .newline)
    (hmark : xs.countP (fun x => isMark (.terminal x.terminal)) = 1) :
    isSpread seen (xs ++ rest) = (!seen && isSpread true rest) := by
  induction xs with
  | nil => cases hmark
  | cons x xs ih =>
    have hbreak' : ∀ y ∈ xs, y.terminal ≠ .newline :=
      fun y hy => hbreak y (List.mem_cons_of_mem x hy)
    rw [List.cons_append, isSpread, if_neg (hbreak x List.mem_cons_self)]
    rw [List.countP_cons] at hmark
    by_cases hx : isMark (.terminal x.terminal) = true
    · rw [if_pos hx] at hmark
      rw [if_pos hx, isSpread_append_of_unmarked rest true hbreak' (by omega)]
    · rw [if_neg hx] at hmark
      rw [if_neg hx, ih hbreak' hmark]

theorem isSpread_flatMap_iff {is : List Derivation}
    (h : ∀ i ∈ is, i.Valid ∧ i.symbol = .phrase .item) : ∀ seen : Bool,
    isSpread seen (is.flatMap lexemes) = true ↔
      is.IsChain (fun i j => i.isBreak = true ∨ j.isBreak = true) ∧
        (seen = true → ∀ i ∈ is.head?, i.isBreak = true) := by
  induction is with
  | nil => simp [isSpread]
  | cons i is ih =>
    intro seen
    have ih := ih fun j hj => h j (List.mem_cons_of_mem i hj)
    obtain ⟨hvalid, hi⟩ := h i List.mem_cons_self
    rw [List.flatMap_cons, List.isChain_cons]
    rcases item_cases hvalid hi with ⟨q, x, rfl, hx, hbreak⟩ | ⟨q, s, p, rfl, hs, hp, hmem, hbreak⟩
    · have hlexemes : (node q [.leaf x]).lexemes ++ is.flatMap lexemes =
          x :: is.flatMap lexemes := rfl
      rw [hlexemes, isSpread, if_pos hx, ih false]
      simp [hbreak]
    · have hlexemes : (node q [s]).lexemes = s.lexemes := by
        simp [lexemes, lexemesOfAll]
      have hinner : isInner s.symbol = true := hp ▸ isInner_of_statement p hmem
      obtain ⟨hbreaks, hmarks⟩ := marks_of_isInner s hs hinner
      have hmark : isMark s.symbol = true := by
        rw [hp]
        exact List.elem_eq_true_of_mem hmem
      rw [if_pos hmark] at hmarks
      rw [hlexemes, isSpread_append _ seen hbreaks hmarks, Bool.and_eq_true, ih true]
      simp only [List.head?_cons, Option.mem_def, Option.some.injEq, hbreak, Bool.false_eq_true,
        false_or, forall_eq']
      grind

theorem apart_iff_isSpread {d : Derivation} (hvalid : d.Valid)
    (hstart : d.symbol = .phrase .start) : d.Apart ↔ isSpread false d.lexemes = true := by
  obtain ⟨q, l, rfl, hq, hvalid, hl⟩ := start_cases hvalid hstart
  obtain ⟨hitems, hlexemes⟩ := items_of_list hvalid hl
  have hcover : (node q [l]).lexemes = l.items.flatMap lexemes := by
    rw [lexemes, lexemesOfAll, lexemesOfAll, List.append_nil, hlexemes]
  rw [Apart, items_start hq, hcover, isSpread_flatMap_iff hitems]
  simp

end Derivation

/-- The parser finds every derivation of a file whose statements are kept apart by line breaks, and
there is no other one over the same lexemes. -/
theorem Parse.runPieces_of_apart {d : Derivation} (hvalid : d.Valid)
    (hstart : d.symbol = .phrase .start) (hapart : d.Apart) :
    (∀ source, runPieces source (d.lexemes.map .lexeme) [] none none = ⟨[], .ok d⟩) ∧
    (∀ source, Lexeme.scan false source = (d.lexemes, none) → strict source = .ok d) ∧
    d.Shape [d.tree] ∧
    ∀ d' : Derivation, d'.Valid → d'.symbol = .phrase .start → d'.lexemes = d.lexemes → d' = d := by
  have hfinds := fun source =>
    runPieces_of_settled source hvalid hstart (hapart.settled hvalid hstart)
  refine ⟨hfinds, ?_, Derivation.shape_tree hvalid hstart, ?_⟩
  · intro source hscan
    exact strict_of_settled hvalid hstart (hapart.settled hvalid hstart)
      (Lexeme.scan_eq_iff.mp hscan)
  · -- the other derivation is kept apart as well, so the parser finds it too
    intro d' hvalid' hstart' hlexemes
    have hapart' : d'.Apart := by
      rw [Derivation.apart_iff_isSpread hvalid' hstart', hlexemes]
      exact (Derivation.apart_iff_isSpread hvalid hstart).mp hapart
    have hfinds' := runPieces_of_settled [] hvalid' hstart' (hapart'.settled hvalid' hstart')
    rw [hlexemes, hfinds] at hfinds'
    exact (Except.ok.inj (Outcome.mk.inj hfinds').2).symm

open GrammarServer.Derivation in
/-- The derivation of a rule that ends with a name and, on the next line, a terminal whose name
could have gone on with it. -/
def twoLines : Derivation :=
  ofItems
    (ofRule ⟨0, 1, 1⟩ "a" [] [] ⟨1, 1, 2⟩
      (ofAlternative [ofValue .nonterminal .ruleName ⟨3, 1, 4⟩ "b"]))
    [ofWord .newline ⟨4, 1, 5⟩ "\n",
      ofParts .term [ofWord .terminalName ⟨5, 2, 1⟩ "C", ofWord .colon ⟨6, 2, 2⟩ ":",
        ofAlternative [ofValue .literal .string ⟨8, 2, 4⟩ "\"x\""]]]

theorem Parse.runPieces_of_apart_twoLines :
    twoLines.Valid ∧ twoLines.Apart ∧ strict "a: b\nC: \"x\"" = .ok twoLines := by
  have hvalid : twoLines.Valid := by decide
  have hapart : twoLines.Apart := (Derivation.apart_iff_isSpread hvalid rfl).mpr (by decide)
  have hscan : Lexeme.scan false "a: b\nC: \"x\"" = (twoLines.lexemes, none) :=
    Lexeme.scan_eq_iff.mpr (by decide +kernel)
  exact ⟨hvalid, hapart, (runPieces_of_apart hvalid rfl hapart).2.1 _ hscan⟩

end GrammarServer
