import GrammarServer.Proofs.Parse.Items
import GrammarServer.Proofs.Parse.Patience
import Mathlib.Logic.Relation

/-!
# Every settled derivation is found

A derivation is settled before a terminal if none of its phrases that could go on with a name is
followed by one. The parser follows a settled derivation lexeme by lexeme: from a state that
expects the phrase at its top, it takes the lexemes, makes the reductions of the derivation in
order and ends with the derivation on its stack. Between two lexemes it makes a bounded number of
reductions, so its patience is never used up.
-/
namespace GrammarServer

open Automaton Parse

namespace Derivation

/-! ## Leading terminals -/

/-- The terminal with which derivations start, or the one that comes after them. -/
def leading (after : Terminal) (ds : List Derivation) : Terminal :=
  match lexemesOfAll ds with
  | [] => after
  | x :: _ => x.terminal

theorem startsAgree_empty {q : Production} (hq : q ∈ Production.all)
    (h : canBeEmpty q.right = true) : emptyPhrases.of q.left = true := by
  have hall := List.all_eq_true.mp startsAgree_eq_true q hq
  simp only [h, Bool.not_true, Bool.false_or, Bool.and_eq_true] at hall
  exact hall.1

theorem startsAgree_first {q : Production} (hq : q ∈ Production.all) {t : Terminal}
    (h : (firstOf q.right).holds t = true) : (firstOfPhrases.of q.left).holds t = true := by
  have hall := List.all_eq_true.mp startsAgree_eq_true q hq
  simp only [Bool.and_eq_true, beq_iff_eq] at hall
  rw [TerminalSet.holds, ← hall.2, Nat.testBit_and, Bool.and_eq_true] at h
  exact h.2

theorem holds_single (t : Terminal) : (TerminalSet.single t).holds t = true := by
  cases t <;> decide

/-- How a derivation of a symbol can start: with a terminal that can start it, or empty if the
symbol can be. -/
def StartsAs (known : List Lexeme) (symbols : List Symbol) : Prop :=
  match known with
  | [] => canBeEmpty symbols = true
  | x :: _ => (firstOf symbols).holds x.terminal = true

mutual

theorem startsAs_of_valid : ∀ d : Derivation, d.Valid → StartsAs d.lexemes [d.symbol]
  | .leaf x, _ => by
    simpa [StartsAs, lexemes, symbol, firstOf, firstIn] using holds_single x.terminal
  | .node q children, h => by
    have hall := startsAs_of_allValid children h.2.2
    rw [h.2.1] at hall
    simp only [lexemes, symbol]
    cases hlex : lexemesOfAll children with
    | nil =>
      rw [hlex] at hall
      simp only [StartsAs] at hall ⊢
      simpa [canBeEmpty, emptyIn] using startsAgree_empty h.1 hall
    | cons x rest =>
      rw [hlex] at hall
      simp only [StartsAs] at hall ⊢
      have hfirst := startsAgree_first h.1 hall
      simp only [firstOf, firstIn]
      split
      · rw [TerminalSet.holds, Nat.testBit_or, Bool.or_eq_true]
        exact Or.inl hfirst
      · exact hfirst

theorem startsAs_of_allValid : ∀ ds : List Derivation, AllValid ds →
    StartsAs (lexemesOfAll ds) (ds.map symbol)
  | [], _ => by simp [StartsAs, lexemesOfAll, canBeEmpty]
  | d :: rest, h => by
    have hd := startsAs_of_valid d h.1
    have hrest := startsAs_of_allValid rest h.2
    simp only [lexemesOfAll, List.map_cons]
    cases hlex : d.lexemes with
    | nil =>
      rw [hlex] at hd
      have hempty : emptyIn emptyPhrases d.symbol = true := by
        simpa [StartsAs, canBeEmpty] using hd
      rw [List.nil_append]
      cases hlex' : lexemesOfAll rest with
      | nil =>
        rw [hlex'] at hrest
        simp only [StartsAs, canBeEmpty, List.all_cons, Bool.and_eq_true] at hrest ⊢
        exact ⟨hempty, hrest⟩
      | cons x more =>
        rw [hlex'] at hrest
        simp only [StartsAs] at hrest ⊢
        cases hsymbol : d.symbol with
        | terminal t => simp [hsymbol, emptyIn] at hempty
        | phrase p =>
          simp only [hsymbol, emptyIn] at hempty
          rw [firstOf, firstIn, if_pos hempty, TerminalSet.holds, Nat.testBit_or, Bool.or_eq_true]
          exact Or.inr hrest
    | cons x more =>
      rw [hlex] at hd
      simp only [StartsAs, List.cons_append] at hd ⊢
      cases hsymbol : d.symbol with
      | terminal t => simpa [hsymbol, firstOf, firstIn] using hd
      | phrase p =>
        simp only [hsymbol, firstOf, firstIn] at hd ⊢
        split
        · rename_i hp
          rw [if_pos hp] at hd
          rw [TerminalSet.holds, Nat.testBit_or, Bool.or_eq_true] at hd ⊢
          exact hd.imp_right fun h0 => by simp at h0
        · rename_i hp
          rwa [if_neg hp] at hd

end

/-- What leads after some derivations can start their symbols, or comes after them. -/
theorem leading_holds {ds : List Derivation} (h : AllValid ds) (t : Terminal) :
    (firstOf (ds.map symbol)).holds (leading t ds) = true ∨
      canBeEmpty (ds.map symbol) = true ∧ leading t ds = t := by
  have hstart := startsAs_of_allValid ds h
  unfold leading
  cases hlex : lexemesOfAll ds with
  | nil => rw [hlex] at hstart; exact Or.inr ⟨hstart, rfl⟩
  | cons x rest => rw [hlex] at hstart; exact Or.inl hstart

/-! ## Settled derivations -/

mutual

/-- No phrase that could go on with a name is followed by one, the derivation being followed by a
terminal. -/
def Settled (after : Terminal) : Derivation → Prop
  | leaf _ => True
  | node q children => goesOnWith q.left after = false ∧ AllSettled after children

def AllSettled (after : Terminal) : List Derivation → Prop
  | [] => True
  | d :: rest => Settled (leading after rest) d ∧ AllSettled after rest

end

/-! Both properties can be checked, for derivations that are written out. -/

mutual

def decidableValid : (d : Derivation) → Decidable d.Valid
  | .leaf _ => isTrue trivial
  | .node q ds =>
    have := decidableAllValid ds
    inferInstanceAs (Decidable (q ∈ Production.all ∧ ds.map symbol = q.right ∧ AllValid ds))

def decidableAllValid : (ds : List Derivation) → Decidable (AllValid ds)
  | [] => isTrue trivial
  | d :: ds =>
    have := decidableValid d
    have := decidableAllValid ds
    inferInstanceAs (Decidable (d.Valid ∧ AllValid ds))

end

instance (d : Derivation) : Decidable d.Valid := d.decidableValid

mutual

def decidableSettled (t : Terminal) : (d : Derivation) → Decidable (d.Settled t)
  | .leaf _ => isTrue trivial
  | .node q ds =>
    have := decidableAllSettled t ds
    inferInstanceAs (Decidable (goesOnWith q.left t = false ∧ AllSettled t ds))

def decidableAllSettled (t : Terminal) : (ds : List Derivation) → Decidable (AllSettled t ds)
  | [] => isTrue trivial
  | d :: ds =>
    have := decidableSettled (leading t ds) d
    have := decidableAllSettled t ds
    inferInstanceAs (Decidable (d.Settled (leading t ds) ∧ AllSettled t ds))

end

instance (t : Terminal) (d : Derivation) : Decidable (d.Settled t) := d.decidableSettled t

def ofParts (p : Phrase) (ds : List Derivation) : Derivation := .node ⟨p, ds.map symbol⟩ ds

def ofWord (t : Terminal) (m : Mark) (s : String) : Derivation :=
  .leaf ⟨t, s.toList, m, m.after s.toList⟩

def ofAtom (parts : List Derivation) : Derivation :=
  ofParts .expansion [ofParts .exprs [ofParts .exprs [], ofParts .expr [ofParts .atom parts]]]

/-- An expansion of one word, which is a value of some sort. -/
def ofValue (p : Phrase) (t : Terminal) (m : Mark) (s : String) : Derivation :=
  ofAtom [ofParts .value [ofParts p [ofWord t m s]]]

def ofAlternative (parts : List Derivation) : Derivation :=
  ofParts .expansions [ofParts .alternatives [ofParts .aliasing parts]]

def ofNamed (expansion : Derivation) (arrow m : Mark) (s : String) : Derivation :=
  ofAlternative [expansion, ofWord .arrow arrow "->", ofParts .nonterminal [ofWord .ruleName m s]]

def ofParameter (left m : Mark) (s : String) (right : Mark) : List Derivation :=
  [ofWord .leftBrace left "\x7b", ofParts .templateParamNames [ofWord .ruleName m s],
    ofWord .rightBrace right "\x7d"]

def ofRule (m : Mark) (s : String) (parameters priority : List Derivation) (colon : Mark)
    (body : Derivation) : Derivation :=
  ofParts .rule [ofParts .ruleModifiers [], ofWord .ruleName m s,
    ofParts .templateParams parameters, ofParts .priority priority, ofWord .colon colon ":", body]

/-- A file, from its statements, line breaks and comments. -/
def ofItems (first : Derivation) (rest : List Derivation) : Derivation :=
  ofParts .start [rest.foldl (fun l d => ofParts .list [l, ofParts .item [d]])
    (ofParts .list [ofParts .item [first]])]

end Derivation

namespace Parse

/-! ## Steps of the parser -/

/-- A parser at work: the reductions since the last lexeme, the stack and the lexemes to come. -/
structure Config where
  delay : Nat
  stack : Stack
  rest : List Lexeme

inductive Step : Config → Config → Prop
  | shift {k n : Nat} {s : Stack} {x : Lexeme} {rest : List Lexeme}
      (hk : k ≤ Derivation.delayLimit)
      (haction : s.actions.lookup x.terminal = some (.shift n)) :
      Step ⟨k, s, x :: rest⟩ ⟨0, (n, .leaf x) :: s, rest⟩
  | reduce {k : Nat} {s s' : Stack} {x : Lexeme} {rest : List Lexeme} {q : Production}
      (hk : k < Derivation.delayLimit)
      (haction : s.actions.lookup x.terminal = some (.reduce q)) (hs : s.reduce q = some s') :
      Step ⟨k, s, x :: rest⟩ ⟨k + 1, s', x :: rest⟩

abbrev Steps : Config → Config → Prop := Relation.ReflTransGen Step

namespace Stack

theorem shift_of_holds {s : Stack} {m : Marked} {t u : Terminal} {rest : List Symbol}
    (h : Holds s.state m t) (hm : m.rest = .terminal u :: rest) :
    ∃ n, s.actions.lookup u = some (.shift n) ∧ Holds n m.next t := by
  obtain ⟨state, n, hstate, haction, hnext⟩ := h.shift hm
  exact ⟨n, by rw [actions, hstate]; exact haction, hnext⟩

theorem goto_of_holds {s : Stack} {m : Marked} {t : Terminal} {p : Phrase} {rest : List Symbol}
    (h : Holds s.state m t) (hm : m.rest = .phrase p :: rest) :
    ∃ n, s.goto p = some n ∧ Holds n m.next t := by
  obtain ⟨state, n, hstate, hgoto, hnext⟩ := h.goto hm
  exact ⟨n, by rw [goto, hstate]; exact hgoto, hnext⟩

theorem reduce_of_holds {s : Stack} {m : Marked} {t : Terminal} {q : Production}
    (h : Holds s.state m t) (hm : m.rest = []) (hq : Production.all[m.number]? = some q)
    (ht : goesOnWith q.left t = false) : s.actions.lookup t = some (.reduce q) := by
  obtain ⟨state, hstate, haction⟩ := h.reduce hm hq ht
  rw [actions, hstate]
  exact haction

/-- Derivations on top of a stack that spell the right side of a production are replaced by one of
its left side. -/
theorem reduce_append {top below : Stack} {q : Production} {children : List Derivation} {n : Nat}
    (htop : top.map (·.2) = children.reverse) (hspell : children.map Derivation.symbol = q.right)
    (hgoto : below.goto q.left = some n) :
    reduce (top ++ below) q = some ((n, .node q children) :: below) := by
  have hlength : top.length = q.right.length := by
    have h := congrArg List.length htop
    simp only [List.length_map, List.length_reverse] at h
    rw [h, ← hspell, List.length_map]
  have htake : (top ++ below).take q.right.length = top := List.take_left' hlength
  have hdrop : (top ++ below).drop q.right.length = below := List.drop_left' hlength
  simp only [reduce, htake, hdrop, htop, List.reverse_reverse, hspell, if_true, hgoto,
    Option.map_some]

end Stack

theorem leading_append (ds : List Derivation) (y : Lexeme) (rest : List Lexeme) :
    ∃ y' rest', Derivation.lexemesOfAll ds ++ y :: rest = y' :: rest' ∧
      y'.terminal = Derivation.leading y.terminal ds := by
  unfold Derivation.leading
  cases h : Derivation.lexemesOfAll ds with
  | nil => exact ⟨y, rest, rfl, rfl⟩
  | cons x more => exact ⟨x, more ++ y :: rest, rfl, rfl⟩

open GrammarServer.Derivation in
mutual

/-- From a state that expects its phrase, the parser reads a settled derivation. -/
theorem steps_derivation : ∀ (d : Derivation) (rest : List Lexeme) {k : Nat} {s : Stack}
    {m : Marked} {t : Terminal} {more : List Symbol} {y : Lexeme}, d.Valid →
    m.rest = d.symbol :: more → Holds s.state m t → d.Settled y.terminal → d.Prompt k →
    (firstOf more).holds y.terminal = true ∨ canBeEmpty more = true ∧ y.terminal = t →
    ∃ n, Steps ⟨k, s, d.lexemes ++ y :: rest⟩ ⟨d.delay k, (n, d) :: s, y :: rest⟩ ∧
      Holds n m.next t
  | .leaf x, rest, k, s, m, t, more, y, _, hm, hholds, _, hk, _ => by
    obtain ⟨n, haction, hnext⟩ := Stack.shift_of_holds hholds hm
    exact ⟨n, .single (.shift hk haction), hnext⟩
  | .node q children, rest, k, s, m, t, more, y, hvalid, hm, hholds, hsettled, hk, hy => by
    obtain ⟨hq, hspell, hchildren⟩ := hvalid
    obtain ⟨i, hi⟩ := List.mem_iff_getElem?.mp hq
    have hbegin : Holds s.state ⟨i, 0, q.right⟩ y.terminal := hholds.begin hm hi rfl hy
    obtain ⟨top, htop, hsteps, hend⟩ :=
      steps_all children rest hchildren hspell.symm hbegin hsettled.2 hk.1
    have haction := Stack.reduce_of_holds hend rfl hi hsettled.1
    obtain ⟨n, hgoto, hnext⟩ := Stack.goto_of_holds hholds hm
    exact ⟨n, hsteps.tail (.reduce hk.2 haction (Stack.reduce_append htop hspell hgoto)), hnext⟩

/-- From a state that expects their symbols and nothing else, the parser reads settled
derivations one after another. -/
theorem steps_all : ∀ (ds : List Derivation) (rest : List Lexeme) {k : Nat} {s : Stack}
    {m : Marked} {y : Lexeme}, AllValid ds → m.rest = ds.map symbol →
    Holds s.state m y.terminal → AllSettled y.terminal ds → AllPrompt ds k →
    ∃ top : Stack, top.map (·.2) = ds.reverse ∧
      Steps ⟨k, s, lexemesOfAll ds ++ y :: rest⟩ ⟨delayOfAll ds k, top ++ s, y :: rest⟩ ∧
      Holds (Stack.state (top ++ s)) ⟨m.number, m.passed + ds.length, []⟩ y.terminal
  | [], rest, k, s, m, y, _, hm, hholds, _, _ => by
    refine ⟨[], rfl, .refl, ?_⟩
    obtain ⟨number, passed, remaining⟩ := m
    cases hm
    exact hholds
  | d :: ds, rest, k, s, m, y, hvalid, hm, hholds, hsettled, hk => by
    obtain ⟨y', rest', hsplit, hy'⟩ := leading_append ds y rest
    have hfollow := leading_holds hvalid.2 y.terminal
    rw [← hy'] at hfollow
    obtain ⟨n, hfirst, hnext⟩ :=
      steps_derivation d rest' hvalid.1 hm hholds (by rw [hy']; exact hsettled.1) hk.1
        hfollow
    have hmore : m.next.rest = ds.map symbol := by
      rw [Marked.next, hm]
      rfl
    obtain ⟨top, htop, hothers, hend⟩ :=
      steps_all ds rest (s := (n, d) :: s) hvalid.2 hmore hnext hsettled.2 hk.2
    refine ⟨top ++ [(n, d)], by simp [htop], ?_, ?_⟩
    · rw [← hsplit] at hfirst
      simp only [lexemesOfAll, List.append_assoc, List.singleton_append, delayOfAll]
      exact hfirst.trans hothers
    · have hcount : m.next.passed + ds.length = m.passed + (d :: ds).length := by
        simp only [Marked.next, List.length_cons]
        omega
      rw [hcount] at hend
      rw [List.append_assoc, List.singleton_append]
      exact hend

end

/-! ## Steps and the parser itself -/

def Response.accepted? : Response → Option Derivation
  | accepted d => some d
  | _ => none

def Response.shifted? : Response → Option Stack
  | shifted s => some s
  | _ => none

/-- The derivation accepted before the last of some lexemes, if all others are taken; the first
one is given as many reductions as `fuel`. -/
def answer (fuel : Nat) (s : Stack) : List Lexeme → Option Derivation
  | [] => none
  | [x] => (feedWithin x fuel s).accepted?
  | x :: rest => (feedWithin x fuel s).shifted?.bind fun s => answer s.patience s rest

theorem delayLimit_lt_patience (s : Stack) : Derivation.delayLimit < s.patience := by
  simp only [Derivation.delayLimit, Stack.patience]
  omega

theorem feedWithin_shift {x : Lexeme} {s : Stack} {n fuel : Nat}
    (h : s.actions.lookup x.terminal = some (.shift n)) :
    feedWithin x (fuel + 1) s = .shifted ((n, .leaf x) :: s) := by
  rw [feedWithin, h, act]

theorem feedWithin_reduce {x : Lexeme} {s s' : Stack} {q : Production} {fuel : Nat}
    (h : s.actions.lookup x.terminal = some (.reduce q)) (hs : s.reduce q = some s') :
    feedWithin x (fuel + 1) s = feedWithin x fuel s' := by
  rw [feedWithin, h, act, hs]

theorem answer_reduce {x : Lexeme} {s s' : Stack} {q : Production} {fuel : Nat}
    {rest : List Lexeme} (h : s.actions.lookup x.terminal = some (.reduce q))
    (hs : s.reduce q = some s') :
    answer (fuel + 1) s (x :: rest) = answer fuel s' (x :: rest) := by
  cases rest with
  | nil => rw [answer, answer, feedWithin_reduce h hs]
  | cons y rest => rw [answer, answer, feedWithin_reduce h hs] <;> simp

/-- Steps up to acceptance are those of the parser, whose patience outlasts them. -/
theorem answer_of_steps {c : Config} {k n fuel : Nat} {d : Derivation} {e : Lexeme}
    (h : Steps c ⟨k, [(n, d)], [e]⟩) (hk : k ≤ Derivation.delayLimit)
    (haccept : (Stack.actions [(n, d)]).lookup e.terminal = some .accept)
    (hfuel : Derivation.delayLimit < fuel + c.delay) : answer fuel c.stack c.rest = some d := by
  induction h using Relation.ReflTransGen.head_induction_on generalizing fuel with
  | refl =>
    obtain ⟨fuel, rfl⟩ : ∃ f, fuel = f + 1 := ⟨fuel - 1, by simp only at hfuel; omega⟩
    rw [answer, feedWithin, haccept, act, Response.accepted?]
  | head hstep hsteps ih =>
    cases hstep with
    | @shift k n' s x rest hk' haction =>
      obtain ⟨fuel, rfl⟩ : ∃ f, fuel = f + 1 := ⟨fuel - 1, by simp only at hfuel; omega⟩
      have hrest := ih (Nat.lt_add_right _ (delayLimit_lt_patience ((n', .leaf x) :: s)))
      cases rest with
      | nil => simp [answer] at hrest
      | cons y rest =>
        rw [answer, feedWithin_shift haction, Response.shifted?, Option.bind_some]
        · exact hrest
        · simp
    | reduce hk' haction hs =>
      obtain ⟨fuel, rfl⟩ : ∃ f, fuel = f + 1 := ⟨fuel - 1, by simp only at hfuel; omega⟩
      rw [answer_reduce haction hs]
      exact ih (by simp only at hfuel ⊢; omega)

theorem Response.eq_accepted {r : Response} {d : Derivation} (h : r.accepted? = some d) :
    r = .accepted d := by
  cases r with
  | accepted d' => rw [Option.some.inj h]
  | shifted s => cases h
  | refused s => cases h

theorem Response.eq_shifted {r : Response} {s : Stack} (h : r.shifted? = some s) :
    r = .shifted s := by
  cases r with
  | shifted s' => rw [Option.some.inj h]
  | accepted d => cases h
  | refused s' => cases h

def latestOf (latest : Option Lexeme) : List Lexeme → Option Lexeme
  | [] => latest
  | x :: rest => latestOf (some x) rest

theorem runPieces_of_answer (source : List Char) {d : Derivation} (ls : List Lexeme) :
    ∀ (s : Stack) (previous latest : Option Lexeme),
      answer s.patience s (ls ++ [endLexeme (latestOf latest ls)]) = some d →
      runPieces source (ls.map Piece.lexeme) s previous latest = ⟨[], .ok d⟩ := by
  induction ls with
  | nil =>
    intro s previous latest h
    rw [latestOf, List.nil_append, answer] at h
    rw [List.map_nil, runPieces, finish, feed, Response.eq_accepted h, conclude]
  | cons x ls ih =>
    intro s previous latest h
    obtain ⟨y, more, hmore⟩ : ∃ y more, ls ++ [endLexeme (latestOf (some x) ls)] = y :: more := by
      cases ls with
      | nil => exact ⟨_, _, rfl⟩
      | cons y more => exact ⟨_, _, rfl⟩
    rw [latestOf, List.cons_append, hmore, answer, Option.bind_eq_some_iff] at h
    · obtain ⟨s', hs', hrest⟩ := h
      rw [← hmore] at hrest
      rw [List.map_cons, runPieces, feed, Response.eq_shifted hs', proceed]
      exact ih s' (some x) (some x) hrest
    · simp

/-- From the lexemes of a settled derivation of a whole file the parser finds the derivation. -/
theorem runPieces_of_settled (source : List Char) {d : Derivation} (hvalid : d.Valid)
    (hstart : d.symbol = .phrase .start) (hsettled : d.Settled .endOfInput) :
    runPieces source (d.lexemes.map .lexeme) [] none none = ⟨[], .ok d⟩ := by
  let e := endLexeme (latestOf none d.lexemes)
  have hwhole : Marked.whole.rest = d.symbol :: [] := by rw [hstart]; rfl
  obtain ⟨n, hsteps, hend⟩ := steps_derivation d [] (s := []) (y := e) hvalid hwhole
    holds_whole hsettled (Derivation.prompt_of_valid hvalid) (Or.inr ⟨rfl, rfl⟩)
  obtain ⟨state, hstate, haccept⟩ := hend.accept rfl rfl
  have hactions : (Stack.actions [(n, d)]).lookup e.terminal = some .accept := by
    rw [Stack.actions, Stack.state, hstate]
    exact haccept
  have hanswer := answer_of_steps hsteps (Derivation.delay_le_delayLimit hvalid) hactions
    (Nat.lt_add_right _ (delayLimit_lt_patience []))
  exact runPieces_of_answer source d.lexemes [] none none hanswer

theorem recovering_of_settled {source : String} {d : Derivation} (hvalid : d.Valid)
    (hstart : d.symbol = .phrase .start) (hsettled : d.Settled .endOfInput)
    (hpieces : (Piece.ofSource source).filter Piece.isSignificant = d.lexemes.map .lexeme) :
    recovering source = ⟨[], .ok d⟩ := by
  rw [recovering, hpieces, runPieces_of_settled source.toList hvalid hstart hsettled]

theorem strict_of_settled {source : String} {d : Derivation} (hvalid : d.Valid)
    (hstart : d.symbol = .phrase .start) (hsettled : d.Settled .endOfInput)
    (hpieces : (Piece.ofSource source).filter Piece.isSignificant = d.lexemes.map .lexeme) :
    strict source = .ok d := by
  rw [strict, recovering_of_settled hvalid hstart hsettled hpieces, Outcome.first]

end Parse

end GrammarServer
