import GrammarServer.Proofs.Lexeme.Partition
import GrammarServer.Proofs.Node.Shape
import GrammarServer.Proofs.Parse.Order
import GrammarServer.Proofs.Parse.Paths

/-!
# Every piece is taken or reported

The parser makes one move after another, and each is forced: it reduces, takes the next lexeme, or
reports what it cannot go on with and passes over it. There is no bound on the reductions to begin
with, but on the stacks that it comes to there are only a few before a lexeme is taken. So it comes
to an end, and by then each piece of the source has been dealt with once, in its order.
-/
namespace GrammarServer

def Piece.significant (source : String) : List Piece :=
  (ofSource source).filter isSignificant

namespace Parse

open Automaton

/-! ## Moves -/

inductive Event
  | reduced (q : Production)
  | shifted (x : Lexeme)
  | dropped (x : Lexeme)
  | skipped (c : Char) (m : Mark)

namespace Event

def piece? : Event → Option Piece
  | reduced _ => none
  | shifted x | dropped x => some (.lexeme x)
  | skipped c m => some (.stray c m)

def taken? : Event → Option Lexeme
  | shifted x => some x
  | reduced _ | dropped _ | skipped .. => none

def reported? : Event → Option Piece
  | reduced _ | shifted _ => none
  | dropped x => some (.lexeme x)
  | skipped c m => some (.stray c m)

section

variable (q : Production) (x : Lexeme) (c : Char) (m : Mark) (es : List Event)

@[simp] theorem taken_reduced :
    (reduced q :: es).filterMap taken? = es.filterMap taken? := rfl

@[simp] theorem taken_shifted :
    (shifted x :: es).filterMap taken? = x :: es.filterMap taken? := rfl

@[simp] theorem taken_dropped :
    (dropped x :: es).filterMap taken? = es.filterMap taken? := rfl

@[simp] theorem taken_skipped :
    (skipped c m :: es).filterMap taken? = es.filterMap taken? := rfl

@[simp] theorem piece_reduced :
    (reduced q :: es).filterMap piece? = es.filterMap piece? := rfl

@[simp] theorem piece_shifted :
    (shifted x :: es).filterMap piece? = .lexeme x :: es.filterMap piece? := rfl

@[simp] theorem piece_dropped :
    (dropped x :: es).filterMap piece? = .lexeme x :: es.filterMap piece? := rfl

@[simp] theorem piece_skipped :
    (skipped c m :: es).filterMap piece? = .stray c m :: es.filterMap piece? := rfl

end

end Event

structure Work where
  stack : Stack
  rest : List Piece

/-- The terminal before which reductions are made. None are made before a stray character. -/
def upcoming : List Piece → Option Terminal
  | [] => some .endOfInput
  | .lexeme x :: _ => some x.terminal
  | .stray .. :: _ => none

inductive Move : Work → Event → Work → Prop
  | reduce {s s' : Stack} {rest : List Piece} {t : Terminal} {q : Production}
      (next : upcoming rest = some t) (action : s.actions.lookup t = some (.reduce q))
      (pop : s.pop q = some s') : Move ⟨s, rest⟩ (.reduced q) ⟨s', rest⟩
  | shift {s : Stack} {rest : List Piece} {x : Lexeme} {n : Nat}
      (action : s.actions.lookup x.terminal = some (.shift n)) :
      Move ⟨s, .lexeme x :: rest⟩ (.shifted x) ⟨(n, .leaf x) :: s, rest⟩
  | drop {s : Stack} {rest : List Piece} {x : Lexeme}
      (action : s.actions.lookup x.terminal = none) :
      Move ⟨s, .lexeme x :: rest⟩ (.dropped x) ⟨s, rest⟩
  | skip {s : Stack} {rest : List Piece} {c : Char} {m : Mark} :
      Move ⟨s, .stray c m :: rest⟩ (.skipped c m) ⟨s, rest⟩

inductive Moves : Work → List Event → Work → Prop
  | refl (w : Work) : Moves w [] w
  | step {w w' w'' : Work} {e : Event} {es : List Event} (first : Move w e w')
      (rest : Moves w' es w'') : Moves w (e :: es) w''

/-- Each move is forced. -/
theorem Move.unique {w v v' : Work} {e e' : Event} (h : Move w e v) (h' : Move w e' v') :
    e = e' ∧ v = v' := by
  cases h with
  | reduce next action pop =>
    cases h' with
    | reduce next' action' pop' =>
      obtain rfl := Option.some.inj (next.symm.trans next')
      obtain rfl := Action.reduce.inj (Option.some.inj (action.symm.trans action'))
      obtain rfl := Option.some.inj (pop.symm.trans pop')
      exact ⟨rfl, rfl⟩
    | shift action' =>
      obtain rfl := Option.some.inj next
      cases action.symm.trans action'
    | drop action' =>
      obtain rfl := Option.some.inj next
      cases action.symm.trans action'
    | skip => cases next
  | shift action =>
    cases h' with
    | reduce next' action' pop' =>
      obtain rfl := Option.some.inj next'
      cases action.symm.trans action'
    | shift action' =>
      obtain rfl := Action.shift.inj (Option.some.inj (action.symm.trans action'))
      exact ⟨rfl, rfl⟩
    | drop action' => cases action.symm.trans action'
  | drop action =>
    cases h' with
    | reduce next' action' pop' =>
      obtain rfl := Option.some.inj next'
      cases action.symm.trans action'
    | shift action' => cases action.symm.trans action'
    | drop action' => exact ⟨rfl, rfl⟩
  | skip =>
    cases h' with
    | reduce next' action' pop' => cases next'
    | skip => exact ⟨rfl, rfl⟩

namespace Moves

theorem trans {u v w : Work} {es es' : List Event} (h : Moves u es v) (h' : Moves v es' w) :
    Moves u (es ++ es') w := by
  induction h with
  | refl u => exact h'
  | step first rest ih => exact .step first (ih h')

/-- Whatever moves are made, they are the first of those that lead to an end. -/
theorem isPrefix {w v v' : Work} {es es' : List Event} (h : Moves w es v) (h' : Moves w es' v')
    (hend : ∀ e u, ¬ Move v' e u) : es <+: es' := by
  induction h generalizing es' with
  | refl w => exact List.nil_prefix
  | step first rest ih =>
    cases h' with
    | refl => exact absurd first (hend _ _)
    | step first' rest' =>
      obtain ⟨rfl, rfl⟩ := first.unique first'
      exact List.cons_prefix_cons.mpr ⟨rfl, ih rest'⟩

/-- The pieces that are dealt with are those read, in their order. -/
theorem pieces {w v : Work} {es : List Event} (h : Moves w es v) :
    w.rest = es.filterMap Event.piece? ++ v.rest := by
  induction h with
  | refl w => rfl
  | step first rest ih => cases first <;> simpa using ih

/-- The lexemes that are taken are added to those that the stack covers. -/
theorem lexemes {w v : Work} {es : List Event} (h : Moves w es v) :
    v.stack.lexemes = w.stack.lexemes ++ es.filterMap Event.taken? := by
  induction h with
  | refl w => simp
  | step first rest ih =>
    cases first with
    | reduce next action pop => simpa [(Stack.lexemes_delay_pop pop).1] using ih
    | shift action => simpa [Stack.lexemes_cons, Derivation.lexemes] using ih
    | drop action => simpa using ih
    | skip => simpa using ih

end Moves

theorem Move.proper {w v : Work} {e : Event} (h : Move w e v) (hw : w.stack.Proper) :
    v.stack.Proper := by
  cases h with
  | reduce next action pop =>
    obtain ⟨s', hs', hproper⟩ := hw.reduce action
    obtain rfl := Option.some.inj ((Stack.pop_of_reduce hs').symm.trans pop)
    exact hproper
  | shift action => exact hw.shift action
  | drop action => exact hw
  | skip => exact hw

theorem Moves.proper {w v : Work} {es : List Event} (h : Moves w es v) (hw : w.stack.Proper) :
    v.stack.Proper := by
  induction h with
  | refl w => exact hw
  | step first rest ih => exact ih (first.proper hw)

/-- Between two lexemes that are taken, only so many reductions can be made. -/
theorem Moves.length_le {w v : Work} {es : List Event} (h : Moves w es v) (hw : w.stack.Proper) :
    w.stack.delay + es.length ≤ v.stack.delay +
      (Derivation.delayLimit + 1) * (es.filterMap Event.piece?).length := by
  induction h with
  | refl w => simp
  | step first rest ih =>
    have hbound := ih (first.proper hw)
    have hdelay := hw.delay_le
    cases first with
    | reduce next action pop =>
      have hpop := (Stack.lexemes_delay_pop pop).2
      simp only [Event.piece_reduced, List.length_cons] at *
      omega
    | shift action =>
      simp only [Event.piece_shifted, List.length_cons, Stack.delay_cons, Derivation.delay,
        Nat.mul_succ] at *
      omega
    | drop action =>
      simp only [Event.piece_dropped, List.length_cons, Nat.mul_succ] at *
      omega
    | skip =>
      simp only [Event.piece_skipped, List.length_cons, Nat.mul_succ] at *
      omega

/-! ## The moves of the parser -/

/-- What becomes of a lexeme before which nothing is left to reduce. -/
def Response.IsFinal (x : Lexeme) (s : Stack) : Response → Prop
  | shifted s' => ∃ n, s.actions.lookup x.terminal = some (.shift n) ∧ s' = (n, .leaf x) :: s
  | refused s' => s.actions.lookup x.terminal = none ∧ s' = s
  | accepted d => s.actions.lookup x.terminal = some .accept ∧ x.terminal = .endOfInput ∧
      ∃ n, s = [(n, d)]

/-- Patience is never used up: the reductions before a lexeme come to an end by themselves. -/
theorem moves_feedWithin {x : Lexeme} {rest : List Piece} (hnext : upcoming rest = some x.terminal)
    (fuel : Nat) : ∀ s : Stack, s.Proper → Derivation.delayLimit < fuel + s.delay →
      ∃ (qs : List Production) (s' : Stack), Moves ⟨s, rest⟩ (qs.map .reduced) ⟨s', rest⟩ ∧
        s'.Proper ∧ (feedWithin x fuel s).IsFinal x s' := by
  induction fuel with
  | zero =>
    intro s hs hfuel
    have hdelay := hs.delay_le
    omega
  | succ fuel ih =>
    intro s hs hfuel
    rw [feedWithin]
    cases haction : s.actions.lookup x.terminal with
    | none => exact ⟨[], s, .refl _, hs, haction, rfl⟩
    | some a =>
      cases a with
      | shift n => exact ⟨[], s, .refl _, hs, n, haction, rfl⟩
      | accept =>
        obtain ⟨hend, n, d, rfl⟩ := hs.path.accept haction
        exact ⟨[], _, .refl _, hs, haction, hend, n, rfl⟩
      | reduce q =>
        obtain ⟨s', hs', hproper⟩ := hs.reduce haction
        have hpop := Stack.pop_of_reduce hs'
        have hdelay := (Stack.lexemes_delay_pop hpop).2
        obtain ⟨qs, s'', hmoves, hproper', hfinal⟩ := ih s' hproper (by omega)
        refine ⟨q :: qs, s'', .step (.reduce hnext haction hpop) hmoves, hproper', ?_⟩
        rw [act, hs']
        exact hfinal

theorem moves_feed (x : Lexeme) (rest : List Piece) (hnext : upcoming rest = some x.terminal)
    {s : Stack} (hs : s.Proper) :
    ∃ (qs : List Production) (s' : Stack), Moves ⟨s, rest⟩ (qs.map .reduced) ⟨s', rest⟩ ∧
      s'.Proper ∧ (feed s x).IsFinal x s' :=
  moves_feedWithin hnext s.patience s hs (Nat.lt_add_right _ (delayLimit_lt_patience s))

/-- How the parser ends after some moves that have led to a stack. It accepts the derivation there,
or it reports the end of the input too, before which nothing can be done there, and fails. -/
def Outcome.Ends (o : Outcome) (es : List Event) (s : Stack) : Prop :=
  (∃ n d, s = [(n, d)] ∧ s.actions.lookup .endOfInput = some .accept ∧ o.result = .ok d ∧
    o.errors.map SyntaxError.piece = es.filterMap Event.reported?) ∨
  (s.actions.lookup .endOfInput = none ∧ ∃ x y expected, x.terminal = .endOfInput ∧
    y.terminal = .endOfInput ∧ o.result = .error (.refused x expected) ∧
    o.errors.map SyntaxError.piece = es.filterMap Event.reported? ++ [.lexeme y])

theorem filterMap_reported_append (qs : List Production) (es : List Event) :
    (qs.map Event.reduced ++ es).filterMap Event.reported? = es.filterMap Event.reported? := by
  induction qs with
  | nil => rfl
  | cons q qs ih => exact ih

/-- Reductions in front change nothing about the end. -/
theorem Outcome.Ends.reduced {o : Outcome} {es : List Event} {s : Stack} (h : o.Ends es s)
    (qs : List Production) : o.Ends (qs.map .reduced ++ es) s := by
  rw [Ends, filterMap_reported_append]
  exact h

theorem Outcome.Ends.shifted {o : Outcome} {es : List Event} {s : Stack} (h : o.Ends es s)
    (x : Lexeme) : o.Ends (.shifted x :: es) s := h

/-- What is reported is passed over. -/
theorem Outcome.Ends.report {o : Outcome} {es : List Event} {s : Stack} (h : o.Ends es s)
    {e : SyntaxError} (event : Event) (he : event.reported? = some e.piece) :
    (o.report e).Ends (event :: es) s := by
  have hreported : (event :: es).filterMap Event.reported? =
      e.piece :: es.filterMap Event.reported? := List.filterMap_cons_some he
  rw [Ends, hreported]
  rcases h with ⟨n, d, hs, haction, hresult, herrors⟩ |
    ⟨haction, x, y, ts, hx, hy, hresult, herrors⟩
  · exact Or.inl ⟨n, d, hs, haction, hresult, congrArg (e.piece :: ·) herrors⟩
  · exact Or.inr ⟨haction, x, y, ts, hx, hy, hresult, congrArg (e.piece :: ·) herrors⟩

theorem moves_finish {s : Stack} (hs : s.Proper) (latest : Option Lexeme) :
    ∃ es s', Moves ⟨s, []⟩ es ⟨s', []⟩ ∧ (finish s latest).Ends es s' := by
  obtain ⟨qs, s', hmoves, _, hfinal⟩ := moves_feed (endLexeme latest) [] rfl hs
  refine ⟨_, s', hmoves, ?_⟩
  have hreported : (qs.map Event.reduced).filterMap Event.reported? = [] := by
    simpa using filterMap_reported_append qs []
  rw [finish, Outcome.Ends, hreported]
  cases hfeed : feed s (endLexeme latest) with
  | accepted d =>
    rw [hfeed] at hfinal
    obtain ⟨haction, _, n, rfl⟩ := hfinal
    exact Or.inl ⟨n, d, rfl, haction, rfl, rfl⟩
  | refused s'' =>
    rw [hfeed] at hfinal
    exact Or.inr ⟨hfinal.1, _, _, _, rfl, rfl, rfl, rfl⟩
  | shifted s'' =>
    rw [hfeed] at hfinal
    obtain ⟨n, haction, rfl⟩ := hfinal
    exact absurd rfl (Stack.ne_endOfInput_of_shift haction)

/-- The parser makes the moves that are open to it, up to the end of the pieces. -/
theorem moves_runPieces (source : List Char) (ps : List Piece)
    (hps : ∀ x, .lexeme x ∈ ps → x.terminal ≠ .endOfInput) :
    ∀ (s : Stack) (previous latest : Option Lexeme), s.Proper →
      ∃ es s', Moves ⟨s, ps⟩ es ⟨s', []⟩ ∧ (runPieces source ps s previous latest).Ends es s' := by
  induction ps with
  | nil => exact fun s previous latest hs => moves_finish hs latest
  | cons p ps ih =>
    intro s previous latest hs
    replace ih := ih fun x hx => hps x (List.mem_cons_of_mem p hx)
    cases p with
    | stray c m =>
      obtain ⟨es, s', hmoves, hends⟩ := ih s previous none hs
      exact ⟨_, s', .step .skip hmoves, hends.report (.skipped c m) rfl⟩
    | lexeme x =>
      obtain ⟨qs, s', hmoves, hproper, hfinal⟩ := moves_feed x (.lexeme x :: ps) rfl hs
      rw [runPieces]
      cases hfeed : feed s x with
      | shifted s'' =>
        rw [hfeed] at hfinal
        obtain ⟨n, haction, rfl⟩ := hfinal
        obtain ⟨es, s'', hrest, hends⟩ := ih _ (some x) (some x) (hproper.shift haction)
        exact ⟨_, s'', hmoves.trans (.step (.shift haction) hrest), (hends.shifted x).reduced qs⟩
      | refused s'' =>
        rw [hfeed] at hfinal
        obtain ⟨haction, rfl⟩ := hfinal
        obtain ⟨es, s', hrest, hends⟩ := ih s'' (some x) none hproper
        exact ⟨_, s', hmoves.trans (.step (.drop haction) hrest),
          (hends.report (.dropped x) rfl).reduced qs⟩
      -- Accepting needs the end of the input, which is not among the pieces.
      | accepted d =>
        rw [hfeed] at hfinal
        exact absurd hfinal.2.1 (hps x List.mem_cons_self)

/-- Once the end of the input is accepted or refused, there are no moves left. -/
theorem Outcome.Ends.no_move {o : Outcome} {es : List Event} {s : Stack} (h : o.Ends es s) :
    ∀ e w, ¬ Move ⟨s, []⟩ e w := by
  intro e w hmove
  cases hmove with
  | reduce next action pop =>
    obtain rfl := Option.some.inj next
    rcases h with ⟨_, _, _, haction, _⟩ | ⟨haction, _⟩ <;> cases action.symm.trans haction

theorem Outcome.Ends.length_errors_le {o : Outcome} {es : List Event} {s : Stack}
    (h : o.Ends es s) : o.errors.length ≤ (es.filterMap Event.reported?).length + 1 := by
  rw [← List.length_map SyntaxError.piece]
  rcases h with ⟨_, _, _, _, _, herrors⟩ | ⟨_, _, _, _, _, _, _, herrors⟩
  · rw [herrors]
    exact Nat.le_succ _
  · rw [herrors, List.length_append, List.length_singleton]

theorem Outcome.Ends.of_ok {o : Outcome} {es : List Event} {s : Stack} (h : o.Ends es s)
    {d : Derivation} (hd : o.result = .ok d) : (∃ n, s = [(n, d)]) ∧
      o.errors.map SyntaxError.piece = es.filterMap Event.reported? := by
  rcases h with ⟨n, d', rfl, _, hresult, herrors⟩ | ⟨_, _, _, _, _, _, hresult, _⟩
  · obtain rfl := Except.ok.inj (hd.symm.trans hresult)
    exact ⟨⟨n, rfl⟩, herrors⟩
  · cases hd.symm.trans hresult

/-! ## The pieces of a source -/

theorem terminal_ne_endOfInput {source : String} {x : Lexeme}
    (h : .lexeme x ∈ Piece.significant source) : x.terminal ≠ .endOfInput := by
  obtain ⟨before, after, hpieces⟩ := List.append_of_mem (List.mem_filter.mp h).1
  obtain ⟨_, ⟨c, w, _, hfront⟩, _⟩ := (Piece.cuts_ofSource source).start_fits _ _ _ hpieces
  intro hend
  have hreach := Terminal.reach_of_atFront hfront
  rw [hend] at hreach
  cases hreach

/-- The moves that are made for a source. -/
theorem exists_moves (source : String) : ∃ es s,
    Moves ⟨[], Piece.significant source⟩ es ⟨s, []⟩ ∧ (recovering source).Ends es s :=
  moves_runPieces source.toList (Piece.significant source)
    (fun _ hx => terminal_ne_endOfInput hx) [] none none Stack.proper_nil

theorem length_significant_le (source : String) :
    (Piece.significant source).length ≤ source.length := by
  have hcuts := Piece.cuts_ofSource source
  have hle : ∀ {m cs ps}, Piece.Cuts m cs ps → ps.length ≤ cs.length := by
    intro m cs ps h
    induction h with
    | nil m => exact Nat.le_refl 0
    | @cons m p cs ps start fits rest ih =>
      have hpos : 0 < p.text.length := by
        cases p with
        | stray c m => exact Nat.one_pos
        | lexeme x =>
          obtain ⟨⟨c, w, htext, _⟩, _⟩ := fits
          rw [Piece.text, htext]
          exact Nat.succ_pos _
      rw [List.length_cons, List.length_append]
      omega
  calc (Piece.significant source).length
      ≤ (Piece.ofSource source).length := List.length_filter_le _ _
    _ ≤ source.toList.length := hle hcuts
    _ = source.length := String.length_toList

theorem nodup_significant (source : String) : (lexemesIn (Piece.significant source)).Nodup := by
  have horigin : Mark.origin.IsCounted := ⟨Nat.le_refl 1, Nat.le_refl 1⟩
  have hall := Piece.ordered_cut Terminal.atFront source.toList 0 .origin horigin
  refine (hall.sublist (List.filter_sublist.filterMap _)).nodup ?_
  intro x hx
  obtain ⟨before, after, hpieces⟩ :=
    List.append_of_mem (List.mem_filter.mp (mem_lexemesIn.mp hx)).1
  obtain ⟨_, ⟨c, w, htext, _⟩, _⟩ := (Piece.cuts_ofSource source).start_fits _ _ _ hpieces
  rw [htext]
  exact List.cons_ne_nil c w

theorem reported_sublist (es : List Event) :
    (es.filterMap Event.reported?).Sublist (es.filterMap Event.piece?) := by
  induction es with
  | nil => exact List.Sublist.refl []
  | cons e es ih =>
    cases e with
    | reduced q => exact ih
    | shifted x => exact ih.cons (.lexeme x)
    | dropped x => exact ih.cons_cons (.lexeme x)
    | skipped c m => exact ih.cons_cons (.stray c m)

/-- Of lexemes that are all different, those taken are the ones not reported. -/
theorem taken_eq_filter {es : List Event} :
    (lexemesIn (es.filterMap Event.piece?)).Nodup →
      es.filterMap Event.taken? = (lexemesIn (es.filterMap Event.piece?)).filter
        fun x => .lexeme x ∉ es.filterMap Event.reported? := by
  induction es with
  | nil => exact fun _ => rfl
  | cons e es ih =>
    intro hnodup
    cases e with
    | reduced q => exact ih hnodup
    | shifted x =>
      obtain ⟨hx, hrest⟩ := List.nodup_cons.mp hnodup
      have hkept : .lexeme x ∉ es.filterMap Event.reported? :=
        fun hmem => hx (mem_lexemesIn.mpr ((reported_sublist es).subset hmem))
      calc (Event.shifted x :: es).filterMap Event.taken?
          = x :: es.filterMap Event.taken? := rfl
        _ = x :: (lexemesIn (es.filterMap Event.piece?)).filter
              fun y => .lexeme y ∉ es.filterMap Event.reported? := by rw [ih hrest]
        _ = _ := (List.filter_cons_of_pos (by simpa using hkept)).symm
    | dropped x =>
      obtain ⟨hx, hrest⟩ := List.nodup_cons.mp hnodup
      calc (Event.dropped x :: es).filterMap Event.taken?
          = (lexemesIn (es.filterMap Event.piece?)).filter
              fun y => .lexeme y ∉ es.filterMap Event.reported? := ih hrest
        _ = (lexemesIn (es.filterMap Event.piece?)).filter
              fun y => .lexeme y ∉ .lexeme x :: es.filterMap Event.reported? := by
          refine List.filter_congr fun y hy => ?_
          have hne : y ≠ x := fun heq => hx (heq ▸ hy)
          simp [hne]
        _ = _ := (List.filter_cons_of_neg (by simp)).symm
    | skipped c m =>
      calc (Event.skipped c m :: es).filterMap Event.taken?
          = (lexemesIn (es.filterMap Event.piece?)).filter
              fun y => .lexeme y ∉ es.filterMap Event.reported? := ih hnodup
        _ = (lexemesIn (es.filterMap Event.piece?)).filter
              fun y => .lexeme y ∉ .stray c m :: es.filterMap Event.reported? :=
          List.filter_congr fun y _ => by simp

/-- However a source is wrong, the parser comes to an end, after moves that are forced and no more
than some for each character, and takes or reports each piece once. -/
theorem recovering_ends (source : String) :
    ∃ es s, Moves ⟨[], Piece.significant source⟩ es ⟨s, []⟩ ∧
      (∀ es' w, Moves ⟨[], Piece.significant source⟩ es' w → es' <+: es) ∧
      es.length ≤ (Derivation.delayLimit + 1) * (source.length + 1) ∧
      es.filterMap Event.piece? = Piece.significant source ∧
      (recovering source).Ends es s ∧
      (recovering source).errors.length ≤ source.length + 1 ∧
      ∀ d, (recovering source).result = .ok d →
        Range.tokensOf d.tree = Derivation.keptTokens
          ((lexemesIn (Piece.significant source)).filter fun x =>
            .lexeme x ∉ (recovering source).errors.map SyntaxError.piece) := by
  obtain ⟨es, s, hmoves, hends⟩ := exists_moves source
  have hpieces : es.filterMap Event.piece? = Piece.significant source := by
    simpa using hmoves.pieces.symm
  have hlength := length_significant_le source
  refine ⟨es, s, hmoves, ?_, ?_, hpieces, hends, ?_, ?_⟩
  · intro es' w hmoves'
    exact hmoves'.isPrefix hmoves hends.no_move
  · have hbound := hmoves.length_le Stack.proper_nil
    have hdelay := (hmoves.proper Stack.proper_nil).delay_le
    have hmul := Nat.mul_le_mul_left (Derivation.delayLimit + 1) hlength
    rw [hpieces] at hbound
    dsimp only at hbound hdelay
    rw [Nat.mul_succ]
    omega
  · have hreported := (reported_sublist es).length_le
    have hcount := hends.length_errors_le
    rw [hpieces] at hreported
    exact hcount.trans (Nat.succ_le_succ (hreported.trans hlength))
  · intro d hd
    obtain ⟨hvalid, hstart, _⟩ := valid_of_recovering hd
    obtain ⟨⟨n, rfl⟩, herrors⟩ := hends.of_ok hd
    have htaken := taken_eq_filter (hpieces ▸ nodup_significant source)
    have hlexemes : d.lexemes = es.filterMap Event.taken? :=
      (Stack.lexemes_cons n d []).symm.trans hmoves.lexemes
    rw [Derivation.tokensOf_tree hvalid hstart, herrors, ← hpieces, ← htaken, ← hlexemes]

end Parse

end GrammarServer
