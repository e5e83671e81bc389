import GrammarServer.Proofs.Parse.Recovery
import Mathlib.Data.List.Sections

/-!
# Sources that differ in their layout alone

What the parser finds without errors is settled, so it is the only derivation that is. Therefore two
sources whose lexemes are the same, but for the places that they take, the text of line breaks and
bars that stand on a new line, have derivations that are the same in this sense.
-/
namespace GrammarServer

open Parse

/-! ## What is found is settled -/

namespace Derivation

theorem leading_append (t : Terminal) (ds es : List Derivation) :
    leading t (ds ++ es) = leading (leading t es) ds := by
  unfold leading
  rw [lexemesOfAll_append]
  cases lexemesOfAll ds <;> rfl

theorem allSettled_append (t : Terminal) (ds es : List Derivation) :
    AllSettled t (ds ++ es) ↔ AllSettled (leading t es) ds ∧ AllSettled t es := by
  induction ds with
  | nil => simp [AllSettled]
  | cons d ds ih => rw [List.cons_append, AllSettled, AllSettled, leading_append, ih, and_assoc]

end Derivation

namespace Parse

open GrammarServer.Derivation

/-- The derivations on a stack, from the bottom to the top, are settled before a terminal. -/
def Stack.IsSettled (s : Stack) (t : Terminal) : Prop := AllSettled t (s.map (·.2)).reverse

theorem Stack.IsSettled.shift {s : Stack} {x : Lexeme} (h : s.IsSettled x.terminal) (n : Nat)
    (t : Terminal) : IsSettled ((n, .leaf x) :: s) t := by
  rw [IsSettled, List.map_cons, List.reverse_cons, allSettled_append]
  exact ⟨h, trivial, trivial⟩

theorem Stack.IsSettled.pop {s s' : Stack} {q : Production} {t : Terminal} (h : s.IsSettled t)
    (hq : Automaton.goesOnWith q.left t = false) (hs : s.pop q = some s') : s'.IsSettled t := by
  obtain ⟨n, _, rfl⟩ := Option.map_eq_some_iff.mp hs
  rw [IsSettled, ← List.take_append_drop q.right.length s, List.map_append, List.reverse_append,
    allSettled_append] at h
  rw [IsSettled, List.map_cons, List.reverse_cons, allSettled_append]
  refine ⟨?_, ⟨hq, h.2⟩, trivial⟩
  have hleading : ∀ ds, leading t [.node q ds] = leading t ds := by
    intro ds
    rw [leading, lexemesOfAll, lexemesOfAll, List.append_nil, Derivation.lexemes, leading]
  rw [hleading]
  exact h.1

/-- As long as nothing is reported, the stack is settled before what comes next. -/
theorem Moves.isSettled {w v : Work} {es : List Event} (h : Moves w es v)
    (hreported : es.filterMap Event.reported? = [])
    (hw : ∀ t, upcoming w.rest = some t → w.stack.IsSettled t) :
    ∀ t, upcoming v.rest = some t → v.stack.IsSettled t := by
  induction h with
  | refl w => exact hw
  | step first rest ih =>
    cases first with
    | reduce next action pop =>
      refine ih hreported ?_
      intro t ht
      obtain rfl := Option.some.inj (next.symm.trans ht)
      exact (hw _ next).pop (Stack.not_goesOnWith_of_reduce action) pop
    | shift action => exact ih hreported fun t _ => (hw _ rfl).shift _ t
    | drop action => cases hreported
    | skip => cases hreported

theorem settled_of_strict {source : String} {d : Derivation} (h : strict source = .ok d) :
    d.Settled .endOfInput := by
  obtain ⟨es, s, hmoves, hends⟩ := exists_moves source
  obtain ⟨⟨n, rfl⟩, herrors⟩ := hends.of_ok (recovering_of_strict h)
  have hnone : (recovering source).errors = [] := by
    rw [strict, Outcome.first] at h
    split at h
    · assumption
    · cases h
  rw [hnone] at herrors
  exact (hmoves.isSettled herrors.symm (fun t _ => trivial) .endOfInput rfl).1

end Parse

/-! ## The gist of a derivation -/

/-- A bar on a new line is as good as any other. -/
def Terminal.gist : Terminal → Terminal
  | newlineBar => bar
  | t => t

def Terminal.isLoose : Terminal → Bool
  | newline | bar | newlineBar => true
  | _ => false

def Symbol.gist : Symbol → Symbol
  | terminal t => terminal t.gist
  | phrase p => phrase p

namespace Lexeme

/-- Two lexemes that differ in their layout alone. Line breaks may have different texts, and a bar
may stand on a new line. -/
def Alike (x y : Lexeme) : Prop :=
  x.terminal = y.terminal ∧ (x.text = y.text ∨ x.terminal = .newline) ∨
    (x.terminal = .bar ∨ x.terminal = .newlineBar) ∧ (y.terminal = .bar ∨ y.terminal = .newlineBar)

instance (x y : Lexeme) : Decidable (x.Alike y) :=
  inferInstanceAs (Decidable (x.terminal = y.terminal ∧ (x.text = y.text ∨ x.terminal = .newline) ∨
    (x.terminal = .bar ∨ x.terminal = .newlineBar) ∧
      (y.terminal = .bar ∨ y.terminal = .newlineBar)))

/-- A lexeme without its place and without what is up to the layout. -/
def gist (x : Lexeme) : Lexeme :=
  ⟨x.terminal.gist, if x.terminal.isLoose then [] else x.text, .origin, .origin⟩

theorem Alike.gist_eq {x y : Lexeme} (h : x.Alike y) : x.gist = y.gist := by
  unfold gist
  rcases h with ⟨hterminal, htext | hnewline⟩ | ⟨hx | hx, hy | hy⟩
  · rw [hterminal, htext]
  · rw [← hterminal, hnewline]
    rfl
  all_goals
    rw [hx, hy]
    rfl

theorem map_gist_eq {xs ys : List Lexeme} (h : List.Forall₂ Alike xs ys) :
    xs.map gist = ys.map gist := by
  induction h with
  | nil => rfl
  | cons hxy _ ih => rw [List.map_cons, List.map_cons, hxy.gist_eq, ih]

end Lexeme

namespace Derivation

mutual

/-- A derivation without places and without what is up to the layout. -/
def gist : Derivation → Derivation
  | leaf x => leaf x.gist
  | node q ds => node ⟨q.left, q.right.map Symbol.gist⟩ (gistAll ds)

def gistAll : List Derivation → List Derivation
  | [] => []
  | d :: ds => gist d :: gistAll ds

end

theorem symbol_gist (d : Derivation) : d.gist.symbol = d.symbol.gist := by
  cases d <;> rfl

theorem map_symbol_gistAll (ds : List Derivation) :
    (gistAll ds).map symbol = (ds.map symbol).map Symbol.gist := by
  induction ds with
  | nil => rfl
  | cons d ds ih => rw [gistAll, List.map_cons, ih, symbol_gist, List.map_cons, List.map_cons]

mutual

theorem lexemes_gist : ∀ d : Derivation, d.gist.lexemes = d.lexemes.map Lexeme.gist
  | leaf _ => rfl
  | node _ ds => lexemesOfAll_gistAll ds

theorem lexemesOfAll_gistAll : ∀ ds : List Derivation,
    lexemesOfAll (gistAll ds) = (lexemesOfAll ds).map Lexeme.gist
  | [] => rfl
  | d :: ds => by
    rw [gistAll, lexemesOfAll, lexemes_gist d, lexemesOfAll_gistAll ds, lexemesOfAll,
      List.map_append]

end

theorem leading_gistAll (t : Terminal) (ds : List Derivation) :
    leading t.gist (gistAll ds) = (leading t ds).gist := by
  unfold leading
  rw [lexemesOfAll_gistAll]
  cases lexemesOfAll ds <;> rfl

mutual

theorem settled_gist (t : Terminal) : ∀ d : Derivation, d.gist.Settled t.gist ↔ d.Settled t
  | leaf _ => Iff.rfl
  | node q ds => by
    have hsame : Automaton.goesOnWith q.left t.gist = Automaton.goesOnWith q.left t := by
      cases t <;> rfl
    rw [gist, Settled, Settled, hsame, allSettled_gistAll t ds]

theorem allSettled_gistAll (t : Terminal) : ∀ ds : List Derivation,
    AllSettled t.gist (gistAll ds) ↔ AllSettled t ds
  | [] => Iff.rfl
  | d :: ds => by
    rw [gistAll, AllSettled, AllSettled, leading_gistAll, settled_gist _ d,
      allSettled_gistAll t ds]

end

end Derivation

/-! ## Derivations with the same gist -/

namespace Symbol

def variants : Symbol → List Symbol
  | terminal .bar | terminal .newlineBar => [terminal .bar, terminal .newlineBar]
  | x => [x]

theorem mem_variants {x y : Symbol} (h : x.gist = y.gist) : x ∈ variants y := by
  have hself : x ∈ variants x.gist := by
    cases x with
    | phrase p => exact List.mem_singleton_self _
    | terminal t => cases t <;> decide
  have hgist : variants y.gist = variants y := by
    cases y with
    | phrase p => rfl
    | terminal t => cases t <;> rfl
  rwa [← hgist, ← h]

end Symbol

namespace Production

theorem variants_mem_all : (all.all fun q =>
    (q.right.map Symbol.variants).sections.all fun r => all.contains ⟨q.left, r⟩) = true := by
  decide +kernel

/-- What is a production with one kind of bar is one with the other. -/
theorem mem_all_of_gist {q : Production} (hq : q ∈ all) {r : List Symbol}
    (h : r.map Symbol.gist = q.right.map Symbol.gist) : ⟨q.left, r⟩ ∈ all := by
  have hvariant : r ∈ (q.right.map Symbol.variants).sections := by
    rw [List.mem_sections, List.forall₂_map_right_iff]
    have hsame : List.Forall₂ (fun x y => Symbol.gist x = Symbol.gist y) r q.right := by
      rw [← List.forall₂_map_left_iff (R := fun x y => x = Symbol.gist y),
        ← List.forall₂_map_right_iff (R := fun x y => x = y), h]
      exact List.forall₂_refl _
    exact hsame.imp fun _ _ => Symbol.mem_variants
  have hvariants := List.all_eq_true.mp (List.all_eq_true.mp variants_mem_all q hq) r hvariant
  exact List.contains_iff_mem.mp hvariants

end Production

namespace Derivation

mutual

/-- Lexemes can be exchanged for others with the same gist. -/
theorem exists_gist_eq : ∀ (d : Derivation) (ys : List Lexeme), d.Valid →
    ys.map Lexeme.gist = d.lexemes.map Lexeme.gist →
    ∃ e : Derivation, e.Valid ∧ e.lexemes = ys ∧ e.gist = d.gist
  | leaf x, ys, _, h => by
    obtain ⟨y, ys, rfl, hy, hys⟩ := List.map_eq_cons_iff.mp h
    obtain rfl := List.map_eq_nil_iff.mp hys
    exact ⟨leaf y, trivial, rfl, congrArg leaf hy⟩
  | node q ds, ys, hvalid, h => by
    obtain ⟨hq, hspell, hds⟩ := hvalid
    obtain ⟨es, hes, hlexemes, hgist⟩ := exists_gistAll_eq ds ys hds h
    have hright : (es.map symbol).map Symbol.gist = q.right.map Symbol.gist := by
      rw [← map_symbol_gistAll, hgist, map_symbol_gistAll, hspell]
    refine ⟨node ⟨q.left, es.map symbol⟩ es, ⟨Production.mem_all_of_gist hq hright, rfl, hes⟩,
      hlexemes, ?_⟩
    rw [gist, gist, hright, hgist]

theorem exists_gistAll_eq : ∀ (ds : List Derivation) (ys : List Lexeme), AllValid ds →
    ys.map Lexeme.gist = (lexemesOfAll ds).map Lexeme.gist →
    ∃ es : List Derivation, AllValid es ∧ lexemesOfAll es = ys ∧ gistAll es = gistAll ds
  | [], ys, _, h => by
    obtain rfl := List.map_eq_nil_iff.mp h
    exact ⟨[], trivial, rfl, rfl⟩
  | d :: ds, ys, hvalid, h => by
    rw [lexemesOfAll, List.map_append] at h
    obtain ⟨ys, zs, rfl, hys, hzs⟩ := List.map_eq_append_iff.mp h
    obtain ⟨e, he, hlexemes, hgist⟩ := exists_gist_eq d ys hvalid.1 hys
    obtain ⟨es, hes, hlexemes', hgist'⟩ := exists_gistAll_eq ds zs hvalid.2 hzs
    refine ⟨e :: es, ⟨he, hes⟩, ?_, ?_⟩
    · rw [lexemesOfAll, hlexemes, hlexemes']
    · rw [gistAll, gistAll, hgist, hgist']

end

end Derivation

/-- Sources whose lexemes have the same gist have derivations with the same gist. -/
theorem Parse.gist_eq_of_strict {source source' : String} {d d' : Derivation}
    (h : strict source = .ok d) (h' : strict source' = .ok d')
    (hlexemes : d'.lexemes.map Lexeme.gist = d.lexemes.map Lexeme.gist) : d'.gist = d.gist := by
  obtain ⟨hvalid, hstart, _⟩ := valid_of_strict h
  obtain ⟨_, _, hpieces⟩ := valid_of_strict h'
  obtain ⟨e, he, hsame, hgist⟩ := d.exists_gist_eq d'.lexemes hvalid hlexemes
  have hestart : e.symbol = .phrase .start := by
    have hsymbol := congrArg Derivation.symbol hgist
    rw [e.symbol_gist, d.symbol_gist, hstart] at hsymbol
    cases he : e.symbol with
    | terminal t =>
      rw [he] at hsymbol
      cases hsymbol
    | phrase p =>
      rw [he] at hsymbol
      exact hsymbol
  have hsettled : e.Settled .endOfInput := by
    rw [← Derivation.settled_gist, hgist, Derivation.settled_gist]
    exact settled_of_strict h
  have hfound := strict_of_settled he hestart hsettled (by rw [hsame]; exact hpieces)
  obtain rfl := Except.ok.inj (hfound.symm.trans h')
  exact hgist

end GrammarServer
