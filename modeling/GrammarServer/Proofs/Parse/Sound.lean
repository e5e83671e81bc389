import GrammarServer.Proofs.Parse.Items

/-!
# What the parser finds is a derivation

Whatever the automaton asks for, the derivations on the stack stay valid, and from the bottom of
the stack to its top they cover the lexemes taken so far. So a derivation that is accepted is one
of a whole file, over those lexemes of the source that were not dropped; if nothing was reported,
over all of them.
-/
namespace GrammarServer

def SyntaxError.piece : SyntaxError → Piece
  | stray _ c m _ _ => .stray c m
  | refused x _ => .lexeme x

open Automaton

namespace Derivation

theorem lexemesOfAll_append (ds es : List Derivation) :
    lexemesOfAll (ds ++ es) = lexemesOfAll ds ++ lexemesOfAll es := by
  induction ds with
  | nil => rfl
  | cons d ds ih => simp only [List.cons_append, lexemesOfAll, ih, List.append_assoc]

theorem allValid_iff (ds : List Derivation) : AllValid ds ↔ ∀ d ∈ ds, d.Valid := by
  induction ds with
  | nil => simp [AllValid]
  | cons d ds ih => simp [AllValid, ih]

end Derivation

/-! ## What actions of the automaton can be -/

namespace Automaton

theorem mem_of_lookup_eq_some {α β : Type} [BEq α] [LawfulBEq α] {l : List (α × β)} {a : α}
    {b : β} (h : l.lookup a = some b) : (a, b) ∈ l := by
  obtain ⟨l₁, l₂, rfl, _⟩ := List.lookup_eq_some_iff.mp h
  simp

theorem lookup_filterMap {α : Type} (f : Terminal → Option α) (ts : List Terminal)
    {t : Terminal} {a : α} (h : (ts.filterMap fun t => (f t).map (t, ·)).lookup t = some a) :
    f t = some a := by
  induction ts with
  | nil => simp at h
  | cons u ts ih =>
    cases hu : f u with
    | none =>
      rw [List.filterMap_cons_none (by rw [hu]; rfl)] at h
      exact ih h
    | some b =>
      rw [List.filterMap_cons_some (by rw [hu]; rfl), List.lookup_cons] at h
      split at h
      · rename_i htu
        rw [beq_iff_eq] at htu
        rw [htu, hu, h]
      · exact ih h

theorem actionOf_of_lookup {core : Core} {sets : List TerminalSet} {t : Terminal} {a : Action}
    (h : (stateOf core sets).actions.lookup t = some a) :
    actionOf core (completed core sets) t = some a :=
  lookup_filterMap _ _ h

theorem mem_all_of_reduce {core : Core} {sets : List TerminalSet} {t : Terminal} {q : Production}
    (h : (stateOf core sets).actions.lookup t = some (.reduce q)) : q ∈ Production.all := by
  have ha := actionOf_of_lookup h
  unfold actionOf at ha
  split at ha
  · cases ha
  · split at ha
    · cases ha
    · split at ha
      · rename_i q' hq'
        cases ha
        exact List.mem_of_getElem? hq'
      · cases ha

theorem mem_edges_of_shift {core : Core} {sets : List TerminalSet} {t : Terminal} {n : Nat}
    (h : (stateOf core sets).actions.lookup t = some (.shift n)) :
    (.terminal t, n) ∈ core.edges := by
  have ha := actionOf_of_lookup h
  unfold actionOf at ha
  split at ha
  · rename_i n' hn'
    cases ha
    exact mem_of_lookup_eq_some hn'
  · split at ha
    · cases ha
    · split at ha <;> cases ha

theorem mem_edges_of_goto {core : Core} {sets : List TerminalSet} {p : Phrase} {n : Nat}
    (h : (stateOf core sets).gotos.lookup p = some n) : (.phrase p, n) ∈ core.edges := by
  obtain ⟨⟨x, n'⟩, hmem, hx⟩ := List.mem_filterMap.mp (mem_of_lookup_eq_some h)
  cases x with
  | terminal t => cases hx
  | phrase p' =>
    cases hx
    exact hmem

def Opens (x : Symbol) (n : Nat) : Prop :=
  ∃ core sets, table[0]? = some (core, sets) ∧ (x, n) ∈ core.edges

/-- The one symbol that leads from the first state to acceptance is a whole file. -/
theorem Opens.eq_start {x : Symbol} {n : Nat} (h : Opens x n)
    (haccept : (State.actionsOf automaton[n]?).lookup .endOfInput = some .accept) :
    x = .phrase .start := by
  obtain ⟨core, sets, hentry, hedge⟩ := h
  have horigin := originAgrees_eq_true
  rw [hentry, originAgrees, Bool.and_eq_true] at horigin
  have hall := List.all_eq_true.mp horigin.2 _ hedge
  rw [Bool.or_eq_true, beq_iff_eq] at hall
  rcases hall with hx | hx
  · exact hx
  · rw [automaton_getElem?] at haccept
    cases hn : table[n]? with
    | none =>
      rw [hn] at haccept
      cases haccept
    | some entry =>
      rw [hn, Option.map_some, State.actionsOf] at haccept
      rw [hn, acceptsIn, State.accepts, haccept] at hx
      cases hx

end Automaton

namespace Parse

/-! ## The invariant of the stack -/

def Stack.lexemes (s : Stack) : List Lexeme := Derivation.lexemesOfAll (s.map (·.2)).reverse

/-- The derivations on a stack are valid, and an edge of the first state leads to its bottom. -/
structure Stack.Sound (s : Stack) : Prop where
  valid : ∀ e ∈ s, e.2.Valid
  opens : ∀ e, s.getLast? = some e → Opens e.2.symbol e.1

namespace Stack

theorem sound_nil : Sound [] := ⟨by simp, by simp⟩

theorem lexemes_cons (n : Nat) (d : Derivation) (s : Stack) :
    lexemes ((n, d) :: s) = lexemes s ++ d.lexemes := by
  simp [lexemes, Derivation.lexemesOfAll_append, Derivation.lexemesOfAll]

theorem lexemes_append (top below : Stack) :
    lexemes (top ++ below) = lexemes below ++ lexemes top := by
  simp [lexemes, Derivation.lexemesOfAll_append]

theorem exists_table_of_actions {s : Stack} {t : Terminal} {a : Action}
    (h : s.actions.lookup t = some a) : ∃ core sets, table[s.state]? = some (core, sets) ∧
      (stateOf core sets).actions.lookup t = some a := by
  rw [actions, automaton_getElem?] at h
  cases hn : table[s.state]? with
  | none =>
    rw [hn] at h
    cases h
  | some entry =>
    rw [hn, Option.map_some, State.actionsOf] at h
    exact ⟨entry.1, entry.2, rfl, h⟩

theorem exists_table_of_goto {s : Stack} {p : Phrase} {n : Nat} (h : s.goto p = some n) :
    ∃ core sets, table[s.state]? = some (core, sets) ∧
      (stateOf core sets).gotos.lookup p = some n := by
  rw [goto, automaton_getElem?] at h
  cases hn : table[s.state]? with
  | none =>
    rw [hn] at h
    cases h
  | some entry =>
    rw [hn, Option.map_some, State.gotoOf] at h
    exact ⟨entry.1, entry.2, rfl, h⟩

/-- A valid derivation on top keeps a stack sound; on an empty one the first state must lead to
it. -/
theorem Sound.cons {s : Stack} {n : Nat} {d : Derivation} (hs : s.Sound) (hd : d.Valid)
    (hopens : s = [] → Opens d.symbol n) : Sound ((n, d) :: s) := by
  refine ⟨?_, ?_⟩
  · intro e he
    rcases List.mem_cons.mp he with rfl | he
    · exact hd
    · exact hs.valid e he
  · intro e he
    cases s with
    | nil =>
      cases he
      exact hopens rfl
    | cons e' s =>
      rw [List.getLast?_cons_cons] at he
      exact hs.opens e he

theorem Sound.drop {s : Stack} (hs : s.Sound) (k : Nat) : Sound (s.drop k) := by
  refine ⟨fun e he => hs.valid e (List.mem_of_mem_drop he), ?_⟩
  intro e he
  rw [List.getLast?_drop] at he
  split at he
  · cases he
  · exact hs.opens e he

theorem Sound.shift {s : Stack} {x : Lexeme} {n : Nat} (hs : s.Sound)
    (h : s.actions.lookup x.terminal = some (.shift n)) : Sound ((n, .leaf x) :: s) := by
  apply hs.cons (d := .leaf x) trivial
  rintro rfl
  obtain ⟨core, sets, hentry, hlookup⟩ := exists_table_of_actions h
  exact ⟨core, sets, hentry, mem_edges_of_shift hlookup⟩

theorem mem_all_of_lookup {s : Stack} {t : Terminal} {q : Production}
    (h : s.actions.lookup t = some (.reduce q)) : q ∈ Production.all := by
  obtain ⟨core, sets, _, hlookup⟩ := exists_table_of_actions h
  exact mem_all_of_reduce hlookup

/-- A reduction keeps a stack sound and what it covers. -/
theorem Sound.reduce {s s' : Stack} {q : Production} (hs : s.Sound) (hq : q ∈ Production.all)
    (h : s.reduce q = some s') : s'.Sound ∧ s'.lexemes = s.lexemes := by
  simp only [Stack.reduce] at h
  split at h
  case isFalse => cases h
  case isTrue hspell =>
    obtain ⟨n, hgoto, rfl⟩ := Option.map_eq_some_iff.mp h
    refine ⟨?_, ?_⟩
    · apply (hs.drop q.right.length).cons
      · refine ⟨hq, hspell, (Derivation.allValid_iff _).mpr ?_⟩
        intro d hd
        obtain ⟨e, he, rfl⟩ := List.mem_map.mp (List.mem_reverse.mp hd)
        exact hs.valid e (List.mem_of_mem_take he)
      · intro hbelow
        obtain ⟨core, sets, hentry, hlookup⟩ := exists_table_of_goto hgoto
        rw [hbelow] at hentry
        exact ⟨core, sets, hentry, mem_edges_of_goto hlookup⟩
    · have hsplit := congrArg lexemes (List.take_append_drop q.right.length s)
      rw [lexemes_append] at hsplit
      rw [lexemes_cons, Derivation.lexemes, ← hsplit, lexemes, lexemes]

end Stack

/-! ## One lexeme -/

/-- What becomes of a lexeme, as far as the derivations are concerned. -/
def Response.Follows (x : Lexeme) (before : List Lexeme) : Response → Prop
  | shifted s => s.Sound ∧ s.lexemes = before ++ [x]
  | refused s => s.Sound ∧ s.lexemes = before
  | accepted d => d.Valid ∧ d.lexemes = before ∧
      (x.terminal = .endOfInput → d.symbol = .phrase .start)

theorem act_follows {x : Lexeme} {again : Stack → Response} {s : Stack} {a : Option Action}
    (hs : s.Sound) (ha : s.actions.lookup x.terminal = a)
    (hagain : ∀ s', s'.Sound → s'.lexemes = s.lexemes → (again s').Follows x s.lexemes) :
    (act x again s a).Follows x s.lexemes := by
  match a with
  | none => exact ⟨hs, rfl⟩
  | some (.shift n) => exact ⟨hs.shift ha, Stack.lexemes_cons n (.leaf x) s⟩
  | some (.reduce q) =>
    rw [act]
    cases hreduce : s.reduce q with
    | none => exact ⟨hs, rfl⟩
    | some s' =>
      obtain ⟨hs', hlexemes⟩ := hs.reduce (Stack.mem_all_of_lookup ha) hreduce
      exact hagain s' hs' hlexemes
  | some .accept =>
    match s, hs, ha with
    | [], hs, _ => exact ⟨hs, rfl⟩
    | [(n, d)], hs, ha =>
      refine ⟨hs.valid _ List.mem_cons_self, by simp [Stack.lexemes, Derivation.lexemesOfAll], ?_⟩
      intro hend
      rw [hend] at ha
      exact (hs.opens (n, d) rfl).eq_start ha
    | _ :: _ :: _, hs, _ => exact ⟨hs, rfl⟩

theorem feedWithin_follows (x : Lexeme) (fuel : Nat) : ∀ s : Stack, s.Sound →
    (feedWithin x fuel s).Follows x s.lexemes := by
  induction fuel with
  | zero =>
    intro s hs
    exact ⟨hs, rfl⟩
  | succ fuel ih =>
    intro s hs
    rw [feedWithin]
    apply act_follows hs rfl
    intro s' hs' hlexemes
    rw [← hlexemes]
    exact ih s' hs'

/-! ## A whole run -/

def lexemesIn (ps : List Piece) : List Lexeme :=
  ps.filterMap fun
    | .lexeme x => some x
    | .stray .. => none

theorem mem_lexemesIn {ps : List Piece} {x : Lexeme} : x ∈ lexemesIn ps ↔ .lexeme x ∈ ps := by
  rw [lexemesIn, List.mem_filterMap]
  constructor
  · rintro ⟨p, hp, hx⟩
    cases p with
    | lexeme y =>
      cases hx
      exact hp
    | stray c m => cases hx
  · intro hx
    exact ⟨.lexeme x, hx, rfl⟩

/-- A derivation found covers some lexemes and, of the pieces read after them, all lexemes that were
not dropped. Each piece is taken or reported, but not both. -/
def Outcome.Covers (o : Outcome) (before : List Lexeme) (ps : List Piece) : Prop :=
  ∀ d, o.result = .ok d → d.Valid ∧ d.symbol = .phrase .start ∧
    ∃ taken, taken.Sublist (lexemesIn ps) ∧ d.lexemes = before ++ taken ∧
      (o.errors = [] → ps = taken.map .lexeme) ∧
      ps.Perm (taken.map .lexeme ++ o.errors.map SyntaxError.piece)

theorem conclude_covers {latest : Option Lexeme} {before : List Lexeme} {r : Response}
    (h : r.Follows (endLexeme latest) before) : (conclude latest r).Covers before [] := by
  intro d hd
  cases r with
  | shifted s => cases hd
  | refused s => cases hd
  | accepted d' =>
    cases hd
    exact ⟨h.1, h.2.2 rfl, [], List.Sublist.refl _, by simp [h.2.1], fun _ => rfl,
      List.Perm.refl _⟩

/-- A piece that is reported and skipped. -/
theorem Outcome.Covers.report {o : Outcome} {before : List Lexeme} {ps : List Piece}
    (h : o.Covers before ps) (e : SyntaxError) : (o.report e).Covers before (e.piece :: ps) := by
  intro d hd
  obtain ⟨hvalid, hstart, taken, hsub, hlexemes, _, hperm⟩ := h d hd
  refine ⟨hvalid, hstart, taken, hsub.trans ?_, hlexemes, (fun herrors => by cases herrors), ?_⟩
  · exact (List.sublist_cons_self e.piece ps).filterMap _
  · exact (hperm.cons e.piece).trans List.perm_middle.symm

theorem proceed_covers {x : Lexeme} {s : Stack} {next : Stack → Option Lexeme → Outcome}
    {ps : List Piece} {r : Response} (hs : s.Sound) (hr : r.Follows x s.lexemes)
    (hnext : ∀ s' latest, s'.Sound → (next s' latest).Covers s'.lexemes ps) :
    (proceed x s next r).Covers s.lexemes (.lexeme x :: ps) := by
  cases r with
  | accepted d => exact (hnext s none hs).report (.refused x (expected s))
  | refused s' =>
    have h := (hnext s' none hr.1).report (.refused x (expected s'))
    rwa [hr.2] at h
  | shifted s' =>
    intro d hd
    obtain ⟨hvalid, hstart, taken, hsub, hlexemes, hall, hperm⟩ := hnext s' (some x) hr.1 d hd
    refine ⟨hvalid, hstart, x :: taken, hsub.cons_cons x, ?_, ?_, hperm.cons (.lexeme x)⟩
    · rw [hlexemes, hr.2, List.append_assoc, List.singleton_append]
    · intro herrors
      rw [hall herrors, List.map_cons]

theorem runPieces_covers (source : List Char) (ps : List Piece) :
    ∀ (s : Stack) (previous latest : Option Lexeme), s.Sound →
      (runPieces source ps s previous latest).Covers s.lexemes ps := by
  induction ps with
  | nil =>
    intro s previous latest hs
    exact conclude_covers (feedWithin_follows _ _ s hs)
  | cons p ps ih =>
    intro s previous latest hs
    cases p with
    | stray c m => exact (ih s previous none hs).report (.stray source c m _ previous)
    | lexeme x =>
      rw [runPieces]
      exact proceed_covers hs (feedWithin_follows _ _ s hs)
        fun s' latest' hs' => ih s' (some x) latest' hs'

/-- What the parser finds in spite of errors is a derivation of a whole file over some of the
lexemes of the source. -/
theorem valid_of_recovering {source : String} {d : Derivation}
    (h : (recovering source).result = .ok d) : d.Valid ∧ d.symbol = .phrase .start ∧
      d.lexemes.Sublist (lexemesIn ((Piece.ofSource source).filter Piece.isSignificant)) := by
  obtain ⟨hvalid, hstart, taken, hsub, hlexemes, _⟩ :=
    runPieces_covers source.toList _ [] none none Stack.sound_nil d h
  rw [hlexemes]
  exact ⟨hvalid, hstart, hsub⟩

/-- Of the pieces of a source that have a meaning, those that are not reported make up the
derivation. -/
theorem perm_of_recovering {source : String} {d : Derivation}
    (h : (recovering source).result = .ok d) :
    ((Piece.ofSource source).filter Piece.isSignificant).Perm
      (d.lexemes.map .lexeme ++ (recovering source).errors.map SyntaxError.piece) := by
  obtain ⟨_, _, taken, _, hlexemes, _, hperm⟩ :=
    runPieces_covers source.toList _ [] none none Stack.sound_nil d h
  rw [hlexemes]
  exact hperm

/-- What the parser finds without errors is a derivation of a whole file over all lexemes of the
source. -/
theorem valid_of_strict {source : String} {d : Derivation} (h : strict source = .ok d) :
    d.Valid ∧ d.symbol = .phrase .start ∧
      (Piece.ofSource source).filter Piece.isSignificant = d.lexemes.map .lexeme := by
  rw [strict, Outcome.first] at h
  split at h
  case h_2 => cases h
  case h_1 herrors =>
    obtain ⟨hvalid, hstart, taken, _, hlexemes, hall, _⟩ :=
      runPieces_covers source.toList _ [] none none Stack.sound_nil d h
    rw [hlexemes]
    exact ⟨hvalid, hstart, hall herrors⟩

theorem recovering_of_strict {source : String} {d : Derivation} (h : strict source = .ok d) :
    (recovering source).result = .ok d := by
  rw [strict, Outcome.first] at h
  split at h
  case h_2 => cases h
  case h_1 => exact h

end Parse

end GrammarServer
