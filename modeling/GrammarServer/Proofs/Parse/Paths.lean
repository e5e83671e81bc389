import GrammarServer.Proofs.Parse.Complete
import GrammarServer.Proofs.Parse.Sound

/-!
# Stacks are paths

The states on a stack follow the edges of the automaton. So what a state has read can be found on
top of the stack: a reduction that the automaton asks for can always be made, and only a whole file
is accepted, at the end of the input. Between two lexemes that are taken only a few reductions can
be made, even if others are dropped in between.
-/
namespace GrammarServer

namespace Automaton

def Leads (n : Nat) (x : Symbol) (n' : Nat) : Prop :=
  ∃ core sets, table[n]? = some (core, sets) ∧ (x, n') ∈ core.edges

def Has (n : Nat) (m : Marked) : Prop :=
  ∃ core sets s, table[n]? = some (core, sets) ∧ (m, s) ∈ itemsOf core sets

/-! ## Tracing back -/

/-- What holds of every state by the way it is reached. -/
structure Reached (n : Nat) (core : Core) (sets : List TerminalSet) : Prop where
  edges : ∀ x n', (x, n') ∈ core.edges →
    n' ≠ 0 ∧ retracedIn x (itemsOf core sets) table[n']? = true
  begun : ∀ m s, (m, s) ∈ itemsOf core sets → m.passed = 0 →
    beginsIn n (stateOf core sets) m = true
  passed : ∀ m s, (m, s) ∈ itemsOf core sets → m.passed ≠ 0 → n ≠ 0 ∧ m ∈ core.kernel
  rests : restsWithin 2 (some (core, sets)) = true
  inTime : actsInTime (stateOf core sets) = true

theorem reached {n : Nat} {core : Core} {sets : List TerminalSet}
    (h : table[n]? = some (core, sets)) : Reached n core sets := by
  have hall := (Bool.and_eq_true_iff.mp agrees_and_isReached).2
  have hentry : entryIsReached n (core, sets) = true :=
    List.all_eq_true.mp hall ((core, sets), n) (List.mem_zipIdx_iff_getElem?.mpr h)
  simp only [entryIsReached, Bool.and_eq_true, List.all_eq_true] at hentry
  obtain ⟨⟨⟨hedges, hitems⟩, hrests⟩, hinTime⟩ := hentry
  refine ⟨?_, ?_, ?_, hrests, hinTime⟩
  · intro x n' hedge
    have hx := hedges (x, n') hedge
    simpa using hx
  · intro m s hm hpassed
    have hbegins := hitems (m, s) hm
    rwa [if_pos hpassed] at hbegins
  · intro m s hm hpassed
    have hkernel := hitems (m, s) hm
    rw [if_neg hpassed, Bool.and_eq_true, bne_iff_ne, List.any_eq_true] at hkernel
    obtain ⟨hn, a, ha, hsame⟩ := hkernel
    have heq : m = a := Marked.eq_of_same hsame
    exact ⟨hn, heq ▸ ha⟩

theorem Leads.ne_zero {n n' : Nat} {x : Symbol} (h : Leads n x n') : n' ≠ 0 := by
  obtain ⟨core, sets, hn, hedge⟩ := h
  exact ((reached hn).edges x n' hedge).1

theorem Has.passed_eq_zero {m : Marked} (h : Has 0 m) : m.passed = 0 := by
  obtain ⟨core, sets, s, hn, hmem⟩ := h
  rcases Nat.eq_zero_or_pos m.passed with hpassed | hpassed
  · exact hpassed
  · exact absurd rfl ((reached hn).passed m s hmem (by omega)).1

/-- What a state has read was read over the edge that leads to it. -/
theorem Has.back {n n' : Nat} {x : Symbol} {m : Marked} (h : Has n' m) (hpassed : m.passed ≠ 0)
    (hleads : Leads n x n') : Has n ⟨m.number, m.passed - 1, x :: m.rest⟩ := by
  obtain ⟨core, sets, s, hn', hmem⟩ := h
  obtain ⟨before, sets', hn, hedge⟩ := hleads
  have hkernel := ((reached hn').passed m s hmem hpassed).2
  have hretraced := ((reached hn).edges x n' hedge).2
  rw [hn', retracedIn, List.all_eq_true] at hretraced
  have hm := (Bool.and_eq_true_iff.mp (hretraced m hkernel)).2
  obtain ⟨⟨a, s'⟩, ha, hsame⟩ := List.any_eq_true.mp hm
  exact ⟨before, sets', s', hn, Marked.eq_of_same hsame ▸ ha⟩

/-! ## What an action is about -/

theorem exists_item_of_completed {core : Core} {sets : List TerminalSet} {i : Nat}
    {s : TerminalSet} (h : (i, s) ∈ completed core sets) :
    ∃ m s', (m, s') ∈ itemsOf core sets ∧ m.number = i ∧ m.rest = [] := by
  obtain ⟨⟨a, s'⟩, ha, hmem⟩ := List.mem_flatMap.mp h
  rcases List.mem_append.mp hmem with hmem | hmem
  · split at hmem
    case isTrue hrest =>
      obtain ⟨rfl, rfl⟩ := Prod.mk.inj (List.mem_singleton.mp hmem)
      exact ⟨a, _, mem_itemsOf_of_mem_kernel ha, rfl, List.isEmpty_iff.mp hrest⟩
    case isFalse => cases hmem
  · obtain ⟨p, hp, hmem⟩ := List.mem_flatMap.mp hmem
    split at hmem
    case h_1 => cases hmem
    case h_2 c hc =>
      obtain ⟨b, hb, heq⟩ := List.mem_map.mp hmem
      obtain ⟨rfl, rfl⟩ := Prod.mk.inj heq
      obtain ⟨hb, hrest⟩ := List.mem_filter.mp hb
      refine ⟨b, followOf a s' p, List.mem_flatMap.mpr ⟨(a, s'), ha, ?_⟩, rfl,
        List.isEmpty_iff.mp hrest⟩
      refine List.mem_cons_of_mem _ (List.mem_flatMap.mpr ⟨p, hp, ?_⟩)
      simp only [hc]
      exact List.mem_map_of_mem hb

/-- What a state does once a production has been read; there is none for a whole file. -/
def endingOf : Option Production → Action
  | some q => .reduce q
  | none => .accept

/-- An action other than a shift is about a production that has been read. -/
theorem exists_item_of_action {core : Core} {sets : List TerminalSet} {t : Terminal} {a : Action}
    (h : (stateOf core sets).actions.lookup t = some a) (hshift : ∀ n, a ≠ .shift n) :
    ∃ m s, (m, s) ∈ itemsOf core sets ∧ m.rest = [] ∧ a = endingOf Production.all[m.number]? := by
  have ha := actionOf_of_lookup h
  unfold actionOf at ha
  split at ha
  · cases ha
    exact absurd rfl (hshift _)
  · split at ha
    · cases ha
    · rename_i i s hfind
      obtain ⟨m, s', hm, rfl, hrest⟩ := exists_item_of_completed (List.mem_of_find?_eq_some hfind)
      refine ⟨m, s', hm, hrest, ?_⟩
      split at ha
      · rename_i q hq
        rw [hq, ← Option.some.inj ha, endingOf]
      · rename_i hq
        rw [hq, ← Option.some.inj ha, endingOf]

end Automaton

open Automaton

namespace Parse.Stack

/-! ## Paths -/

/-- Each state on a stack is reached from the one below it over the symbol read between them. -/
def IsPath : Stack → Prop
  | [] => True
  | (n, d) :: s => Leads (state s) d.symbol n ∧ IsPath s

theorem exists_has_of_action {s : Stack} {t : Terminal} {a : Action}
    (h : s.actions.lookup t = some a) (hshift : ∀ n, a ≠ .shift n) :
    ∃ m, Has s.state m ∧ m.rest = [] ∧ a = endingOf Production.all[m.number]? := by
  obtain ⟨core, sets, hentry, hlookup⟩ := exists_table_of_actions h
  obtain ⟨m, s', hm, hrest, hproduction⟩ := exists_item_of_action hlookup hshift
  exact ⟨m, ⟨core, sets, s', hentry, hm⟩, hrest, hproduction⟩

theorem IsPath.shift {s : Stack} {x : Lexeme} {n : Nat} (hs : s.IsPath)
    (h : s.actions.lookup x.terminal = some (.shift n)) : IsPath ((n, .leaf x) :: s) := by
  obtain ⟨core, sets, hentry, hlookup⟩ := exists_table_of_actions h
  exact ⟨⟨core, sets, hentry, mem_edges_of_shift hlookup⟩, hs⟩

/-- Only the empty stack is in the first state. -/
theorem IsPath.eq_nil {s : Stack} (hs : s.IsPath) (h : s.state = 0) : s = [] := by
  cases s with
  | nil => rfl
  | cons e s => exact absurd h hs.1.ne_zero

/-- What the topmost state has read stands on top of the stack. The production was begun in the
state below. -/
theorem IsPath.traceBack (k : Nat) : ∀ {s : Stack} {m : Marked}, s.IsPath → Has s.state m →
    m.passed = k → ∃ top below : Stack, s = top ++ below ∧ top.length = k ∧ below.IsPath ∧
      Has below.state ⟨m.number, 0, (top.map (·.2.symbol)).reverse ++ m.rest⟩ := by
  induction k with
  | zero =>
    rintro s ⟨number, passed, rest⟩ hs hm rfl
    exact ⟨[], s, rfl, rfl, hs, hm⟩
  | succ k ih =>
    intro s m hs hm hpassed
    cases s with
    | nil => exact absurd (Has.passed_eq_zero hm) (by omega)
    | cons e s =>
      have hback := hm.back (by omega) hs.1
      obtain ⟨top, below, rfl, hlength, hbelow, hbegun⟩ := ih hs.2 hback (by simp only; omega)
      refine ⟨e :: top, below, rfl, by rw [List.length_cons, hlength], hbelow, ?_⟩
      simpa using hbegun

/-- A reduction that the automaton asks for can be made. -/
theorem IsPath.reduce {s : Stack} {t : Terminal} {q : Production} (hs : s.IsPath)
    (h : s.actions.lookup t = some (.reduce q)) : ∃ s', s.reduce q = some s' ∧ s'.IsPath := by
  obtain ⟨m, hm, hrest, hproduction⟩ := exists_has_of_action h (by simp)
  obtain ⟨top, below, rfl, hlength, hbelow, core, sets, set, hentry, hmem⟩ :=
    hs.traceBack m.passed hm rfl
  have hbegins := (reached hentry).begun _ _ hmem rfl
  unfold beginsIn at hbegins
  cases hq : Production.all[m.number]? with
  | none =>
    rw [hq] at hproduction
    cases hproduction
  | some q' =>
    rw [hq] at hproduction
    obtain rfl := Action.reduce.inj hproduction
    simp only [hq, hrest, List.append_nil, Bool.and_eq_true, beq_iff_eq] at hbegins
    obtain ⟨n, hn⟩ := Option.isSome_iff_exists.mp hbegins.2
    have hgoto : below.goto q.left = some n := by
      rw [goto, automaton_getElem?, hentry]
      exact hn
    refine ⟨_, reduce_append (List.reverse_reverse _).symm ?_ hgoto, ?_⟩
    · rw [List.map_reverse, List.map_map]
      exact hbegins.1
    · exact ⟨⟨core, sets, hentry, mem_edges_of_goto hn⟩, hbelow⟩

/-- Only a whole file is accepted, and only at the end of the input. -/
theorem IsPath.accept {s : Stack} {t : Terminal} (hs : s.IsPath)
    (h : s.actions.lookup t = some .accept) :
    t = .endOfInput ∧ ∃ n d, s = [(n, d)] := by
  obtain ⟨m, hm, hrest, hproduction⟩ := exists_has_of_action h (by simp)
  obtain ⟨top, below, rfl, hlength, hbelow, core, sets, set, hentry, hmem⟩ :=
    hs.traceBack m.passed hm rfl
  have hbegins := (reached hentry).begun _ _ hmem rfl
  unfold beginsIn at hbegins
  refine ⟨?_, ?_⟩
  · obtain ⟨core', sets', hentry', hlookup⟩ := exists_table_of_actions h
    have htime := List.all_eq_true.mp (reached hentry').inTime t (mem_inNameOrder t)
    simpa [hlookup] using htime
  · cases hq : Production.all[m.number]? with
    | some q =>
      rw [hq] at hproduction
      cases hproduction
    | none =>
      simp only [hq, hrest, List.append_nil, Bool.and_eq_true, beq_iff_eq] at hbegins
      obtain rfl := hbelow.eq_nil hbegins.1
      obtain ⟨⟨n, d⟩, rfl⟩ : ∃ e, top = [e] := by
        apply List.length_eq_one_iff.mp
        simpa using congrArg List.length hbegins.2
      exact ⟨n, d, rfl⟩

/-- Nothing is taken at the end of the input. -/
theorem ne_endOfInput_of_shift {s : Stack} {t : Terminal} {n : Nat}
    (h : s.actions.lookup t = some (.shift n)) : t ≠ .endOfInput := by
  obtain ⟨core, sets, hentry, hlookup⟩ := exists_table_of_actions h
  have htime := List.all_eq_true.mp (reached hentry).inTime t (mem_inNameOrder t)
  simpa [hlookup] using htime

/-- A phrase that goes on with a terminal is not ended before it. -/
theorem not_goesOnWith_of_reduce {s : Stack} {t : Terminal} {q : Production}
    (h : s.actions.lookup t = some (.reduce q)) : goesOnWith q.left t = false := by
  obtain ⟨core, sets, hentry, hlookup⟩ := exists_table_of_actions h
  have htime := List.all_eq_true.mp (reached hentry).inTime t (mem_inNameOrder t)
  simpa [hlookup] using htime

/-! ## Reductions since the last lexeme -/

/-- How many reductions were made since the last lexeme was taken. -/
def delay (s : Stack) : Nat := Derivation.delayOfAll (s.map (·.2)).reverse 0

/-- Replaces as much of the top of a stack as the right side of a production is long by its left
side, whatever stands there. -/
def pop (s : Stack) (q : Production) : Option Stack :=
  let below : Stack := s.drop q.right.length
  (below.goto q.left).map fun n =>
    (n, .node q ((s.take q.right.length).map (·.2)).reverse) :: below

def vacancies : Stack → Nat
  | [] => 0
  | (_, d) :: s => if d.lexemes = [] then vacancies s + 1 else 0

end Parse.Stack

theorem Derivation.delayOfAll_append (ds es : List Derivation) (k : Nat) :
    delayOfAll (ds ++ es) k = delayOfAll es (delayOfAll ds k) := by
  induction ds generalizing k with
  | nil => rfl
  | cons d ds ih => rw [List.cons_append, delayOfAll, ih, delayOfAll]

namespace Parse.Stack

theorem delay_cons (n : Nat) (d : Derivation) (s : Stack) :
    delay ((n, d) :: s) = d.delay s.delay := by
  rw [delay, List.map_cons, List.reverse_cons, Derivation.delayOfAll_append]
  rfl

theorem pop_of_reduce {s s' : Stack} {q : Production} (h : s.reduce q = some s') :
    s.pop q = some s' := by
  simp only [Stack.reduce] at h
  split at h
  case isFalse => cases h
  case isTrue => exact h

/-- A reduction keeps what a stack covers and counts as one more. -/
theorem lexemes_delay_pop {s s' : Stack} {q : Production} (h : s.pop q = some s') :
    s'.lexemes = s.lexemes ∧ s'.delay = s.delay + 1 := by
  obtain ⟨n, _, rfl⟩ := Option.map_eq_some_iff.mp h
  have hsplit := List.take_append_drop q.right.length s
  refine ⟨?_, ?_⟩
  · replace hsplit := congrArg lexemes hsplit
    rw [lexemes_append] at hsplit
    rw [lexemes_cons, Derivation.lexemes, ← hsplit, lexemes, lexemes]
  · replace hsplit := congrArg delay hsplit
    rw [delay, List.map_append, List.reverse_append, Derivation.delayOfAll_append] at hsplit
    rw [delay_cons, Derivation.delay, ← hsplit, delay]

/-- No more than two derivations in a row cover no lexeme. -/
theorem IsPath.vacancies_le {s : Stack} (hs : s.IsPath) (hvalid : ∀ e ∈ s, e.2.Valid) :
    s.vacancies ≤ 2 ∧ restsWithin (2 - s.vacancies) table[s.state]? = true := by
  induction s with
  | nil =>
    refine ⟨Nat.zero_le 2, ?_⟩
    cases hentry : table[0]? with
    | none => rw [state, hentry]; rfl
    | some entry => rw [state, hentry]; exact (reached hentry).rests
  | cons e s ih =>
    obtain ⟨hd, hrest⟩ := List.forall_mem_cons.mp hvalid
    obtain ⟨n, d⟩ := e
    obtain ⟨⟨core, sets, hentry, hedge⟩, hs⟩ := hs
    obtain ⟨hle, hwithin⟩ := ih hs hrest
    rw [vacancies]
    -- A derivation without lexemes uses up one of the steps that the table leaves; any other one
    -- starts the count again.
    by_cases hlex : d.lexemes = []
    · have hvacant : d.symbol.isVacant = true := ((Derivation.bounded_of_valid d hd).none hlex).1
      rw [if_pos hlex]
      rw [hentry] at hwithin
      cases hk : 2 - vacancies s with
      | zero =>
        rw [hk, restsWithin, List.all_eq_true] at hwithin
        simpa [hvacant] using hwithin _ hedge
      | succ k =>
        rw [hk, restsWithin, List.all_eq_true] at hwithin
        have hnext := hwithin _ hedge
        simp only [hvacant, Bool.not_true, Bool.false_or] at hnext
        refine ⟨by omega, ?_⟩
        rw [show 2 - (vacancies s + 1) = k by omega]
        exact hnext
    · rw [if_neg hlex]
      refine ⟨Nat.zero_le 2, ?_⟩
      cases hnext : table[n]? with
      | none => rw [state, hnext]; rfl
      | some entry => rw [state, hnext]; exact (reached hnext).rests

theorem delay_le_vacancies {s : Stack} (hvalid : ∀ e ∈ s, e.2.Valid) :
    s.delay ≤ 14 + 5 * s.vacancies := by
  induction s with
  | nil => exact Nat.zero_le _
  | cons e s ih =>
    obtain ⟨hd, hrest⟩ := List.forall_mem_cons.mp hvalid
    obtain ⟨n, d⟩ := e
    have hbounded := Derivation.bounded_of_valid d hd
    have hvacant : d.symbol.vacant ≤ 5 := by
      cases d.symbol with
      | terminal t => exact Nat.zero_le 5
      | phrase p => cases p <;> decide
    have hclosing : d.symbol.closing ≤ 14 := by
      cases d.symbol with
      | terminal t => exact Nat.zero_le 14
      | phrase p => cases p <;> decide
    rw [delay_cons, vacancies]
    by_cases hlex : d.lexemes = []
    · have hdelay := ((hbounded.none hlex).2 (delay s)).1
      have hbelow := ih hrest
      rw [if_pos hlex]
      omega
    · have hdelay := (hbounded.some hlex (delay s)).1
      rw [if_neg hlex]
      omega

/-! ## Stacks at work -/

/-- A stack as the parser has them: its derivations are valid, and it is a path. -/
structure Proper (s : Stack) : Prop where
  sound : s.Sound
  path : s.IsPath

theorem proper_nil : Proper [] := ⟨sound_nil, trivial⟩

theorem Proper.shift {s : Stack} {x : Lexeme} {n : Nat} (hs : s.Proper)
    (h : s.actions.lookup x.terminal = some (.shift n)) : Proper ((n, .leaf x) :: s) :=
  ⟨hs.sound.shift h, hs.path.shift h⟩

theorem Proper.reduce {s : Stack} {t : Terminal} {q : Production} (hs : s.Proper)
    (h : s.actions.lookup t = some (.reduce q)) : ∃ s', s.reduce q = some s' ∧ s'.Proper := by
  obtain ⟨s', hs', hpath⟩ := hs.path.reduce h
  exact ⟨s', hs', (hs.sound.reduce (mem_all_of_lookup h) hs').1, hpath⟩

theorem Proper.delay_le {s : Stack} (hs : s.Proper) : s.delay ≤ Derivation.delayLimit := by
  have hvacancies := (hs.path.vacancies_le hs.sound.valid).1
  have hdelay := delay_le_vacancies hs.sound.valid
  rw [Derivation.delayLimit]
  omega

end Parse.Stack

end GrammarServer
