import GrammarServer.Proofs.Parse.Patience

/-!
# What the states of the automaton stand for

A state stands for marked productions, each with the terminals that can follow it there. The
actions of the automaton agree with them: a symbol that a marked production expects leads to a
state in which it has been read, the productions of an expected phrase can be begun, and a
completed production is reduced before each terminal that can follow it. The one exception is a
phrase that could also go on with a name, which then does.

The other way round, what a state has read can be traced back: over each edge that leads to it, to
a state in which the same productions are marked one symbol earlier.
-/
namespace GrammarServer.Automaton

@[irreducible] def table : List (Core × List TerminalSet) := cores.zip (lookaheads cores)

theorem automaton_eq_table :
    automaton = (table.map fun (core, sets) => stateOf core sets).toArray := by
  unfold automaton table
  rfl

/-- The marked productions of a state, those that can be begun in it included. -/
def itemsOf (core : Core) (sets : List TerminalSet) : List (Marked × TerminalSet) :=
  (core.kernel.zip sets).flatMap fun (a, s) =>
    (a, s) :: Phrase.all.flatMap fun p =>
      match expectedWith a p with
      | none => []
      | some _ => (Marked.openingOf.of p).map fun b => (b, followOf a s p)

def Marked.same (a b : Marked) : Bool :=
  a.number == b.number && a.passed == b.passed && a.rest == b.rest

def following (m : Marked) : List (Marked × TerminalSet) → TerminalSet
  | [] => 0
  | (a, s) :: rest => if a.same m then s ||| following m rest else following m rest

def covers (items : List (Marked × TerminalSet)) (m : Marked) (s : TerminalSet) : Bool :=
  s &&& following m items == s

/-- Whether a phrase goes on with a terminal rather than ending before it. -/
def goesOnWith (p : Phrase) (t : Terminal) : Bool :=
  (p == .expansion || p == .declare) && (t == .ruleName || t == .terminalName)

def State.shift? (state : State) (t : Terminal) : Option Nat :=
  match state.actions.lookup t with
  | some (.shift n) => some n
  | _ => none

def State.reduce? (state : State) (t : Terminal) : Option Production :=
  match state.actions.lookup t with
  | some (.reduce q) => some q
  | _ => none

def State.accepts (state : State) (t : Terminal) : Bool :=
  match state.actions.lookup t with
  | some .accept => true
  | _ => false

def Marked.next (m : Marked) : Marked := ⟨m.number, m.passed + 1, m.rest.tail⟩

def reachedIn (m : Marked) (s : TerminalSet) : Option (Core × List TerminalSet) → Bool
  | some (core, sets) => covers (core.kernel.zip sets) m s
  | none => false

def agreesWith (state : State) (items : List (Marked × TerminalSet)) (m : Marked)
    (s : TerminalSet) : Bool :=
  match m.rest with
  | [] =>
    Terminal.inNameOrder.all fun t => !s.holds t ||
      match Production.all[m.number]? with
      | some q => goesOnWith q.left t || state.reduce? t == some q
      | none => state.accepts t
  | .terminal t :: _ =>
    match state.shift? t with
    | some n => reachedIn m.next s table[n]?
    | none => false
  | .phrase p :: rest =>
    (match state.gotos.lookup p with
     | some n => reachedIn m.next s table[n]?
     | none => false) &&
    Production.all.zipIdx.all fun (q, i) =>
      q.left != p ||
        covers items ⟨i, 0, q.right⟩ (firstOf rest ||| if canBeEmpty rest then s else 0)

def entryAgrees (entry : Core × List TerminalSet) : Bool :=
  let items := itemsOf entry.1 entry.2
  items.all fun (m, s) => agreesWith (stateOf entry.1 entry.2) items m s

def startsAgree : Bool :=
  Production.all.all fun q =>
    (!canBeEmpty q.right || emptyPhrases.of q.left) &&
    firstOf q.right &&& firstOfPhrases.of q.left == firstOf q.right

def acceptsIn : Option (Core × List TerminalSet) → Bool
  | some (core, sets) => (stateOf core sets).accepts .endOfInput
  | none => false

/-- Whether the first state begins a whole file, which alone leads to acceptance from there. -/
def originAgrees : Option (Core × List TerminalSet) → Bool
  | some (core, sets) =>
    covers (itemsOf core sets) .whole (.single .endOfInput) &&
    core.edges.all fun (x, n) => x == .phrase .start || !acceptsIn table[n]?
  | none => false

def agrees : Bool := startsAgree && originAgrees table[0]? && table.all entryAgrees

/-! ## How the states are reached -/

/-- Whether each production of the state behind an edge is marked one symbol earlier before it. -/
def retracedIn (x : Symbol) (items : List (Marked × TerminalSet)) :
    Option (Core × List TerminalSet) → Bool
  | some (core, _) => core.kernel.all fun m =>
      m.passed != 0 && items.any fun a => a.1.same ⟨m.number, m.passed - 1, x :: m.rest⟩
  | none => false

/-- Whether a production that is begun in a state can be gone on with once it has been read. -/
def beginsIn (n : Nat) (state : State) (m : Marked) : Bool :=
  match Production.all[m.number]? with
  | some q => m.rest == q.right && (state.gotos.lookup q.left).isSome
  | none => n == 0 && m.rest == [.phrase .start]

/-- Whether at most so many empty phrases can be read one after another from a state on. -/
def restsWithin : Nat → Option (Core × List TerminalSet) → Bool
  | _, none => true
  | 0, some (core, _) => core.edges.all fun (x, _) => !x.isVacant
  | k + 1, some (core, _) => core.edges.all fun (x, n) => !x.isVacant || restsWithin k table[n]?

/-- Whether a state ends no phrase that goes on instead, and at the end of the input takes nothing
more and only there accepts. -/
def actsInTime (state : State) : Bool :=
  Terminal.inNameOrder.all fun t =>
    match state.actions.lookup t with
    | some (.reduce q) => !goesOnWith q.left t
    | some (.shift _) => t != .endOfInput
    | some .accept => t == .endOfInput
    | none => true

def entryIsReached (n : Nat) (entry : Core × List TerminalSet) : Bool :=
  let items := itemsOf entry.1 entry.2
  let state := stateOf entry.1 entry.2
  (entry.1.edges.all fun (x, n') => n' != 0 && retracedIn x items table[n']?) &&
  (items.all fun (m, _) =>
    if m.passed = 0 then beginsIn n state m else n != 0 && entry.1.kernel.any m.same) &&
  restsWithin 2 (some entry) && actsInTime state

def isReached : Bool := table.zipIdx.all fun (entry, n) => entryIsReached n entry

/-- The table is computed once for both. -/
theorem agrees_and_isReached : (agrees && isReached) = true := by decide +kernel

theorem agrees_eq_true : agrees = true := (Bool.and_eq_true_iff.mp agrees_and_isReached).1

/-! ## What a state holds -/

/-- The state with a number has this marked production, and the terminal can follow it there. -/
def Holds (n : Nat) (m : Marked) (t : Terminal) : Prop :=
  ∃ core sets s, table[n]? = some (core, sets) ∧ (m, s) ∈ itemsOf core sets ∧ s.holds t = true

theorem Marked.eq_of_same {a b : Marked} (h : a.same b = true) : a = b := by
  obtain ⟨number, passed, rest⟩ := a
  obtain ⟨number', passed', rest'⟩ := b
  simp only [Marked.same, Bool.and_eq_true, beq_iff_eq] at h
  obtain ⟨⟨rfl, rfl⟩, rfl⟩ := h
  rfl

theorem mem_of_following_holds {m : Marked} {t : Terminal} (items : List (Marked × TerminalSet))
    (h : (following m items).holds t = true) : ∃ s, (m, s) ∈ items ∧ s.holds t = true := by
  induction items with
  | nil => simp [following, TerminalSet.holds] at h
  | cons item rest ih =>
    obtain ⟨a, s⟩ := item
    rw [following] at h
    split at h
    · rename_i hsame
      rw [TerminalSet.holds, Nat.testBit_or, Bool.or_eq_true] at h
      rcases h with hs | hrest
      · exact ⟨s, by simp [Marked.eq_of_same hsame], hs⟩
      · obtain ⟨s', hmem, hs'⟩ := ih hrest
        exact ⟨s', List.mem_cons_of_mem _ hmem, hs'⟩
    · obtain ⟨s', hmem, hs'⟩ := ih h
      exact ⟨s', List.mem_cons_of_mem _ hmem, hs'⟩

theorem mem_of_covers {items : List (Marked × TerminalSet)} {m : Marked} {s : TerminalSet}
    {t : Terminal} (h : covers items m s = true) (ht : s.holds t = true) :
    ∃ s', (m, s') ∈ items ∧ s'.holds t = true := by
  apply mem_of_following_holds
  rw [covers, beq_iff_eq] at h
  rw [TerminalSet.holds, ← h, Nat.testBit_and, Bool.and_eq_true] at ht
  exact ht.2

theorem mem_itemsOf_of_mem_kernel {core : Core} {sets : List TerminalSet} {m : Marked}
    {s : TerminalSet} (h : (m, s) ∈ core.kernel.zip sets) : (m, s) ∈ itemsOf core sets :=
  List.mem_flatMap.mpr ⟨(m, s), h, List.mem_cons_self⟩

theorem exists_of_reachedIn {m : Marked} {s : TerminalSet} {t : Terminal}
    {entry : Option (Core × List TerminalSet)} (h : reachedIn m s entry = true)
    (ht : s.holds t = true) : ∃ core sets s', entry = some (core, sets) ∧
      (m, s') ∈ itemsOf core sets ∧ s'.holds t = true := by
  cases entry with
  | none => simp [reachedIn] at h
  | some entry =>
    obtain ⟨s', hmem, hs'⟩ := mem_of_covers h ht
    exact ⟨entry.1, entry.2, s', rfl, mem_itemsOf_of_mem_kernel hmem, hs'⟩

theorem automaton_getElem? (n : Nat) :
    automaton[n]? = (table[n]?).map fun entry => stateOf entry.1 entry.2 := by
  rw [automaton_eq_table]
  simp

theorem mem_inNameOrder (t : Terminal) : t ∈ Terminal.inNameOrder := by
  cases t <;> decide

theorem startsAgree_eq_true : startsAgree = true := by
  have h := agrees_eq_true
  simp only [agrees, Bool.and_eq_true] at h
  exact h.1.1

theorem originAgrees_eq_true : originAgrees table[0]? = true := by
  have h := agrees_eq_true
  simp only [agrees, Bool.and_eq_true] at h
  exact h.1.2

theorem entryAgrees_eq_true {n : Nat} {core : Core} {sets : List TerminalSet}
    (h : table[n]? = some (core, sets)) : entryAgrees (core, sets) = true := by
  have hall := agrees_eq_true
  simp only [agrees, Bool.and_eq_true] at hall
  exact List.all_eq_true.mp hall.2 _ (List.mem_of_getElem? h)

/-- Each item of a state agrees with the state's actions. -/
theorem Holds.agreesWith {n : Nat} {m : Marked} {t : Terminal} (h : Holds n m t) :
    ∃ core sets s, automaton[n]? = some (stateOf core sets) ∧ table[n]? = some (core, sets) ∧
      s.holds t = true ∧ agreesWith (stateOf core sets) (itemsOf core sets) m s = true := by
  obtain ⟨core, sets, s, hn, hmem, ht⟩ := h
  have hentry := entryAgrees_eq_true hn
  refine ⟨core, sets, s, by rw [automaton_getElem?, hn]; rfl, hn, ht, ?_⟩
  exact List.all_eq_true.mp hentry _ hmem

theorem State.lookup_of_shift? {state : State} {t : Terminal} {n : Nat}
    (h : state.shift? t = some n) : state.actions.lookup t = some (.shift n) := by
  unfold State.shift? at h
  split at h
  · rename_i n' hn'
    rw [hn', Option.some.inj h]
  · cases h

theorem State.lookup_of_reduce? {state : State} {t : Terminal} {q : Production}
    (h : state.reduce? t = some q) : state.actions.lookup t = some (.reduce q) := by
  unfold State.reduce? at h
  split at h
  · rename_i q' hq'
    rw [hq', Option.some.inj h]
  · cases h

theorem State.lookup_of_accepts {state : State} {t : Terminal}
    (h : state.accepts t = true) : state.actions.lookup t = some .accept := by
  unfold State.accepts at h
  split at h
  · assumption
  · cases h

/-- An expected terminal is shifted. -/
theorem Holds.shift {n : Nat} {m : Marked} {t u : Terminal} {rest : List Symbol}
    (h : Holds n m t) (hm : m.rest = .terminal u :: rest) :
    ∃ state n', automaton[n]? = some state ∧ state.actions.lookup u = some (.shift n') ∧
      Holds n' m.next t := by
  obtain ⟨core, sets, s, hstate, hn, ht, hagree⟩ := h.agreesWith
  rw [Automaton.agreesWith, hm] at hagree
  cases hshift : (stateOf core sets).shift? u with
  | none => simp [hshift] at hagree
  | some n' =>
    simp only [hshift] at hagree
    obtain ⟨core', sets', s', hn', hmem, hs'⟩ := exists_of_reachedIn hagree ht
    exact ⟨_, n', hstate, State.lookup_of_shift? hshift, core', sets', s', hn', hmem, hs'⟩

/-- An expected phrase, once read, leads on. -/
theorem Holds.goto {n : Nat} {m : Marked} {t : Terminal} {p : Phrase} {rest : List Symbol}
    (h : Holds n m t) (hm : m.rest = .phrase p :: rest) :
    ∃ state n', automaton[n]? = some state ∧ state.gotos.lookup p = some n' ∧
      Holds n' m.next t := by
  obtain ⟨core, sets, s, hstate, hn, ht, hagree⟩ := h.agreesWith
  rw [Automaton.agreesWith, hm] at hagree
  simp only [Bool.and_eq_true] at hagree
  cases hgoto : (stateOf core sets).gotos.lookup p with
  | none => simp [hgoto] at hagree
  | some n' =>
    simp only [hgoto] at hagree
    obtain ⟨core', sets', s', hn', hmem, hs'⟩ := exists_of_reachedIn hagree.1 ht
    exact ⟨_, n', hstate, hgoto, core', sets', s', hn', hmem, hs'⟩

/-- The productions of an expected phrase can be begun, before whatever can follow the phrase. -/
theorem Holds.begin {n : Nat} {m : Marked} {t u : Terminal} {p : Phrase} {rest : List Symbol}
    {i : Nat} {q : Production} (h : Holds n m t) (hm : m.rest = .phrase p :: rest)
    (hq : Production.all[i]? = some q) (hp : q.left = p)
    (hu : (firstOf rest).holds u = true ∨ canBeEmpty rest = true ∧ u = t) :
    Holds n ⟨i, 0, q.right⟩ u := by
  obtain ⟨core, sets, s, hstate, hn, ht, hagree⟩ := h.agreesWith
  rw [Automaton.agreesWith, hm] at hagree
  simp only [Bool.and_eq_true] at hagree
  have hmem : (q, i) ∈ Production.all.zipIdx := by
    rw [List.mem_zipIdx_iff_getElem?]
    exact hq
  have hcovers := List.all_eq_true.mp hagree.2 _ hmem
  simp only [hp, bne_self_eq_false, Bool.false_or] at hcovers
  have hset : TerminalSet.holds (firstOf rest ||| if canBeEmpty rest then s else 0) u = true := by
    rw [TerminalSet.holds, Nat.testBit_or, Bool.or_eq_true]
    rcases hu with hfirst | ⟨hempty, rfl⟩
    · exact Or.inl hfirst
    · exact Or.inr (by rw [if_pos hempty]; exact ht)
  obtain ⟨s', hs', hu'⟩ := mem_of_covers hcovers hset
  exact ⟨core, sets, s', hn, hs', hu'⟩

/-- A completed production is reduced, unless its phrase goes on. -/
theorem Holds.reduce {n : Nat} {m : Marked} {t : Terminal} {q : Production}
    (h : Holds n m t) (hm : m.rest = []) (hq : Production.all[m.number]? = some q)
    (ht : goesOnWith q.left t = false) :
    ∃ state, automaton[n]? = some state ∧ state.actions.lookup t = some (.reduce q) := by
  obtain ⟨core, sets, s, hstate, hn, hs, hagree⟩ := h.agreesWith
  rw [Automaton.agreesWith, hm] at hagree
  have hhere := List.all_eq_true.mp hagree t (mem_inNameOrder t)
  simp only [hs, hq, ht, Bool.not_true, Bool.false_or, beq_iff_eq] at hhere
  exact ⟨_, hstate, State.lookup_of_reduce? hhere⟩

/-- A whole file is accepted. -/
theorem Holds.accept {n : Nat} {m : Marked} {t : Terminal} (h : Holds n m t) (hm : m.rest = [])
    (hwhole : m.number = Production.all.length) :
    ∃ state, automaton[n]? = some state ∧ state.actions.lookup t = some .accept := by
  obtain ⟨core, sets, s, hstate, hn, hs, hagree⟩ := h.agreesWith
  rw [Automaton.agreesWith, hm] at hagree
  have hhere := List.all_eq_true.mp hagree t (mem_inNameOrder t)
  have hnone : Production.all[m.number]? = none := by
    rw [hwhole]
    exact List.getElem?_eq_none (Nat.le_refl _)
  simp only [hs, hnone, Bool.not_true, Bool.false_or] at hhere
  exact ⟨_, hstate, State.lookup_of_accepts hhere⟩

theorem holds_whole : Holds 0 .whole .endOfInput := by
  have h := originAgrees_eq_true
  cases hentry : table[0]? with
  | none => rw [hentry] at h; cases h
  | some entry =>
    rw [hentry] at h
    simp only [originAgrees, Bool.and_eq_true] at h
    obtain ⟨s, hmem, hs⟩ := mem_of_covers h.1 (t := .endOfInput) (by decide)
    exact ⟨entry.1, entry.2, s, hentry, hmem, hs⟩

end GrammarServer.Automaton
