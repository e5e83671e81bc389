import GrammarServer.Parse.Run

/-!
# Reductions between two lexemes

The parser makes only a bounded number of reductions between one lexeme and the next: those of
the phrases that end with the first, of the empty phrases between the two, and of the empty
phrases with which a phrase before the second one starts. No phrase ends with a phrase of its own
kind, so each of the three numbers depends on the phrase alone.
-/
namespace GrammarServer

namespace Derivation

mutual

/-- How many reductions were made since the last lexeme once a derivation has been read, if there
were `k` before it. -/
def delay : Derivation → Nat → Nat
  | leaf _, _ => 0
  | node _ children, k => delayOfAll children k + 1

def delayOfAll : List Derivation → Nat → Nat
  | [], k => k
  | d :: rest, k => delayOfAll rest (delay d k)

end

/-- More reductions than there ever are between two lexemes, and fewer than patience lasts. -/
def delayLimit : Nat := 60

mutual

def Prompt : Derivation → Nat → Prop
  | leaf _, k => k ≤ delayLimit
  | node _ children, k => AllPrompt children k ∧ delayOfAll children k < delayLimit

def AllPrompt : List Derivation → Nat → Prop
  | [], _ => True
  | d :: rest, k => Prompt d k ∧ AllPrompt rest (delay d k)

end

end Derivation

/-! ## Bounds for phrases -/

namespace Phrase

/-- Reductions that make up a phrase without lexemes; none for a phrase that always has some. -/
def vacant : Phrase → Nat
  | ruleModifiers | priority | templateParams | exprs => 1
  | expansion => 2
  | aliasing => 3
  | alternatives => 4
  | expansions => 5
  | _ => 0

/-- Reductions before the first lexeme of a phrase. -/
def opening : Phrase → Nat
  | start | list | item | rule | expansion | exprs => 1
  | aliasing => 2
  | alternatives | expansions => 4
  | _ => 0

/-- Reductions after the last lexeme of a phrase, its own included. -/
def closing : Phrase → Nat
  | terminal | nonterminal | literal | range | templateUsage | maybe | name | comment
  | ruleModifiers | priority | templateParams | templateParamNames => 1
  | value | symbol | importArgs | names => 2
  | templateArgs | atom | declareArgs | importLib | importRel | nameList => 3
  | expr | declare | importPath => 4
  | exprs | imports => 5
  | expansion => 6
  | aliasing => 7
  | alternatives => 8
  | expansions => 9
  | rule | term | ignore => 10
  | override | extend => 11
  | item => 12
  | list => 13
  | start => 14

end Phrase

namespace Symbol

def vacant : Symbol → Nat
  | .terminal _ => 0
  | .phrase p => p.vacant

def opening : Symbol → Nat
  | .terminal _ => 0
  | .phrase p => p.opening

def closing : Symbol → Nat
  | .terminal _ => 0
  | .phrase p => p.closing

def isVacant (x : Symbol) : Bool := x.vacant != 0

def vacantAll : List Symbol → Nat
  | [] => 0
  | x :: rest => x.vacant + vacantAll rest

def openingAll : List Symbol → Nat
  | [] => 0
  | x :: rest => if x.isVacant then max x.opening (x.vacant + openingAll rest) else x.opening

def closingAll : List Symbol → Nat
  | [] => 0
  | x :: rest =>
    if rest.all isVacant then max (x.closing + vacantAll rest) (closingAll rest)
    else closingAll rest

def gapsFit : List Symbol → Bool
  | [] => true
  | x :: rest =>
    decide (x.closing + vacantAll rest + openingAll rest < Derivation.delayLimit) && gapsFit rest

end Symbol

/-- Whether the bounds of a production's left side follow from those of its right side. -/
def Production.bounded (q : Production) : Bool :=
  (!q.right.all Symbol.isVacant || Symbol.vacantAll q.right + 1 ≤ q.left.vacant) &&
  Symbol.openingAll q.right ≤ q.left.opening &&
  Symbol.closingAll q.right + 1 ≤ q.left.closing &&
  Symbol.gapsFit q.right

theorem Production.bounded_of_mem {q : Production} (h : q ∈ Production.all) :
    q.bounded = true := by
  have hall : Production.all.all Production.bounded = true := by decide +kernel
  exact List.all_eq_true.mp hall q h

theorem Symbol.closingAll_le (x : Symbol) (rest : List Symbol) :
    closingAll rest ≤ closingAll (x :: rest) := by
  rw [closingAll]
  split
  · exact Nat.le_max_right _ _
  · exact Nat.le_refl _

theorem Symbol.opening_le (x : Symbol) (rest : List Symbol) :
    x.opening ≤ openingAll (x :: rest) := by
  rw [openingAll]
  split
  · exact Nat.le_max_left _ _
  · exact Nat.le_refl _

theorem Phrase.closing_lt_delayLimit (p : Phrase) : p.closing < Derivation.delayLimit := by
  cases p <;> decide

/-! ## Derivations keep the bounds -/

namespace Derivation

/-- What can be said of lexemes read after `k` reductions: without any, at most `vacant` more were
made; otherwise at most `opening` before the first and `closing` after the last. -/
structure Bounded (lexemes : List Lexeme) (isVacant : Bool) (vacant opening closing : Nat)
    (delay : Nat → Nat) (prompt : Nat → Prop) : Prop where
  none : lexemes = [] → isVacant = true ∧ ∀ k, delay k ≤ k + vacant ∧
    (k + vacant ≤ delayLimit → prompt k)
  some : lexemes ≠ [] → ∀ k, delay k ≤ closing ∧ (k + opening ≤ delayLimit → prompt k)

theorem Bounded.cons {front others : List Lexeme} {x : Symbol} {symbols : List Symbol}
    {delay delays : Nat → Nat} {prompt prompts : Nat → Prop}
    (hfront : Bounded front x.isVacant x.vacant x.opening x.closing delay prompt)
    (hothers : Bounded others (symbols.all Symbol.isVacant) (Symbol.vacantAll symbols)
      (Symbol.openingAll symbols) (Symbol.closingAll symbols) delays prompts)
    (hgap : x.closing + Symbol.vacantAll symbols + Symbol.openingAll symbols < delayLimit) :
    Bounded (front ++ others) ((x :: symbols).all Symbol.isVacant)
      (Symbol.vacantAll (x :: symbols)) (Symbol.openingAll (x :: symbols))
      (Symbol.closingAll (x :: symbols)) (fun k => delays (delay k))
      (fun k => prompt k ∧ prompts (delay k)) := by
  have hopen := Symbol.opening_le x symbols
  have hclose := Symbol.closingAll_le x symbols
  -- The delay goes on through a front without lexemes and starts afresh behind any other.
  by_cases hf : front = []
  · obtain ⟨hvacant, hdelay⟩ := hfront.none hf
    refine ⟨?_, ?_⟩
    · intro hnil
      obtain ⟨hall, hdelays⟩ := hothers.none (List.append_eq_nil_iff.mp hnil).2
      refine ⟨by simp [hvacant, hall], fun k => ?_⟩
      have h := hdelay k
      have hs := hdelays (delay k)
      simp only [Symbol.vacantAll]
      exact ⟨by omega, fun hk => ⟨h.2 (by omega), hs.2 (by omega)⟩⟩
    · intro hne k
      have hne' : others ≠ [] := by
        rintro rfl
        exact hne (by simp [hf])
      have h := hdelay k
      have hs := hothers.some hne' (delay k)
      refine ⟨by omega, fun hk => ?_⟩
      rw [Symbol.openingAll, if_pos hvacant] at hk
      exact ⟨h.2 (by omega), hs.2 (by omega)⟩
  · refine ⟨fun hnil => absurd (List.append_eq_nil_iff.mp hnil).1 hf, ?_⟩
    intro _ k
    have h := hfront.some hf k
    by_cases ho : others = []
    · obtain ⟨hall, hdelays⟩ := hothers.none ho
      have hs := hdelays (delay k)
      rw [Symbol.closingAll, if_pos hall]
      exact ⟨by omega, fun hk => ⟨h.2 (by omega), hs.2 (by omega)⟩⟩
    · have hs := hothers.some ho (delay k)
      exact ⟨by omega, fun hk => ⟨h.2 (by omega), hs.2 (by omega)⟩⟩

mutual

theorem bounded_of_valid : ∀ d : Derivation, d.Valid →
    Bounded d.lexemes d.symbol.isVacant d.symbol.vacant d.symbol.opening d.symbol.closing d.delay
      d.Prompt
  | .leaf x, _ => by
    refine ⟨fun h => by simp [lexemes] at h, fun _ k => ⟨by simp [delay], fun hk => ?_⟩⟩
    simp only [Prompt]
    omega
  | .node q children, h => by
    have hq := Production.bounded_of_mem h.1
    simp only [Production.bounded, Bool.and_eq_true, Bool.or_eq_true, Bool.not_eq_true',
      decide_eq_true_eq] at hq
    obtain ⟨⟨⟨hvacant, hopening⟩, hclosing⟩, hgaps⟩ := hq
    have hall := bounded_of_allValid children h.2.2 (by rw [h.2.1]; exact hgaps)
    rw [h.2.1] at hall
    have hlimit := Phrase.closing_lt_delayLimit q.left
    simp only [lexemes, symbol, Symbol.isVacant, Symbol.vacant, Symbol.opening, Symbol.closing]
    refine ⟨?_, ?_⟩
    · intro hnil
      obtain ⟨hvacants, hdelays⟩ := hall.none hnil
      have hleft : Symbol.vacantAll q.right + 1 ≤ q.left.vacant := by
        simpa [hvacants] using hvacant
      refine ⟨by rw [bne_iff_ne]; omega, fun k => ?_⟩
      have h := hdelays k
      simp only [delay, Prompt]
      exact ⟨by omega, fun hk => ⟨h.2 (by omega), by omega⟩⟩
    · intro hne k
      have h := hall.some hne k
      simp only [delay, Prompt]
      exact ⟨by omega, fun hk => ⟨h.2 (by omega), by omega⟩⟩

theorem bounded_of_allValid : ∀ ds : List Derivation, AllValid ds →
    Symbol.gapsFit (ds.map symbol) = true →
    Bounded (lexemesOfAll ds) ((ds.map symbol).all Symbol.isVacant)
      (Symbol.vacantAll (ds.map symbol)) (Symbol.openingAll (ds.map symbol))
      (Symbol.closingAll (ds.map symbol)) (delayOfAll ds) (AllPrompt ds)
  | [], _, _ => by
    refine ⟨fun _ => ⟨rfl, fun k => ⟨by simp [delayOfAll], fun _ => trivial⟩⟩, ?_⟩
    intro h
    exact absurd rfl h
  | d :: rest, h, hgaps => by
    simp only [List.map_cons, Symbol.gapsFit, Bool.and_eq_true, decide_eq_true_eq] at hgaps
    exact (bounded_of_valid d h.1).cons (bounded_of_allValid rest h.2 hgaps.2) hgaps.1

end

/-- A derivation that is read right after a lexeme keeps the limit. -/
theorem prompt_of_valid {d : Derivation} (h : d.Valid) : d.Prompt 0 := by
  have hbounded := bounded_of_valid d h
  by_cases hlex : d.lexemes = []
  · apply ((hbounded.none hlex).2 0).2
    cases hd : d.symbol with
    | terminal t => simp [Symbol.vacant]
    | phrase p => cases p <;> decide
  · apply (hbounded.some hlex 0).2
    cases hd : d.symbol with
    | terminal t => simp [Symbol.opening]
    | phrase p => cases p <;> decide

/-- Nor does a derivation leave more reductions behind it than the limit. -/
theorem delay_le_delayLimit {d : Derivation} (h : d.Valid) : d.delay 0 ≤ delayLimit := by
  cases d with
  | leaf x => simp [delay]
  | node q children =>
    have hprompt := prompt_of_valid h
    simp only [Prompt] at hprompt
    simp only [delay]
    omega

end Derivation

end GrammarServer
