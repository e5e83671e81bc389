import GrammarServer.Document

/-!
# Words in a line

The word at a place is found by going from there to the left and to the right, as long as there are
word characters. What is found is a run of word characters that touches the place and cannot be made
longer. There is at most one such run, so every place that it touches leads to the same word.
-/
namespace GrammarServer

namespace Text

def isWordAt (cs : List Char) (column : Nat) : Bool := cs[column]?.any isWordChar

def TouchesWord (cs : List Char) (column : Nat) : Prop :=
  isWordAt cs column = true ∨ 0 < column ∧ isWordAt cs (column - 1) = true

/-- Between two columns there are word characters, at least one, and none is on either side. -/
structure IsWord (cs : List Char) (start stop : Nat) : Prop where
  lt : start < stop
  within : ∀ column, start ≤ column → column < stop → isWordAt cs column = true
  before : 0 < start → isWordAt cs (start - 1) = false
  behind : isWordAt cs stop = false

section

variable {cs : List Char} {column : Nat}

theorem isWordAt_of_lt (h : column < cs.length) : isWordAt cs column = isWordChar cs[column] := by
  rw [isWordAt, List.getElem?_eq_getElem h, Option.any_some]

theorem isWordAt_of_le (h : cs.length ≤ column) : isWordAt cs column = false := by
  rw [isWordAt, List.getElem?_eq_none h, Option.any_none]

variable {start stop start' stop' : Nat}

/-- A word touches the columns from its start to its end. -/
theorem IsWord.touchesWord (h : IsWord cs start stop) (hstart : start ≤ column)
    (hstop : column ≤ stop) : TouchesWord cs column := by
  have hlt := h.lt
  rcases Nat.lt_or_eq_of_le hstop with hinside | rfl
  · exact Or.inl (h.within column hstart hinside)
  · exact Or.inr ⟨by omega, h.within (column - 1) (by omega) (by omega)⟩

theorem IsWord.stop_le (h : IsWord cs start stop) (h' : IsWord cs start' stop')
    (hstart' : start' ≤ column) (hstop : column ≤ stop) : stop' ≤ stop := by
  refine Nat.le_of_not_lt fun hlt => ?_
  have hinside := h'.within stop (by omega) hlt
  rw [h.behind] at hinside
  cases hinside

theorem IsWord.start_le (h : IsWord cs start stop) (h' : IsWord cs start' stop')
    (hstart' : start' ≤ column) (hstop : column ≤ stop) : start' ≤ start := by
  refine Nat.le_of_not_lt fun hlt => ?_
  have hinside := h.within (start' - 1) (by omega) (by omega)
  rw [h'.before (by omega)] at hinside
  cases hinside

/-- No two words touch one column. -/
theorem IsWord.unique (h : IsWord cs start stop) (h' : IsWord cs start' stop')
    (hstart : start ≤ column) (hstop : column ≤ stop) (hstart' : start' ≤ column)
    (hstop' : column ≤ stop') : start = start' ∧ stop = stop' :=
  ⟨Nat.le_antisymm (h'.start_le h hstart hstop') (h.start_le h' hstart' hstop),
    Nat.le_antisymm (h'.stop_le h hstart hstop') (h.stop_le h' hstart' hstop)⟩

end

end Text

namespace Document

open Text (isWordAt isWordAt_of_lt isWordAt_of_le IsWord TouchesWord)

section

variable {cs : List Char} {column : Nat}

/-! ## To the left -/

theorem wordStart_succ (h : column < cs.length) : wordStart cs (column + 1 : Nat) =
    if isWordAt cs column then wordStart cs column else (column + 1 : Nat) := by
  have htaken : (cs.take (column + 1)).reverse = cs[column] :: (cs.take column).reverse := by
    rw [List.take_add_one, List.getElem?_eq_getElem h, Option.toList_some, List.reverse_append]
    rfl
  rw [wordStart, if_neg (by omega), Int.toNat_natCast, htaken, List.takeWhile_cons,
    isWordAt_of_lt h]
  cases Text.isWordChar cs[column] with
  | false =>
    rw [if_neg Bool.false_ne_true, if_neg Bool.false_ne_true, List.length_nil]
    omega
  | true =>
    rw [if_pos rfl, if_pos rfl, wordStart, Int.toNat_natCast, List.length_cons]
    split
    · obtain rfl : column = 0 := by omega
      rfl
    · omega

/-- The way to the left ends behind a character of no word, or at the start of the line. -/
theorem exists_wordStart (h : column ≤ cs.length) : ∃ start : Nat,
    wordStart cs column = start ∧ start ≤ column ∧
      (∀ i, start ≤ i → i < column → isWordAt cs i = true) ∧
      (0 < start → isWordAt cs (start - 1) = false) := by
  induction column with
  | zero => exact ⟨0, rfl, Nat.le_refl 0, by omega, by omega⟩
  | succ column ih =>
    obtain ⟨start, hstart, hle, hwithin, hbefore⟩ := ih (by omega)
    rw [wordStart_succ (by omega)]
    cases hword : isWordAt cs column with
    | false => exact ⟨column + 1, rfl, Nat.le_refl _, by omega, fun _ => hword⟩
    | true =>
      refine ⟨start, hstart, by omega, fun i hi hlt => ?_, hbefore⟩
      rcases Nat.lt_succ_iff_lt_or_eq.mp hlt with hlt | rfl
      · exact hwithin i hi hlt
      · exact hword

/-! ## To the right -/

theorem wordEnd_natCast (cs : List Char) (column : Nat) : wordEnd cs column =
    .ok ((column + ((cs.drop column).takeWhile Text.isWordChar).length : Nat) : Int) := by
  rw [wordEnd, if_pos (Int.natCast_nonneg column), Int.toNat_natCast]
  rfl

theorem wordEnd_eq (cs : List Char) (column : Nat) : wordEnd cs column =
    if isWordAt cs column then wordEnd cs (column + 1 : Nat) else .ok column := by
  rw [wordEnd_natCast, wordEnd_natCast]
  rcases Nat.lt_or_ge column cs.length with h | h
  · rw [List.drop_eq_getElem_cons h, List.takeWhile_cons, isWordAt_of_lt h]
    cases Text.isWordChar cs[column] with
    | false => rfl
    | true => rw [if_pos rfl, if_pos rfl, List.length_cons, Nat.add_right_comm, Nat.add_assoc]
  · rw [isWordAt_of_le h, List.drop_eq_nil_of_le h]
    rfl

/-- The way to the right ends at a character of no word, or at the end of the line. -/
theorem exists_wordEnd (cs : List Char) (column : Nat) : ∃ stop : Nat,
    wordEnd cs column = .ok stop ∧ column ≤ stop ∧
      (∀ i, column ≤ i → i < stop → isWordAt cs i = true) ∧ isWordAt cs stop = false := by
  -- by induction on the number of characters that are left
  induction hleft : cs.length - column generalizing column with
  | zero =>
    have hnone : isWordAt cs column = false := isWordAt_of_le (by omega)
    rw [wordEnd_eq, hnone]
    exact ⟨column, rfl, Nat.le_refl _, by omega, hnone⟩
  | succ left ih =>
    obtain ⟨stop, hstop, hle, hwithin, hbehind⟩ := ih (column + 1) (by omega)
    rw [wordEnd_eq]
    cases hword : isWordAt cs column with
    | false => exact ⟨column, rfl, Nat.le_refl _, by omega, hword⟩
    | true =>
      refine ⟨stop, hstop, by omega, fun i hi hlt => ?_, hbehind⟩
      rcases Nat.eq_or_lt_of_le hi with rfl | hi
      · exact hword
      · exact hwithin i hi hlt

/-! ## The word at a place -/

def part (text : String) (start stop : Nat) : String :=
  String.ofList ((text.toList.take stop).drop start)

theorem slice_natCast {start stop : Nat} (h : stop ≤ cs.length) :
    slice cs start stop = (cs.take stop).drop start := by
  have hbound : ∀ n : Nat, sliceBound cs.length n = min n cs.length := fun n => by
    rw [sliceBound, if_neg (by omega), Int.toNat_natCast]
  rw [slice, hbound, hbound, List.drop_take, Nat.min_eq_left h]
  rcases Nat.le_total start cs.length with hstart | hstart
  · rw [Nat.min_eq_left hstart]
  · rw [Nat.min_eq_right hstart, List.drop_eq_nil_of_le (Nat.le_refl _),
      List.drop_eq_nil_of_le hstart, List.take_nil, List.take_nil]

end

variable {d : Document} {line : Int} {text : String}

/-- Every index of a line, also one that is counted from the end, has a line. -/
theorem exists_line (hfrom : -(d.lines.length : Int) ≤ line) (hto : line < d.lines.length) :
    ∃ text, d.line line = .ok text ∧ (0 ≤ line → d.lines[line.toNat]? = some text) := by
  have hplace : ∀ place : Nat, place < d.lines.length →
      (if line < 0 then line + d.lines.length else line) = place →
      ∃ text, d.lines[place]? = some text ∧ d.line line = .ok text := by
    intro place hlt heq
    refine ⟨d.lines[place], List.getElem?_eq_getElem hlt, ?_⟩
    simp only [Document.line, heq, Int.toNat_natCast, List.getElem?_eq_getElem hlt,
      if_neg (Int.not_lt.mpr (Int.natCast_nonneg place))]
  rcases Int.lt_or_le line 0 with hneg | hpos
  · obtain ⟨text, _, htext⟩ := hplace (line + d.lines.length).toNat (by omega)
      (by rw [if_pos hneg]; omega)
    exact ⟨text, htext, by omega⟩
  · obtain ⟨text, hget, htext⟩ := hplace line.toNat (by omega) (by rw [if_neg (by omega)]; omega)
    exact ⟨text, htext, fun _ => hget⟩

/-- At a place in a line there is a word that touches it, or it touches none. -/
theorem wordAt_cases (hline : d.line line = .ok text) (hto : line < d.lines.length) {column : Nat}
    (hcolumn : column < text.length) :
    ¬ TouchesWord text.toList column ∧ d.wordAt line column = .ok none ∨
      ∃ start stop : Nat, start ≤ column ∧ column ≤ stop ∧ IsWord text.toList start stop ∧
        d.wordAt line column = .ok (some (part text start stop, start, stop)) := by
  rw [← String.length_toList] at hcolumn
  obtain ⟨start, hstart, hle, hleft, hbefore⟩ := exists_wordStart (Nat.le_of_lt hcolumn)
  obtain ⟨stop, hstop, hge, hright, hbehind⟩ := exists_wordEnd text.toList column
  have hword : d.wordAt line column = if ((start : Int) == stop) = true then .ok none
      else .ok (some (String.ofList (slice text.toList start stop), start, stop)) := by
    have hinside : ¬ (column : Int) ≥ text.toList.length := by omega
    simp only [wordAt, if_neg (Int.not_le.mpr hto), hline, bind, Except.bind, if_neg hinside,
      hstart, hstop]
    rfl
  -- The word is empty exactly if no word character stands on either side of the column.
  rcases Nat.eq_or_lt_of_le (Nat.le_trans hle hge) with rfl | hlt
  · obtain rfl : start = column := Nat.le_antisymm hle hge
    refine Or.inl ⟨?_, by rw [hword, if_pos (beq_self_eq_true _)]⟩
    rintro (hat | ⟨hpos, hat⟩)
    · rw [hbehind] at hat
      cases hat
    · rw [hbefore hpos] at hat
      cases hat
  · have hwithin : ∀ i, start ≤ i → i < stop → isWordAt text.toList i = true := by
      intro i hi hlt
      rcases Nat.lt_or_ge i column with hi' | hi'
      · exact hleft i hi hi'
      · exact hright i hi' hlt
    have hlength : stop ≤ text.toList.length := by
      refine Nat.le_of_not_lt fun hlong => ?_
      have hlast := hwithin (stop - 1) (by omega) (by omega)
      rw [isWordAt_of_le (by omega)] at hlast
      cases hlast
    refine Or.inr ⟨start, stop, hle, hge, ⟨hlt, hwithin, hbefore, hbehind⟩, ?_⟩
    rw [hword, if_neg (by rw [beq_iff_eq]; omega), slice_natCast hlength, part]

/-- The word at a column is the longest one around it. There is none exactly if no word character is
at the column or right in front of it. -/
theorem wordAt_maximal (d : Document) {line : Int} (hfrom : -(d.lines.length : Int) ≤ line)
    (hto : line < d.lines.length) :
    ∃ text, d.line line = .ok text ∧ (0 ≤ line → d.lines[line.toNat]? = some text) ∧
      ∀ column : Nat, column < text.length →
        (d.wordAt line column = .ok none ↔ ¬ TouchesWord text.toList column) ∧
        (TouchesWord text.toList column → ∃ start stop : Nat,
          d.wordAt line column = .ok (some (part text start stop, start, stop)) ∧
          start ≤ column ∧ column ≤ stop ∧ IsWord text.toList start stop ∧
          ∀ other : Nat, start ≤ other → other ≤ stop → other < text.length →
            d.wordAt line other = d.wordAt line column) := by
  obtain ⟨text, hline, hget⟩ := exists_line hfrom hto
  refine ⟨text, hline, hget, fun column hcolumn => ?_⟩
  rcases wordAt_cases hline hto hcolumn with
    ⟨huntouched, hnone⟩ | ⟨start, stop, hstart, hstop, hword, hfound⟩
  · exact ⟨iff_of_true hnone huntouched, fun htouched => absurd htouched huntouched⟩
  · have htouched := hword.touchesWord hstart hstop
    refine ⟨iff_of_false (by simp [hfound]) (not_not_intro htouched), fun _ =>
      ⟨start, stop, hfound, hstart, hstop, hword, fun other hfirst hlast hother => ?_⟩⟩
    rcases wordAt_cases hline hto hother with
      ⟨huntouched, _⟩ | ⟨start', stop', hstart', hstop', hword', hfound'⟩
    · exact absurd (hword.touchesWord hfirst hlast) huntouched
    · obtain ⟨rfl, rfl⟩ := hword.unique hword' hfirst hlast hstart' hstop'
      rw [hfound, hfound']

/-- Right behind a word, and in a line that is counted from the end, the word is still found. -/
theorem wordAt_maximal_lastLine :
    let d : Document := { uri := "u", source := "a\né_1 +", lines := ["a", "é_1 +"] }
    d.wordAt (-1) 3 = .ok (some ("é_1", 0, 3)) ∧ IsWord "é_1 +".toList 0 3 ∧
      d.wordAt (-1) 0 = d.wordAt (-1) 3 ∧ d.wordAt (-1) 4 = .ok none := by
  intro d
  have hfrom : -(d.lines.length : Int) ≤ -1 := by decide
  obtain ⟨text, hline, _, hwords⟩ := wordAt_maximal d hfrom (by decide)
  obtain rfl : "é_1 +" = text := Except.ok.inj hline
  obtain ⟨start, stop, hword, _, _, his, hsame⟩ := (hwords 3 (by decide)).2 (Or.inr (by decide))
  have hfound : d.wordAt (-1) 3 = .ok (some ("é_1", 0, 3)) := rfl
  have hbounds : ((0 : Nat) : Int) = start ∧ ((3 : Nat) : Int) = stop := by
    have heq := hfound.symm.trans hword
    simp only [Except.ok.injEq, Option.some.injEq, Prod.mk.injEq] at heq
    exact heq.2
  obtain rfl := Int.ofNat_inj.mp hbounds.1
  obtain rfl := Int.ofNat_inj.mp hbounds.2
  refine ⟨hfound, his, hsame 0 (by decide) (by decide) (by decide), ?_⟩
  exact (hwords 4 (by decide)).1.mpr (by unfold TouchesWord; decide)

end Document

end GrammarServer
