import GrammarServer.Text.Blank
import GrammarServer.Text.Digit

/-!
# Texts without blanks at their ends

A text is solid if it starts and ends with a character that is not blank. Stripping takes away the
blanks around a solid text and nothing else.
-/
namespace GrammarServer.Text

def Solid (w : List Char) : Prop :=
  (∃ c, w.head? = some c ∧ isBlank c = false) ∧ ∃ d, w.getLast? = some d ∧ isBlank d = false

theorem Solid.ne_nil {w : List Char} (h : Solid w) : w ≠ [] := by
  rintro rfl
  obtain ⟨⟨c, hc, _⟩, _⟩ := h
  cases hc

/-- What starts and ends with solid texts is solid. -/
theorem Solid.append {v w : List Char} (hv : Solid v) (hw : Solid w) (m : List Char) :
    Solid (v ++ (m ++ w)) := by
  obtain ⟨⟨c, hc, hblank⟩, _⟩ := hv
  obtain ⟨_, d, hd, hblank'⟩ := hw
  refine ⟨⟨c, ?_, hblank⟩, d, ?_, hblank'⟩
  · rw [List.head?_append, hc, Option.some_or]
  · rw [← List.append_assoc, List.getLast?_append, hd, Option.some_or]

theorem Solid.append_right {v w : List Char} (hv : Solid v) (hw : Solid w) : Solid (v ++ w) :=
  hv.append hw []

theorem solid_of_all {w : List Char} (hne : w ≠ []) (h : ∀ c ∈ w, isBlank c = false) :
    Solid w := by
  refine ⟨⟨w.head hne, List.head?_eq_some_head hne, h _ (List.head_mem hne)⟩,
    w.getLast hne, List.getLast?_eq_some_getLast hne, h _ (List.getLast_mem hne)⟩

def hasNoBlank (w : List Char) : Bool := !w.isEmpty && w.all fun c => !isBlank c

theorem solid_of_hasNoBlank {w : List Char} (h : hasNoBlank w = true) : Solid w := by
  simp only [hasNoBlank, Bool.and_eq_true, Bool.not_eq_true', List.isEmpty_eq_false_iff,
    List.all_eq_true] at h
  exact solid_of_all h.1 h.2

theorem isBlank_space : ∀ c ∈ [' '], isBlank c = true := List.forall_mem_singleton.mpr rfl

theorem dropWhile_blanks {a : List Char} (ha : ∀ c ∈ a, isBlank c = true) (w : List Char) :
    (a ++ w).dropWhile isBlank = w.dropWhile isBlank :=
  List.dropWhile_append_of_pos ha

theorem dropWhile_of_head {w : List Char} {c : Char} (hc : w.head? = some c)
    (h : isBlank c = false) : w.dropWhile isBlank = w := by
  cases w with
  | nil => rfl
  | cons d w =>
    cases hc
    exact List.dropWhile_cons_of_neg (by simp [h])

/-- The blanks around a solid text are what stripping takes away. -/
theorem stripChars_of_solid {w a b : List Char} (hw : Solid w)
    (ha : ∀ c ∈ a, isBlank c = true) (hb : ∀ c ∈ b, isBlank c = true) :
    stripChars (a ++ (w ++ b)) = w := by
  obtain ⟨⟨c, hc, hcb⟩, d, hd, hdb⟩ := hw
  have hfront : (w ++ b).head? = some c := by rw [List.head?_append, hc, Option.some_or]
  have hback : w.reverse.head? = some d := by rw [List.head?_reverse, hd]
  have hb' : ∀ c ∈ b.reverse, isBlank c = true := fun c hc => hb c (List.mem_reverse.mp hc)
  rw [stripChars, dropWhile_blanks ha, dropWhile_of_head hfront hcb, List.reverse_append,
    dropWhile_blanks hb', dropWhile_of_head hback hdb, List.reverse_reverse]

theorem stripChars_solid {w : List Char} (hw : Solid w) : stripChars w = w := by
  have h := stripChars_of_solid (a := []) (b := []) hw (by simp) (by simp)
  simpa using h

theorem strip_ofList (cs : List Char) :
    strip (String.ofList cs) = String.ofList (stripChars cs) := by
  rw [strip, String.toList_ofList]

def trimEnd (cs : List Char) : List Char := (cs.reverse.dropWhile isBlank).reverse

theorem stripChars_eq_trimEnd (cs : List Char) :
    stripChars cs = trimEnd (cs.dropWhile isBlank) := rfl

theorem trimEnd_cons {c : Char} (hc : isBlank c = false) (cs : List Char) :
    trimEnd (c :: cs) = c :: trimEnd cs := by
  have hsingle : [c].dropWhile isBlank = [c] := List.dropWhile_cons_of_neg (by simp [hc])
  rw [trimEnd, List.reverse_cons, List.dropWhile_append, hsingle]
  split
  · rename_i hempty
    rw [List.isEmpty_iff] at hempty
    rw [trimEnd, hempty]
    rfl
  · rw [List.reverse_append]
    rfl

theorem stripChars_cons {c : Char} (hc : isBlank c = false) (cs : List Char) :
    stripChars (c :: cs) = c :: trimEnd cs := by
  rw [stripChars_eq_trimEnd, List.dropWhile_cons_of_neg (by simp [hc]), trimEnd_cons hc]

theorem mem_of_mem_trimEnd {c : Char} {cs : List Char} (h : c ∈ trimEnd cs) : c ∈ cs := by
  have hdrop := (List.dropWhile_sublist isBlank).subset (List.mem_reverse.mp h)
  exact List.mem_reverse.mp hdrop

theorem getLast?_trimEnd {cs : List Char} {d : Char} (h : (trimEnd cs).getLast? = some d) :
    isBlank d = false := by
  rw [trimEnd, List.getLast?_reverse] at h
  have hnot := List.head?_dropWhile_not isBlank cs.reverse
  rw [h] at hnot
  exact hnot

/-- A stripped text that starts with something is solid. -/
theorem solid_stripChars_cons {c : Char} (hc : isBlank c = false) (cs : List Char) :
    Solid (stripChars (c :: cs)) := by
  have hlast : ∃ d, (c :: trimEnd cs).getLast? = some d := ⟨_, List.getLast?_cons⟩
  obtain ⟨d, hd⟩ := hlast
  rw [stripChars_cons hc]
  refine ⟨⟨c, rfl, hc⟩, d, hd, ?_⟩
  rw [← trimEnd_cons hc] at hd
  exact getLast?_trimEnd hd

/-! ## Digits are not blank -/

theorem exists_of_inRanges {ranges : List (Nat × Nat)} {n : Nat} (h : inRanges ranges n = true) :
    ∃ range ∈ ranges, range.1 ≤ n ∧ n ≤ range.2 := by
  induction ranges with
  | nil => cases h
  | cons range ranges ih =>
    obtain ⟨first, last⟩ := range
    rw [inRanges] at h
    split at h
    · cases h
    · split at h
      · exact ⟨(first, last), List.mem_cons_self, by omega, by assumption⟩
      · obtain ⟨range, hmem, hrange⟩ := ih h
        exact ⟨range, List.mem_cons_of_mem _ hmem, hrange⟩

theorem exists_of_digitIn {ranges : List (Nat × Nat)} {n : Nat}
    (h : (digitIn ranges n).isSome = true) : ∃ range ∈ ranges, range.1 ≤ n ∧ n ≤ range.2 := by
  induction ranges with
  | nil => cases h
  | cons range ranges ih =>
    obtain ⟨first, last⟩ := range
    rw [digitIn] at h
    split at h
    · cases h
    · split at h
      · exact ⟨(first, last), List.mem_cons_self, by omega, by assumption⟩
      · obtain ⟨range, hmem, hrange⟩ := ih h
        exact ⟨range, List.mem_cons_of_mem _ hmem, hrange⟩

theorem digitRanges_disjoint : ∀ range ∈ digitRanges, ∀ range' ∈ blankRanges,
    range.2 < range'.1 ∨ range'.2 < range.1 := by decide

theorem isBlank_of_isDigit {c : Char} (h : isDigit c = true) : isBlank c = false := by
  rw [Bool.eq_false_iff]
  intro hblank
  obtain ⟨range, hmem, hrange⟩ := exists_of_digitIn h
  obtain ⟨range', hmem', hrange'⟩ := exists_of_inRanges hblank
  have := digitRanges_disjoint range hmem range' hmem'
  omega

end GrammarServer.Text
