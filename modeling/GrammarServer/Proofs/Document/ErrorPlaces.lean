import GrammarServer.Proofs.Document.Places
import GrammarServer.Proofs.Parse.Recovery

/-!
# Where the errors of the parser are shown

The parser counts lines and columns from one, and a diagnostic counts them from zero. The numbers of
an error are taken over as they are and only kept inside the text, so its diagnostic starts a line
further down and a column further to the right, unless the text ends before that. It starts where
the error is exactly if there is nothing at the error but the line break that ends the text.
-/
namespace GrammarServer

/-- Whether the end of the input was refused, so that no part of the source is in the way. -/
def SyntaxError.isAtEnd : SyntaxError → Bool
  | stray .. => false
  | refused x _ => x.terminal == .endOfInput

theorem SyntaxError.start_piece (e : SyntaxError) : e.piece.start = e.start := by
  cases e <;> rfl

namespace Text

/-- Whether a text is one line break and nothing else. -/
def isBreak (cs : List Char) : Bool :=
  cs == ['\r', '\n'] || (cs.length == 1 && cs.all isLineBreak)

theorem isBreak_pair (cs : List Char) : isBreak ('\r' :: '\n' :: cs) = cs.isEmpty := by
  cases cs <;> simp [isBreak]

section

variable {c : Char} {cs : List Char} (hpair : ∀ ds, c = '\r' → cs = '\n' :: ds → False)

include hpair

theorem isBreak_cons : isBreak (c :: cs) = (isLineBreak c && cs.isEmpty) := by
  cases cs with
  | nil => simp [isBreak]
  | cons d ds =>
    have hne : c :: d :: ds ≠ ['\r', '\n'] := by
      rintro ⟨⟩
      exact hpair [] rfl rfl
    simp [isBreak, beq_false_of_ne hne]

theorem breaksPlainly_cons :
    breaksPlainly (c :: cs) = ((c == '\n' || !isLineBreak c) && breaksPlainly cs) := by
  rw [breaksPlainly]
  exact hpair

/-- A carriage return and a line feed that follow each other are apart in a text and what comes
after it only where the two meet. -/
theorem pair_across (rest : List Char) : (c = '\r' ∧ cs = [] ∧ ∃ ds, rest = '\n' :: ds) ∨
    ∀ ds, c = '\r' → cs ++ rest = '\n' :: ds → False := by
  cases cs with
  | cons d cs => exact Or.inr fun ds hc hds => hpair cs hc (by rw [(List.cons.inj hds).1])
  | nil =>
    by_cases h : c = '\r' ∧ ∃ ds, rest = '\n' :: ds
    · exact Or.inl ⟨h.1, rfl, h.2⟩
    · exact Or.inr fun ds hc hds => h ⟨hc, ds, hds⟩

end

/-! ## The last line -/

theorem lineChars_eq_nil_iff (cs : List Char) : ∀ current : List Char,
    lineChars current cs = [] ↔ current = [] ∧ cs = [] := by
  induction cs using breaksPlainly.induct with
  | case1 =>
    intro current
    cases current <;> simp [lineChars]
  | case2 cs ih =>
    intro current
    simp [lineChars_pair]
  | case3 c cs hpair ih =>
    intro current
    rw [lineChars_cons hpair]
    split
    · simp
    · simp [ih]

def EndAt (count width : Nat) (ls : List (List Char)) : Prop :=
  ls.length = count ∧ ls.getLast?.map List.length = some width

theorem endAt_single (first : List Char) (ls : List (List Char)) :
    EndAt 1 first.length (first :: ls) ↔ ls = [] := by
  refine ⟨fun h => by simpa [EndAt] using h.1, ?_⟩
  rintro rfl
  exact ⟨rfl, rfl⟩

theorem endAt_succ {count width : Nat} (first : List Char) {ls : List (List Char)} (h : ls ≠ []) :
    EndAt (count + 1) width (first :: ls) ↔ EndAt count width ls := by
  obtain ⟨l, ls, rfl⟩ := List.exists_cons_of_ne_nil h
  simp [EndAt]

/-- A text adds nothing to a line begun, and no other line, exactly if it is one line break. -/
theorem endAt_rest {rest : List Char} (hrest : rest ≠ []) (current : List Char) :
    EndAt 1 current.length (lineChars current rest) ↔ isBreak rest = true := by
  rw [← List.length_reverse]
  cases rest using breaksPlainly.induct with
  | case1 => exact absurd rfl hrest
  | case2 cs ih =>
    rw [lineChars_pair, endAt_single, isBreak_pair, lineChars_eq_nil_iff, List.isEmpty_iff]
    exact and_iff_right rfl
  | case3 c cs hpair ih =>
    rw [lineChars_cons hpair, isBreak_cons hpair]
    cases hc : isLineBreak c with
    | true =>
      rw [if_pos rfl, endAt_single, lineChars_eq_nil_iff, Bool.true_and, List.isEmpty_iff]
      exact and_iff_right rfl
    | false =>
      -- the line goes on, so it gets longer
      rw [if_neg (by decide), Bool.false_and]
      refine iff_of_false ?_ (by decide)
      rintro ⟨hlength, hlast⟩
      obtain ⟨l, hl⟩ := List.length_eq_one_iff.mp hlength
      have hhead := head_lineChars cs (c :: current) (List.cons_ne_nil c current)
      rw [hl] at hhead hlast
      have hwidth : l.length = current.reverse.length := Option.some.inj hlast
      rw [show l = _ from Option.some.inj hhead, List.length_append, List.length_reverse,
        List.length_reverse, List.length_cons] at hwidth
      omega

section

variable {rest : List Char} (hrest : rest ≠ [])

include hrest

theorem lineChars_append_ne_nil (current before : List Char) :
    lineChars current (before ++ rest) ≠ [] := by
  rw [Ne, lineChars_eq_nil_iff, List.append_eq_nil_iff]
  exact fun h => hrest h.2.2

/-- Each line feed ends a line, and there is one more line for what comes behind. -/
theorem count_lt_length_lineChars (before : List Char) : ∀ current : List Char,
    before.count '\n' < (lineChars current (before ++ rest)).length := by
  induction before using breaksPlainly.induct with
  | case1 => exact fun current => List.length_pos_iff.mpr (lineChars_append_ne_nil hrest current [])
  | case2 cs ih =>
    intro current
    rw [List.cons_append, List.cons_append, lineChars_pair]
    simpa using ih []
  | case3 c cs hpair ih =>
    intro current
    rcases pair_across hpair rest with ⟨rfl, rfl, ds, rfl⟩ | hpair'
    · rw [List.singleton_append, lineChars_pair]
      exact Nat.succ_pos _
    · rw [List.cons_append, lineChars_cons hpair', List.count_cons]
      cases hc : isLineBreak c with
      | true =>
        have hlt := ih []
        rw [if_pos rfl, List.length_cons]
        split <;> omega
      | false =>
        have hfeed : ¬ (c == '\n') = true := by
          rw [beq_iff_eq]
          rintro rfl
          exact absurd hc (by decide)
        rw [if_neg hfeed, if_neg (by decide)]
        exact ih (c :: current)

/-- A line that ends without a line feed is one line more than there are line feeds, unless a line
feed follows the text; and then the column is one too large. -/
theorem not_endAt_of_break {c : Char} {cs current : List Char} {m : Mark}
    (hpair : ∀ ds, c = '\r' → cs = '\n' :: ds → False) (hbreak : isLineBreak c = true)
    (hm : m.column = current.length + 1) :
    ¬ EndAt (cs.count '\n' + 1) ((m.after (c :: cs)).column - 1)
      (lineChars current (c :: cs ++ rest)) := by
  rcases pair_across hpair rest with ⟨rfl, rfl, ds, rfl⟩ | hpair'
  · rw [List.singleton_append, lineChars_pair]
    rintro ⟨hlength, hlast⟩
    have hnil : lineChars [] ds = [] := by simpa using hlength
    rw [hnil] at hlast
    have hwidth : current.reverse.length = m.column + 1 - 1 := Option.some.inj hlast
    rw [List.length_reverse] at hwidth
    omega
  · rw [List.cons_append, lineChars_cons hpair', if_pos hbreak]
    rintro ⟨hlength, _⟩
    have hlt := count_lt_length_lineChars hrest cs []
    rw [List.length_cons] at hlength
    omega

/-- The line and the column behind a text, counted by line feeds, are the end of all lines exactly
if its breaks are plain and what follows is one line break. -/
theorem endAt_iff (before : List Char) : ∀ (current : List Char) (m : Mark),
    m.column = current.length + 1 →
      (EndAt (before.count '\n' + 1) ((m.after before).column - 1)
          (lineChars current (before ++ rest)) ↔
        breaksPlainly before = true ∧ isBreak rest = true) := by
  induction before using breaksPlainly.induct with
  | case1 =>
    intro current m hm
    rw [show (m.after []).column - 1 = current.length by rw [Mark.after, List.foldl_nil, hm]; rfl]
    exact (endAt_rest hrest current).trans (and_iff_right rfl).symm
  | case2 cs ih =>
    intro current m hm
    have hcount : ('\r' :: '\n' :: cs).count '\n' = cs.count '\n' + 1 := by simp
    rw [List.cons_append, List.cons_append, lineChars_pair, hcount, breaksPlainly,
      endAt_succ _ (lineChars_append_ne_nil hrest [] cs)]
    exact ih [] ((m.next '\r').next '\n') rfl
  | case3 c cs hpair ih =>
    intro current m hm
    rw [breaksPlainly_cons hpair]
    by_cases hfeed : c = '\n'
    · subst hfeed
      rw [List.cons_append, lineChars_cons (fun _ h => absurd h (by decide)), if_pos (by decide),
        List.count_cons_self, endAt_succ _ (lineChars_append_ne_nil hrest [] cs)]
      exact ih [] (m.next '\n') rfl
    · have hcount : (c :: cs).count '\n' = cs.count '\n' := by
        rw [List.count_cons, if_neg (by simpa using hfeed), Nat.add_zero]
      rw [hcount, beq_false_of_ne hfeed, Bool.false_or]
      -- A break that is no line feed starts a line that the count of line feeds misses.
      by_cases hbreak : isLineBreak c = true
      · rw [hbreak]
        exact iff_of_false (not_endAt_of_break hrest hpair hbreak hm) (by simp)
      · have hpair' : ∀ ds, c = '\r' → cs ++ rest = '\n' :: ds → False := by
          rintro ds rfl
          exact absurd (by decide) hbreak
        rw [List.cons_append, lineChars_cons hpair', if_neg hbreak, Bool.eq_false_iff.mpr hbreak]
        refine ih (c :: current) (m.next c) ?_
        rw [Mark.next, if_neg (by simpa using hfeed), hm, List.length_cons]

end

theorem endAt_lines_iff {source : String} {count width : Nat} :
    EndAt (count + 1) width (lineChars [] source.toList) ↔
      (lines source).length = count + 1 ∧ ((lines source).getD count "").length = width := by
  rw [EndAt, lines, List.length_map, List.getD_eq_getElem?_getD, List.getElem?_map]
  refine and_congr_right fun hlength => ?_
  obtain ⟨last, hlast⟩ : ∃ last, (lineChars [] source.toList)[count]? = some last :=
    ⟨_, List.getElem?_eq_getElem (by omega)⟩
  rw [List.getLast?_eq_getElem?, hlength, Nat.add_sub_cancel, hlast]
  simp

end Text

/-- A place that is counted from one is shown counted from zero exactly if it is the end of the
lines. -/
theorem Problem.start_diagnostic_iff {source : String} (hsource : source.toList ≠ []) {p : Problem}
    {line column : Nat} (hline : p.line = line + 1) (hcolumn : p.column = column + 1)
    (severity : Option Severity) :
    (p.diagnostic (Text.lines source) severity).range.start = ⟨line, column⟩ ↔
      Text.EndAt (line + 1) column (Text.lineChars [] source.toList) := by
  have hpos : 0 < (Text.lines source).length := by
    rw [Text.lines, List.length_map, List.length_pos_iff]
    exact Text.lineChars_append_ne_nil hsource [] []
  rw [Text.endAt_lines_iff, diagnostic, Position.mk.injEq, hline, hcolumn]
  constructor
  · rintro ⟨hfirst, hsecond⟩
    rw [hfirst, Int.toNat_natCast] at hsecond
    omega
  · rintro ⟨hlength, hwidth⟩
    have hfirst : min (max 0 ((line : Int) + 1)) (max 0 (((Text.lines source).length : Int) - 1)) =
        line := by
      omega
    rw [hfirst, Int.toNat_natCast, hwidth]
    omega

namespace Parse

/-- An error inside the source is about one of its pieces. -/
theorem piece_mem_ofSource {source : String} {e : SyntaxError} (h : e ∈ (recovering source).errors)
    (hinside : e.isAtEnd = false) : e.piece ∈ Piece.ofSource source := by
  obtain ⟨es, s, hmoves, hends⟩ := exists_moves source
  have hpiece : e.piece ∈ (recovering source).errors.map SyntaxError.piece := List.mem_map_of_mem h
  have hreported : e.piece ∈ es.filterMap Event.reported? := by
    rcases hends with ⟨_, _, _, _, _, herrors⟩ | ⟨_, _, y, _, _, hy, _, herrors⟩
    · rwa [herrors] at hpiece
    · rw [herrors, List.mem_append, List.mem_singleton] at hpiece
      refine hpiece.resolve_right fun hlast => ?_
      cases e with
      | stray => cases hlast
      | refused x expected =>
        obtain rfl := Piece.lexeme.inj hlast
        rw [SyntaxError.isAtEnd, hy] at hinside
        cases hinside
  have hsignificant : Piece.significant source = es.filterMap Event.piece? := by
    rw [← List.append_nil (es.filterMap _)]
    exact hmoves.pieces
  have hmem := (reported_sublist es).subset hreported
  rw [← hsignificant] at hmem
  exact (List.mem_filter.mp hmem).1

/-- The first error is at the first piece that has a meaning, if this is a stray character. -/
theorem first_error_of_stray {source : String} {c : Char} {m : Mark} {ps : List Piece}
    (h : Piece.significant source = .stray c m :: ps) : (recovering source).errors[0]? =
      some (.stray source.toList c m (Lexeme.offered false) none) := by
  rw [recovering, ← Piece.significant, h]
  rfl

end Parse

namespace Document

theorem getElem?_diagnostics (load : Loader) (uri : String) {source : String} {i : Nat}
    {e : SyntaxError} (h : (Parse.recovering source).errors[i]? = some e) :
    (ofText load uri source).diagnostics[i]? = some
      ((Problem.ofSyntaxError "Parse error: " e).diagnostic (Text.lines source) (some .error)) := by
  obtain ⟨later, _, hdiagnostics⟩ := exists_later_problems load uri source
  obtain ⟨hi, _⟩ := List.getElem?_eq_some_iff.mp h
  rw [hdiagnostics, parseProblems, List.getElem?_map, List.getElem?_append_left (by simpa using hi),
    List.getElem?_map, h]
  rfl

/-- The diagnostic of an error of the parser starts at the place of the error, counted from zero,
exactly if only a line break is left and those before it are plain. -/
theorem parse_error_start_iff (load : Loader) (uri : String) {source : String} {i : Nat}
    {e : SyntaxError} (herror : (Parse.recovering source).errors[i]? = some e)
    (hinside : e.isAtEnd = false) :
    ∃ x before after, (ofText load uri source).diagnostics[i]? = some x ∧
      x.message = "Parse error: " ++ e.message ∧
      source.toList = before ++ (e.piece.text ++ after) ∧ e.start.Behind before ∧
      (x.range.start = ⟨(e.line : Int) - 1, (e.column : Int) - 1⟩ ↔
        Text.breaksPlainly before = true ∧ Text.isBreak (e.piece.text ++ after) = true) := by
  have hpiece := Parse.piece_mem_ofSource (List.mem_of_getElem? herror) hinside
  obtain ⟨before, after, hsource, hbehind, hfits⟩ := Piece.exists_place_of_mem_ofSource hpiece
  rw [e.start_piece] at hbehind
  refine ⟨_, before, after, getElem?_diagnostics load uri herror, rfl, hsource, hbehind, ?_⟩
  have hrest : e.piece.text ++ after ≠ [] := fun hnil =>
    hfits.text_ne_nil (List.append_eq_nil_iff.mp hnil).1
  have hline : (e.line : Int) = before.count '\n' + 1 := by
    rw [SyntaxError.line, hbehind.line, Int.natCast_add, Int.add_comm]
    rfl
  have hcolumn : (e.column : Int) = (before.rtakeWhile (· != '\n')).length + 1 := by
    rw [SyntaxError.column, hbehind.column, Int.natCast_add, Int.add_comm]
    rfl
  have hwidth : (Mark.origin.after before).column - 1 = (before.rtakeWhile (· != '\n')).length := by
    rw [(Mark.behind_origin.after before).column, List.nil_append, Nat.add_sub_cancel_left]
  have hend := Text.endAt_iff hrest before [] .origin rfl
  rw [hwidth, ← hsource] at hend
  rw [← hend, hline, hcolumn, Int.add_sub_cancel, Int.add_sub_cancel]
  refine Problem.start_diagnostic_iff ?_ hline hcolumn (some .error)
  rw [hsource]
  exact fun hnil => hrest (List.append_eq_nil_iff.mp hnil).2

/-- A form feed at the end of the text is shown where it is. -/
theorem parse_error_start_iff_formFeed :
    ∃ e x, (Parse.recovering " \x0c").errors[0]? = some e ∧ e.isAtEnd = false ∧ e.line = 1 ∧
      e.column = 2 ∧ (ofText .idle "u" " \x0c").diagnostics[0]? = some x ∧
      x.range.start = ⟨0, 1⟩ := by
  have hpieces : Piece.significant " \x0c" = [.stray '\x0c' ⟨1, 1, 2⟩] := by decide +kernel
  have herror := Parse.first_error_of_stray hpieces
  obtain ⟨x, before, after, hx, _, hsource, hbehind, hiff⟩ :=
    parse_error_start_iff .idle "u" herror rfl
  obtain ⟨rfl, hafter⟩ : before = [' '] ∧ '\x0c' :: after = ['\x0c'] :=
    (List.append_inj hsource.symm hbehind.offset.symm)
  exact ⟨_, x, herror, rfl, rfl, rfl, hx, hiff.mpr ⟨rfl, congrArg Text.isBreak hafter⟩⟩

/-- A character that starts nothing is shown at the place behind it. -/
theorem start_diagnostic_dollar :
    ∃ e x, (Parse.recovering "$\n").errors[0]? = some e ∧ e.isAtEnd = false ∧ e.line = 1 ∧
      e.column = 1 ∧ (ofText .idle "u" "$\n").diagnostics[0]? = some x ∧
      x.range.start = ⟨0, 1⟩ := by
  have hpieces : Piece.significant "$\n" =
      [.stray '$' ⟨0, 1, 1⟩, .lexeme ⟨.newline, ['\n'], ⟨1, 1, 2⟩, ⟨2, 2, 1⟩⟩] := by
    decide +kernel
  have herror := Parse.first_error_of_stray hpieces
  exact ⟨_, _, herror, rfl, rfl, rfl, getElem?_diagnostics .idle "u" herror, by decide⟩

end Document

end GrammarServer
