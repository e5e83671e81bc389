import GrammarServer.Proofs.Document.Usages

/-!
# Places in the lines of a document

The range of a symbol is found by counting line feeds alone, but the lines of a document end at
other characters too. Both come to the same place as long as every line break in front of the symbol
is a line feed, alone or behind a carriage return. One other break is enough to set them apart: then
the range points to a line further up than the one that holds the name.
-/
namespace GrammarServer

theorem Mark.line_after (cs : List Char) : ∀ m : Mark,
    (m.after cs).line = m.line + cs.count '\n' := by
  induction cs with
  | nil => exact fun m => rfl
  | cons c cs ih =>
    intro m
    rw [after, List.foldl_cons, ← after, ih, next, List.count_cons]
    split
    · exact Nat.add_right_comm m.line 1 _
    · rfl

namespace Text

/-- Whether every line break in a text is a line feed, alone or behind a carriage return. -/
def breaksPlainly : List Char → Bool
  | [] => true
  | '\r' :: '\n' :: cs => breaksPlainly cs
  | c :: cs => (c == '\n' || !isLineBreak c) && breaksPlainly cs

/-- The line and the column, by the lines of a document, where a text ends that begins at some
place. -/
def placeFrom : Nat → Nat → List Char → Nat × Nat
  | line, column, [] => (line, column)
  | line, _, '\r' :: '\n' :: cs => placeFrom (line + 1) 0 cs
  | line, column, c :: cs =>
    if isLineBreak c then placeFrom (line + 1) 0 cs else placeFrom line (column + 1) cs

def placeAfter (before : List Char) : Position :=
  ⟨(placeFrom 0 0 before).1, (placeFrom 0 0 before).2⟩

/-- The place behind a text, if line feeds alone are counted. -/
def feedPlaceAfter (before : List Char) : Position :=
  ⟨before.count '\n', (before.rtakeWhile (· != '\n')).length⟩

/-! ## Lines -/

section

variable {c : Char} {cs : List Char} (hpair : ∀ ds, c = '\r' → cs = '\n' :: ds → False)

include hpair

theorem lineChars_cons (current : List Char) : lineChars current (c :: cs) =
    if isLineBreak c then current.reverse :: lineChars [] cs else lineChars (c :: current) cs := by
  rw [lineChars]
  exact hpair

theorem placeFrom_cons (line column : Nat) : placeFrom line column (c :: cs) =
    if isLineBreak c then placeFrom (line + 1) 0 cs else placeFrom line (column + 1) cs := by
  rw [placeFrom]
  exact hpair

end

theorem lineChars_pair (current cs : List Char) :
    lineChars current ('\r' :: '\n' :: cs) = current.reverse :: lineChars [] cs := by
  rw [lineChars]

theorem placeFrom_succ (cs : List Char) : ∀ line column : Nat, placeFrom (line + 1) column cs =
    ((placeFrom line column cs).1 + 1, (placeFrom line column cs).2) := by
  induction cs using breaksPlainly.induct with
  | case1 => exact fun line column => rfl
  | case2 cs ih => exact fun line column => ih (line + 1) 0
  | case3 c cs hpair ih =>
    intro line column
    rw [placeFrom_cons hpair, placeFrom_cons hpair]
    split
    · exact ih (line + 1) 0
    · exact ih line (column + 1)

/-- A line begun goes on up to the next break. -/
theorem head_lineChars (cs : List Char) : ∀ current : List Char, current ≠ [] →
    (lineChars current cs)[0]? = some (current.reverse ++ cs.takeWhile (!isLineBreak ·)) := by
  induction cs using breaksPlainly.induct with
  | case1 =>
    intro current hcurrent
    obtain ⟨d, ds, rfl⟩ := List.exists_cons_of_ne_nil hcurrent
    rw [lineChars, List.takeWhile_nil, List.append_nil]
    rfl
  | case2 cs ih =>
    intro current _
    rw [lineChars_pair, List.takeWhile_cons_of_neg (by decide), List.append_nil]
    rfl
  | case3 c cs hpair ih =>
    intro current _
    rw [lineChars_cons hpair]
    split
    case isTrue hc =>
      rw [List.takeWhile_cons_of_neg (by simp [hc]), List.append_nil]
      rfl
    case isFalse hc =>
      rw [ih (c :: current) (List.cons_ne_nil c current),
        List.takeWhile_cons_of_pos (p := (!isLineBreak ·)) (by simp [hc]), List.reverse_cons,
        List.append_assoc, List.singleton_append]

/-- The line in which a place lies, from that place on. -/
theorem exists_lineChars {c : Char} (hc : isLineBreak c = false) (rest before : List Char) :
    ∀ current : List Char, ∃ first : List Char,
      first.length = (placeFrom 0 current.length before).2 ∧
      (lineChars current (before ++ c :: rest))[(placeFrom 0 current.length before).1]? =
        some (first ++ (c :: rest).takeWhile (!isLineBreak ·)) := by
  have hnext : ∀ ds, c :: rest ≠ '\n' :: ds := by
    intro ds heq
    rw [(List.cons.inj heq).1] at hc
    exact absurd hc (by decide)
  -- The recursion of `breaksPlainly` takes a carriage return and its line feed in one step, as the
  -- lines do.
  induction before using breaksPlainly.induct with
  | case1 =>
    intro current
    refine ⟨current.reverse, List.length_reverse, ?_⟩
    have hpair : ∀ ds, c = '\r' → rest = '\n' :: ds → False := by
      intro ds heq
      rw [heq] at hc
      exact absurd hc (by decide)
    rw [List.nil_append, lineChars_cons hpair, hc, placeFrom,
      List.takeWhile_cons_of_pos (p := (!isLineBreak ·)) (by simp [hc])]
    have hhead := head_lineChars rest (c :: current) (List.cons_ne_nil c current)
    rwa [List.reverse_cons, List.append_assoc, List.singleton_append] at hhead
  | case2 cs ih =>
    intro current
    obtain ⟨first, hlength, hline⟩ := ih []
    refine ⟨first, ?_, ?_⟩
    · rw [placeFrom, placeFrom_succ]
      exact hlength
    · rw [placeFrom, placeFrom_succ, List.cons_append, List.cons_append, lineChars_pair]
      exact hline
  | case3 d cs hpair ih =>
    intro current
    have hpair' : ∀ ds, d = '\r' → cs ++ c :: rest = '\n' :: ds → False := by
      intro ds hd hds
      cases cs with
      | nil => exact hnext ds hds
      | cons e cs => exact hpair cs hd (by rw [(List.cons.inj hds).1])
    rw [placeFrom_cons hpair, List.cons_append, lineChars_cons hpair']
    split
    · obtain ⟨first, hlength, hline⟩ := ih []
      refine ⟨first, ?_, ?_⟩
      · rw [placeFrom_succ]
        exact hlength
      · rw [placeFrom_succ]
        exact hline
    · exact ih (d :: current)

/-- Counting line feeds alone gives the right line exactly if all breaks are plain. Otherwise it
stays behind. -/
theorem placeFrom_feeds (before : List Char) : ∀ (m : Mark) (line column : Nat),
    m.line = line + 1 → m.column = column + 1 →
      (m.after before).line ≤ (placeFrom line column before).1 + 1 ∧
      ((m.after before).line = (placeFrom line column before).1 + 1 ↔
        breaksPlainly before = true) ∧
      (breaksPlainly before = true →
        (m.after before).column = (placeFrom line column before).2 + 1) := by
  induction before using breaksPlainly.induct with
  | case1 =>
    intro m line column hline hcolumn
    exact ⟨hline.le, ⟨fun _ => rfl, fun _ => hline⟩, fun _ => hcolumn⟩
  | case2 cs ih =>
    intro m line column hline hcolumn
    exact ih ((m.next '\r').next '\n') (line + 1) 0 (congrArg (· + 1) hline) rfl
  | case3 c cs hpair ih =>
    intro m line column hline hcolumn
    have hplain : breaksPlainly (c :: cs) =
        ((c == '\n' || !isLineBreak c) && breaksPlainly cs) := by
      rw [breaksPlainly]
      exact hpair
    rw [placeFrom_cons hpair, hplain, Mark.after, List.foldl_cons, ← Mark.after, Mark.next]
    by_cases hfeed : c = '\n'
    · subst hfeed
      exact ih _ (line + 1) 0 (congrArg (· + 1) hline) rfl
    · have hfeed' : (c == '\n') = false := by simpa using hfeed
      rw [hfeed']
      by_cases hbreak : isLineBreak c = true
      · -- a line of the document ends here, without a feed
        have hle := (ih ⟨0, line + 2, 1⟩ (line + 1) 0 rfl rfl).1
        rw [Mark.line_after] at hle
        rw [hbreak, Mark.line_after]
        simp only [Bool.not_true, Bool.or_self, Bool.false_and, Bool.false_eq_true, if_false,
          if_true, iff_false, false_implies, and_true] at hle ⊢
        omega
      · rw [Bool.eq_false_iff.mpr hbreak]
        exact ih _ line (column + 1) hline (congrArg (· + 1) hcolumn)

theorem feedPlaceAfter_eq_iff (before : List Char) :
    feedPlaceAfter before = placeAfter before ↔ breaksPlainly before = true := by
  have hbehind := Mark.behind_origin.after before
  obtain ⟨_, hline, hcolumn⟩ := placeFrom_feeds before .origin 0 0 rfl rfl
  rw [hbehind.line] at hline
  rw [hbehind.column] at hcolumn
  rw [List.nil_append] at hline hcolumn
  rw [← hline, feedPlaceAfter, placeAfter, Position.mk.injEq]
  constructor
  · rintro ⟨h, _⟩
    omega
  · intro h
    have hplain := hcolumn (hline.mp h)
    omega

end Text

/-- A range in one of some lines, where the characters from its start to its end are a name. -/
def Range.ShowsIn (lines : List String) (r : Range) (name : String) : Prop :=
  ∃ (line first last : Nat) (text : String), lines[line]? = some text ∧
    r.start = ⟨line, first⟩ ∧ r.stop = ⟨line, last⟩ ∧ last ≤ text.length ∧
    (text.toList.take last).drop first = name.toList

def Range.along (p : Position) (name : String) : Range := ⟨p, ⟨p.line, p.column + name.length⟩⟩

/-- The lines show the name where it stands in the source. The range starts where line feeds alone
lead to, which is there exactly if the line breaks before it are plain. -/
def Range.Points (source : String) (lines : List String) (r : Range) (name : String) : Prop :=
  ∃ before after, source.toList = before ++ (name.toList ++ after) ∧
    (along (Text.placeAfter before) name).ShowsIn lines name ∧
    r = along (Text.feedPlaceAfter before) name ∧
    (r.start = Text.placeAfter before ↔ Text.breaksPlainly before = true) ∧
    (Text.breaksPlainly before = true → r.ShowsIn lines name)

/-- The lines of a document show a name where it stands. -/
theorem Text.showsIn_placeAfter {source name : String} {before after : List Char}
    (hsource : source.toList = before ++ (name.toList ++ after)) (hname : name.toList ≠ [])
    (hplain : ∀ c ∈ name.toList, isLineBreak c = false) :
    (Range.along (placeAfter before) name).ShowsIn (lines source) name := by
  have htaken : (name.toList ++ after).takeWhile (!isLineBreak ·) =
      name.toList ++ after.takeWhile (!isLineBreak ·) :=
    List.takeWhile_append_of_pos fun c hc => by simp [hplain c hc]
  obtain ⟨c, cs, hcs⟩ := List.exists_cons_of_ne_nil hname
  obtain ⟨first, hlength, hline⟩ :=
    exists_lineChars (hplain c (hcs ▸ List.mem_cons_self)) (cs ++ after) before []
  rw [← List.cons_append, ← hcs, htaken, ← hsource] at hline
  refine ⟨_, _, (placeFrom 0 0 before).2 + name.length,
    String.ofList (first ++ (name.toList ++ after.takeWhile (!isLineBreak ·))), ?_, rfl, rfl,
    ?_, ?_⟩
  · rw [lines, List.getElem?_map]
    exact congrArg (Option.map String.ofList) hline
  · rw [String.length_ofList, List.length_append, List.length_append, hlength,
      String.length_toList]
    exact Nat.add_le_add_left (Nat.le_add_right _ _) _
  · have hfirst : (placeFrom 0 0 before).2 = first.length := hlength.symm
    rw [String.toList_ofList, hfirst, ← String.length_toList, ← List.append_assoc,
      ← List.length_append, List.take_left, List.drop_left]

namespace Typed

/-- The characters of names lie between the breaks. -/
theorem isLineBreak_eq_false {c : Char}
    (h : Terminal.isRuleChar c = true ∨ Terminal.isTerminalChar c = true) :
    Text.isLineBreak c = false := by
  have hbounds : 48 ≤ c.toNat ∧ c.toNat ≤ 122 := by
    have hbetween : ∀ {d e : Char}, 48 ≤ d.toNat → e.toNat ≤ 122 → d ≤ c → c ≤ e →
        48 ≤ c.toNat ∧ c.toNat ≤ 122 :=
      fun hd he hdc hce => ⟨Nat.le_trans hd hdc, Nat.le_trans hce he⟩
    simp only [Terminal.isRuleChar, Terminal.isTerminalChar, Terminal.isSmall, Terminal.isLarge,
      Terminal.isFigure, Bool.or_eq_true, Bool.and_eq_true, beq_iff_eq, decide_eq_true_eq] at h
    rcases h with ((rfl | ⟨hd, he⟩) | ⟨hd, he⟩) | ((rfl | ⟨hd, he⟩) | ⟨hd, he⟩)
    · decide
    · exact hbetween (by decide) (by decide) hd he
    · exact hbetween (by decide) (by decide) hd he
    · decide
    · exact hbetween (by decide) (by decide) hd he
    · exact hbetween (by decide) (by decide) hd he
  simp only [Text.isLineBreak, Bool.or_eq_false_iff, Bool.and_eq_false_iff, decide_eq_false_iff_not,
    beq_eq_false_iff_ne]
  omega

/-- A name has no line break of any kind in it. -/
theorem Name.isLineBreak_text (x : Name) : ∀ c ∈ x.lexeme.text, Text.isLineBreak c = false := by
  intro c hc
  cases x with
  | rule x => exact isLineBreak_eq_false (Or.inl (isRuleChar_of_mem x.spells c hc))
  | terminal x => exact isLineBreak_eq_false (Or.inr (isTerminalChar_of_mem x.spells c hc))

theorem Name.points_range {source : String} (x : Name) (h : x.lexeme.OccursIn source) :
    x.Relates (Range.Points source (Text.lines source)) := by
  obtain ⟨before, after, hsource, hbehind⟩ := h
  rw [← String.toList_ofList (l := x.lexeme.text)] at hsource
  have hwidth := x.width_pos
  rw [x.withoutSigns_token] at hwidth
  have hshows : (Range.along (Text.placeAfter before) (String.ofList x.lexeme.text)).ShowsIn
      (Text.lines source) (String.ofList x.lexeme.text) := by
    apply Text.showsIn_placeAfter hsource
    · rw [String.toList_ofList]
      exact List.ne_nil_of_length_pos hwidth
    · rw [String.toList_ofList]
      exact x.isLineBreak_text
  have hline := hbehind.line
  have hcolumn := hbehind.column
  have hrange : x.lexeme.token.range true =
      Range.along (Text.feedPlaceAfter before) (String.ofList x.lexeme.text) := by
    have hposition : x.lexeme.token.position true = Text.feedPlaceAfter before := by
      rw [x.position_token ⟨by omega, by omega⟩, Lexeme.position, Text.feedPlaceAfter,
        Position.mk.injEq]
      omega
    rw [Token.range, hposition, x.withoutSigns_token, Range.along, String.length_ofList]
    rfl
  refine ⟨before, after, hsource, hshows, hrange, ?_, ?_⟩
  · rw [hrange]
    exact Text.feedPlaceAfter_eq_iff before
  · intro hplain
    rwa [hrange, (Text.feedPlaceAfter_eq_iff before).mpr hplain]

end Typed

namespace Document

/-- The range of a name and the lines of a document agree exactly if each line break in front of the
name is a line feed, alone or behind a carriage return. -/
theorem places_agree_iff (load : Loader) (uri source : String) :
    (∀ r ∈ (ofText load uri source).table.references.values,
      r.range.Points source (ofText load uri source).lines r.name) ∧
    ∀ x ∈ (ofText load uri source).table.definitions.values,
      x.Selects (Range.Points source (ofText load uri source).lines) := by
  obtain ⟨ss, hholds⟩ := exists_holds load uri source
  have hpoints : ∀ s ∈ ss, ∀ x ∈ s.uses, x.Relates (Range.Points source (Text.lines source)) := by
    intro s hs x hx
    apply x.points_range
    apply occursIn_of_mem_readUses
    rw [hholds.uses_eq]
    exact List.mem_map_of_mem (List.mem_flatMap.mpr ⟨s, hs, hx⟩)
  rw [hholds.lines_eq, hholds.references_eq, hholds.definitions_eq]
  constructor
  · intro r hr
    obtain ⟨s, hs, hrs⟩ := List.mem_flatMap.mp ((Catalog.mem_values_group _ _).mp hr)
    obtain ⟨x, hx, rfl⟩ := List.mem_map.mp hrs
    exact hpoints s hs x hx
  · intro x hx
    obtain ⟨s, hs, hxs⟩ := List.mem_flatMap.mp ((Catalog.mem_values_group _ _).mp hx)
    exact Typed.Statement.selects_definitions (hpoints s hs) x hxs

theorem places_agree_iff_twoLines :
    (∃ r ∈ (ofText .idle "u" "a: b\nC: \"x\"").table.references.values, r.name = "C" ∧
      r.range = ⟨⟨1, 0⟩, ⟨1, 1⟩⟩ ∧
      r.range.Points "a: b\nC: \"x\"" (ofText .idle "u" "a: b\nC: \"x\"").lines "C") ∧
    ∀ x ∈ (ofText .idle "u" "a: b\nC: \"x\"").table.definitions.values,
      x.Selects (Range.Points "a: b\nC: \"x\"" (ofText .idle "u" "a: b\nC: \"x\"").lines) := by
  have huse : (⟨.terminalName, ['C'], ⟨5, 2, 1⟩, ⟨6, 2, 2⟩⟩ : Lexeme) ∈
      readUses "a: b\nC: \"x\"" := by
    rw [readUses_twoLines]
    decide
  obtain ⟨hreferences, hdefinitions⟩ := places_agree_iff .idle "u" "a: b\nC: \"x\""
  obtain ⟨r, hr, hname, hrange⟩ := exists_reference .idle "u" huse
  have hpoints := hreferences r hr
  rw [hname] at hpoints
  exact ⟨⟨r, hr, hname, hrange, hpoints⟩, hdefinitions⟩

open GrammarServer.Derivation in
def formFeed : Derivation :=
  ofItems (ofParts .comment [ofWord .comment ⟨0, 1, 1⟩ "//\x0c"])
    [ofWord .newline ⟨3, 1, 4⟩ "\n",
      ofRule ⟨4, 2, 1⟩ "a" [] [] ⟨5, 2, 2⟩
        (ofAlternative [ofValue .nonterminal .ruleName ⟨7, 2, 4⟩ "b"])]

/-- Behind a form feed the range of a name points to another line, where there is no name. -/
theorem places_differ_formFeed :
    (ofText .idle "u" "//\x0c\na: b").lines = ["//", "", "a: b"] ∧
    (∃ r ∈ (ofText .idle "u" "//\x0c\na: b").table.references.values, r.name = "b" ∧
      r.range = ⟨⟨1, 3⟩, ⟨1, 4⟩⟩ ∧
      ¬ r.range.ShowsIn (ofText .idle "u" "//\x0c\na: b").lines r.name) ∧
    (ofText .idle "u" "//\x0c\na: b").wordAt 1 3 = .ok none := by
  have hparse : Parse.recovering "//\x0c\na: b" = ⟨[], .ok formFeed⟩ :=
    Parse.recovering_of_settled (by decide) rfl (by decide) (by decide +kernel)
  have huse : (⟨.ruleName, ['b'], ⟨7, 2, 4⟩, ⟨8, 2, 5⟩⟩ : Lexeme) ∈ readUses "//\x0c\na: b" := by
    rw [readUses_of_built hparse (by decide +kernel)]
    decide
  obtain ⟨ss, hholds⟩ := exists_holds .idle "u" "//\x0c\na: b"
  obtain ⟨r, hr, hname, hrange⟩ := exists_reference .idle "u" huse
  have hlines : Text.lines "//\x0c\na: b" = ["//", "", "a: b"] := by decide
  rw [hholds.lines_eq, hlines, wordAt_ofText]
  refine ⟨rfl, ⟨r, hr, hname, hrange, ?_⟩, rfl⟩
  rintro ⟨line, first, last, text, hline, hstart, hstop, hlast, _⟩
  rw [hrange] at hstart hstop
  obtain rfl : 1 = line := Int.ofNat_inj.mp (congrArg Position.line hstart)
  obtain rfl := Option.some.inj hline
  have hcolumn : (4 : Int) = last := congrArg Position.column hstop
  have hempty : last ≤ 0 := hlast
  omega

end Document

end GrammarServer
