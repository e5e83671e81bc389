import GrammarServer.Proofs.Layout.Blocks

/-!
# Where the indentation that is asked for is used

The alternatives of a rule or a terminal are indented as asked for. Those of a directive have the
usual indentation instead, so a file is indented as asked for exactly if that is the usual
indentation, or if no directive in it has a second alternative.
-/
namespace GrammarServer

theorem Text.Opens.trimEnd {cs : List Char} (h : Opens cs) : Opens (trimEnd cs) := by
  obtain ⟨c, hc, hblank, hbar⟩ := h
  obtain ⟨ds, rfl⟩ := List.head?_eq_some_iff.mp hc
  rw [trimEnd_cons hblank]
  exact ⟨c, rfl, hblank, hbar⟩

namespace Layout

def startsWithBar (line : String) : Bool :=
  (line.toList.dropWhile Text.isBlank).head? == some '|'

/-- A line that starts with a bar has the indentation in front of it, and a blank behind the bar
unless that ends its statement, with an empty line after it. -/
def isIndented (indent line next : String) : Bool :=
  !startsWithBar line || (indent ++ "| ").toList.isPrefixOf line.toList ||
    (line == indent ++ "|" && next == "")

def areIndented (indent : String) : List String → Bool
  | [] => true
  | line :: rest => isIndented indent line (rest.headD "") && areIndented indent rest

theorem areIndented_append (indent : String) (rs ls : List String) :
    areIndented indent (rs ++ "" :: ls) = (areIndented indent rs && areIndented indent ls) := by
  induction rs with
  | nil => rfl
  | cons r rs ih =>
    have hnext : (rs ++ "" :: ls).headD "" = rs.headD "" := by
      cases rs <;> rfl
    rw [List.cons_append, areIndented, areIndented, ih, hnext, Bool.and_assoc]

theorem isIndented_of_opens {line : String} (h : Text.Opens line.toList) (indent next : String) :
    isIndented indent line next = true := by
  obtain ⟨c, hc, hblank, hbar⟩ := h
  have hstart : startsWithBar line = false := by
    rw [startsWithBar, Text.dropWhile_of_head hc hblank, hc]
    simpa using hbar
  rw [isIndented, hstart]
  rfl

theorem eq_of_append_bar {m n x y : List Char} (hm : '|' ∉ m) (hn : '|' ∉ n)
    (h : m ++ '|' :: x = n ++ '|' :: y) : m = n := by
  have hfront : ∀ w z : List Char, '|' ∉ w → (w ++ '|' :: z).takeWhile (· != '|') = w := by
    intro w z hw
    have hall : ∀ c ∈ w, (c != '|') = true := fun c hc => by
      simpa using fun heq : c = '|' => hw (heq ▸ hc)
    rw [List.takeWhile_append_of_pos hall, List.takeWhile_cons_of_neg (by decide),
      List.append_nil]
  rw [← hfront m x hm, h, hfront n y hn]

/-- A line with a margin, a bar and perhaps a blank is as asked for exactly if the margin is. -/
theorem isIndented_bar_iff {indent margin line next : String} {x : List Char}
    (hindent : Terminal.IsIndent indent) (hmargin : Terminal.IsIndent margin)
    (hline : line.toList = margin.toList ++ '|' :: x)
    (hx : x = [] ∧ next = "" ∨ ∃ y, x = ' ' :: y) :
    isIndented indent line next = true ↔ margin = indent := by
  have hstart : startsWithBar line = true := by
    rw [startsWithBar, hline, Text.dropWhile_blanks (Terminal.isBlank_of_isIndent hmargin),
      List.dropWhile_cons_of_neg (by decide)]
    rfl
  have hunique : ∀ y, line.toList = indent.toList ++ '|' :: y → margin = indent := by
    intro y hy
    have hbar : '|' ≠ ' ' ∧ '|' ≠ '\t' := by decide
    exact String.toList_inj.mp (eq_of_append_bar (not_mem_of_isIndent hmargin hbar)
      (not_mem_of_isIndent hindent hbar) (hline.symm.trans hy))
  rw [isIndented, hstart, Bool.not_true, Bool.false_or, Bool.or_eq_true, Bool.and_eq_true,
    List.isPrefixOf_iff_prefix, beq_iff_eq, beq_iff_eq]
  constructor
  · rintro (⟨y, hy⟩ | ⟨heq, _⟩)
    · exact hunique (' ' :: y) (by simp [← hy])
    · exact hunique [] (by simp [heq])
  · rintro rfl
    rcases hx with ⟨rfl, hnext⟩ | ⟨y, rfl⟩
    · exact Or.inr ⟨String.toList_inj.mp (by simp [hline]), hnext⟩
    · exact Or.inl ⟨y, by simp [hline]⟩

theorem trimEnd_space (cs : List Char) :
    Text.trimEnd (' ' :: cs) = [] ∨ ∃ y, Text.trimEnd (' ' :: cs) = ' ' :: y := by
  by_cases h : ∃ c ∈ cs, Text.isBlank c = false
  · exact Or.inr ⟨_, Text.trimEnd_append [' '] h⟩
  · refine Or.inl (List.reverse_eq_nil_iff.mpr (List.dropWhile_eq_nil_iff.mpr fun c hc => ?_))
    rcases List.mem_cons.mp (List.mem_reverse.mp hc) with rfl | hc
    · decide
    · by_contra hblank
      exact h ⟨c, hc, by simpa using hblank⟩

/-- The rows of the alternatives after the first. -/
theorem areIndented_bars_iff {indent margin : String} (hindent : Terminal.IsIndent indent)
    (hmargin : Terminal.IsIndent margin) {alternatives : List String} (hne : alternatives ≠ []) :
    areIndented indent (Text.trimLast (alternatives.map fun b => margin ++ "| " ++ b)) = true ↔
      margin = indent := by
  induction alternatives with
  | nil => exact absurd rfl hne
  | cons b bs ih =>
    have hchars : (margin ++ "| " ++ b).toList = margin.toList ++ '|' :: ' ' :: b.toList := by simp
    cases bs with
    | nil =>
      have hline : (String.ofList (Text.trimEnd (margin ++ "| " ++ b).toList)).toList =
          margin.toList ++ '|' :: Text.trimEnd (' ' :: b.toList) := by
        rw [String.toList_ofList, hchars,
          Text.trimEnd_append _ ⟨'|', List.mem_cons_self, by decide⟩, Text.trimEnd_cons (by decide)]
      rw [List.map_singleton, Text.trimLast, areIndented, areIndented, Bool.and_true]
      exact isIndented_bar_iff hindent hmargin hline
        ((trimEnd_space b.toList).imp (fun h => ⟨h, rfl⟩) id)
    | cons c cs =>
      have hrest := ih (List.cons_ne_nil c cs)
      rw [List.map_cons] at hrest
      rw [List.map_cons, List.map_cons, Text.trimLast, areIndented, Bool.and_eq_true, hrest,
        isIndented_bar_iff hindent hmargin hchars (Or.inr ⟨_, rfl⟩), and_self]

theorem Drawn.areIndented_iff {indent margin head : String} {alternatives : List String}
    (h : Drawn head alternatives) (hindent : Terminal.IsIndent indent)
    (hmargin : Terminal.IsIndent margin) :
    areIndented indent (finalRows head margin alternatives) = true ↔
      margin = indent ∨ alternatives.length ≤ 1 := by
  have hopens : ∀ s : String, Text.Opens (head ++ s).toList := by
    intro s
    rw [String.toList_append]
    exact h.opens.append _
  have hsingle : ∀ s : String, areIndented indent (Text.trimLast [head ++ s]) = true := by
    intro s
    rw [Text.trimLast, areIndented, areIndented, Bool.and_true]
    apply isIndented_of_opens
    rw [String.toList_ofList]
    exact (hopens s).trimEnd
  cases alternatives with
  | nil =>
    have hhead := hsingle ""
    rw [String.append_empty] at hhead
    exact iff_of_true hhead (Or.inr (Nat.zero_le 1))
  | cons a as =>
    cases as with
    | nil => exact iff_of_true (hsingle a) (Or.inr (Nat.le_refl 1))
    | cons b bs =>
      have hmore := areIndented_bars_iff hindent hmargin (List.cons_ne_nil b bs)
      have hlength : ¬ (a :: b :: bs).length ≤ 1 := by simp
      rw [List.map_cons] at hmore
      rw [finalRows, rows, List.map_cons, Text.trimLast, areIndented,
        isIndented_of_opens (hopens a), Bool.true_and, hmore, or_iff_left hlength]

theorem splitLines_append_blank (s t : String) :
    Text.splitLines (s ++ "\n\n" ++ t) = Text.splitLines s ++ "" :: Text.splitLines t := by
  have hfeeds : s ++ "\n\n" ++ t = s ++ "\n" ++ ("" ++ "\n" ++ t) := by
    apply String.toList_inj.mp
    simp
  rw [hfeeds, Text.splitLines_append_feed, Text.splitLines_append_feed]
  rfl

/-- The lines of a file are as asked for exactly if those of each statement are. -/
theorem areIndented_intercalate (indent : String) {rss : List (List String)}
    (h : ∀ rs ∈ rss, rs ≠ [] ∧ ∀ r ∈ rs, Text.IsRow r) :
    areIndented indent (Text.splitLines ("\n\n".intercalate (rss.map "\n".intercalate))) =
      rss.all (areIndented indent) := by
  induction rss with
  | nil => rw [List.map_nil, String.intercalate_nil]; rfl
  | cons rs rss ih =>
    obtain ⟨⟨hne, hrs⟩, hrss⟩ := List.forall_mem_cons.mp h
    have hlines := Text.splitLines_intercalate hne fun r hr => (hrs r hr).1
    cases rss with
    | nil => rw [List.map_singleton, String.intercalate_singleton, hlines, List.all_cons,
        List.all_nil, Bool.and_true]
    | cons ss rss =>
      have hrest := ih hrss
      rw [List.map_cons] at hrest
      rw [List.map_cons, List.map_cons, String.intercalate_cons_cons, splitLines_append_blank,
        hlines, areIndented_append, hrest]
      rfl

theorem margin_eq_iff (indent : String) (n : Node) :
    margin indent n = indent ↔ indent = usualIndent ∨ n.isDirective = false := by
  rw [margin]
  split
  · rename_i hdirective
    simp [hdirective, eq_comm]
  · rename_i hdirective
    simp [hdirective]

theorem Renders.areIndented_iff {indent : String} {n : Node} {rs : List String}
    (h : Renders indent n rs) (hindent : Terminal.IsIndent indent) :
    areIndented indent rs = true ↔
      indent = usualIndent ∨ (n.isDirective = true → n.alternatives.length ≤ 1) := by
  obtain ⟨head, alternatives, _, hdrawn, hlength, rfl, _⟩ := h
  rw [hdrawn.areIndented_iff hindent (isIndent_margin hindent n), margin_eq_iff, hlength, or_assoc]
  cases n.isDirective <;> simp

theorem all_areIndented_iff {indent : String} (hindent : Terminal.IsIndent indent)
    {ns : List Node} {rss : List (List String)} (h : List.Forall₂ (Renders indent) ns rss) :
    rss.all (areIndented indent) = true ↔ indent = usualIndent ∨
      ∀ n ∈ ns, n.isDirective = true → n.alternatives.length ≤ 1 := by
  induction h with
  | nil => simp
  | cons hn _ ih =>
    rw [List.all_cons, Bool.and_eq_true, hn.areIndented_iff hindent, ih, List.forall_mem_cons,
      or_and_left]

/-- A file that is read from a source is indented as asked for exactly if the usual indentation is
asked for, or if no directive in it has a second alternative. -/
theorem areIndented_ofStatements_iff {source : String} {d : Derivation} {file : Node}
    (hparse : Parse.strict source = .ok d ∨ (Parse.recovering source).result = .ok d)
    (hbuild : d.tree.build = .ok file) {indent : String} (hindent : Terminal.IsIndent indent) :
    ∃ text, ofStatements indent file.statements = .ok text ∧
      (areIndented indent (Text.splitLines text) = true ↔ indent = usualIndent ∨
        ∀ n ∈ file.statements, n.isDirective = true → n.alternatives.length ≤ 1) := by
  obtain ⟨rss, hrenders⟩ :=
    Typed.exists_renders (hparse.elim Parse.recovering_of_strict id) hbuild indent
  refine ⟨_, ofStatements_eq hindent hrenders, ?_⟩
  rw [areIndented_intercalate indent (isRow_of_renders hindent hrenders),
    all_areIndented_iff hindent hrenders]

/-- A tab is asked for, so the second alternative of the directive gives a line that differs. -/
theorem areIndented_ofStatements_iff_ruleAndIgnore :
    Parse.strict "r: A |\n%ignore A | B\n" = .ok ruleAndIgnore ∧ Terminal.IsIndent "\t" ∧
      ∃ file text, ruleAndIgnore.tree.build = .ok file ∧
        ofStatements "\t" file.statements = .ok text ∧
        areIndented "\t" (Text.splitLines text) = false ∧
        ∃ n ∈ file.statements, n.isDirective = true ∧ 1 < n.alternatives.length := by
  obtain ⟨file, hbuild, _, hlayout⟩ := layout_ruleAndIgnore
  have hindent : Terminal.IsIndent "\t" := by decide
  obtain ⟨text, htext, hiff⟩ :=
    areIndented_ofStatements_iff (Or.inl strict_ruleAndIgnore) hbuild hindent
  obtain rfl := Except.ok.inj (hlayout.symm.trans htext)
  have hlines : areIndented "\t" (Text.splitLines "r: A\n\t|\n\n%ignore A\n    | B") = false := by
    decide +kernel
  refine ⟨strict_ruleAndIgnore, hindent, file, _, hbuild, htext, hlines, ?_⟩
  by_contra! hfew
  have hall := hiff.mpr (Or.inr hfew)
  rw [hlines] at hall
  cases hall

/-- The rule's second alternative has the tab in front of it and the directive's has four blanks. -/
theorem not_areIndented_ruleAndIgnore :
    ∃ d file text, Parse.strict "r: A |\n%ignore A | B\n" = .ok d ∧ d.tree.build = .ok file ∧
      Terminal.IsIndent "\t" ∧ ofStatements "\t" file.statements = .ok text ∧
      Text.splitLines text = ["r: A", "\t|", "", "%ignore A", "    | B"] ∧
      areIndented "\t" (Text.splitLines text) = false := by
  obtain ⟨file, hbuild, _, hlayout⟩ := layout_ruleAndIgnore
  exact ⟨ruleAndIgnore, file, _, strict_ruleAndIgnore, hbuild, by decide, hlayout,
    by decide +kernel, by decide +kernel⟩

end Layout

end GrammarServer
