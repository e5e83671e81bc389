import GrammarServer.Proofs.Layout.Rows

/-!
# The blocks of a formatted file

Cut at each two line feeds in a row, the text of a file is one block for each of its statements,
and that is the text of the statement. This holds because the rows of a statement are not empty
and have no line feed in them.
-/
namespace GrammarServer

namespace Text

/-- The pieces of a text between two line feeds in a row and the next such two; never empty. -/
def blockChars : List Char → List (List Char)
  | [] => [[]]
  | [c] => [[c]]
  | c :: d :: cs =>
    if c = '\n' ∧ d = '\n' then [] :: blockChars cs
    else (blockChars (d :: cs)).modifyHead (c :: ·)

def blocks (s : String) : List String := (blockChars s.toList).map String.ofList

theorem blockChars_cons {c : Char} {cs : List Char} (h : ¬ (c = '\n' ∧ cs.head? = some '\n')) :
    blockChars (c :: cs) = (blockChars cs).modifyHead (c :: ·) := by
  cases cs with
  | nil => rfl
  | cons d cs =>
    have hfeeds : ¬ (c = '\n' ∧ d = '\n') := fun ⟨hc, hd⟩ => h ⟨hc, congrArg some hd⟩
    rw [blockChars, if_neg hfeeds]

theorem blockChars_append {w : List Char} (hw : '\n' ∉ w) (cs : List Char) :
    blockChars (w ++ cs) = (blockChars cs).modifyHead (w ++ ·) := by
  induction w with
  | nil => exact (congrFun List.modifyHead_id _).symm
  | cons c w ih =>
    obtain ⟨hc, hw⟩ := not_or.mp (mt List.mem_cons.mpr hw)
    rw [List.cons_append, blockChars_cons fun h => hc h.1.symm, ih hw, List.modifyHead_modifyHead]
    rfl

theorem head?_intercalate_ne {r : String} (hr : IsRow r) (rs : List String) (cs : List Char) :
    (("\n".intercalate (r :: rs)).toList ++ cs).head? ≠ some '\n' := by
  obtain ⟨rest, hrest⟩ := toList_intercalate_cons "\n" r rs
  obtain ⟨hline, c, hc, _⟩ := hr
  obtain ⟨d, w, hw⟩ := List.exists_cons_of_ne_nil (List.ne_nil_of_mem hc)
  rw [hrest, hw]
  intro hhead
  cases hhead
  exact hline (hw ▸ List.mem_cons_self)

/-- Rows do not come to the end of their block, for each goes on behind a single line feed. -/
theorem blockChars_rows {rs : List String} (h : ∀ r ∈ rs, IsRow r) (cs : List Char) :
    blockChars (("\n".intercalate rs).toList ++ cs) =
      (blockChars cs).modifyHead (("\n".intercalate rs).toList ++ ·) := by
  induction rs with
  | nil => rw [String.intercalate_nil]; exact (congrFun List.modifyHead_id _).symm
  | cons r rs ih =>
    obtain ⟨hr, hrs⟩ := List.forall_mem_cons.mp h
    cases rs with
    | nil => rw [String.intercalate_singleton, blockChars_append hr.1]
    | cons s rs =>
      have hs := hrs s List.mem_cons_self
      have hfront := head?_intercalate_ne hs rs cs
      have hchars : ("\n".intercalate (r :: s :: rs)).toList =
          r.toList ++ '\n' :: ("\n".intercalate (s :: rs)).toList := by
        rw [String.intercalate_cons_cons]
        simp
      rw [hchars, List.append_assoc, blockChars_append hr.1, List.cons_append,
        blockChars_cons fun h => hfront h.2, ih hrs, List.modifyHead_modifyHead,
        List.modifyHead_modifyHead]
      congr 1
      funext w
      simp

theorem blocks_rows {rs : List String} (h : ∀ r ∈ rs, IsRow r) :
    blocks ("\n".intercalate rs) = ["\n".intercalate rs] := by
  have hrows := blockChars_rows h []
  rw [List.append_nil, blockChars, List.modifyHead_cons, List.append_nil] at hrows
  rw [blocks, hrows, List.map_singleton, String.ofList_toList]

/-- A block of rows ends at an empty line. -/
theorem blocks_rows_append {rs : List String} (h : ∀ r ∈ rs, IsRow r) (s : String) :
    blocks ("\n".intercalate rs ++ "\n\n" ++ s) = "\n".intercalate rs :: blocks s := by
  have hfeeds : blockChars ("\n\n" ++ s).toList = [] :: blockChars s.toList := by
    rw [String.toList_append]
    exact if_pos ⟨rfl, rfl⟩
  have hrows := blockChars_rows h ("\n\n" ++ s).toList
  rw [hfeeds, List.modifyHead_cons, List.append_nil, ← String.toList_append] at hrows
  rw [blocks, String.append_assoc, hrows, List.map_cons, String.ofList_toList, blocks]

theorem blocks_intercalate {rss : List (List String)} (hne : rss ≠ [])
    (h : ∀ rs ∈ rss, ∀ r ∈ rs, IsRow r) :
    blocks ("\n\n".intercalate (rss.map "\n".intercalate)) = rss.map "\n".intercalate := by
  induction rss with
  | nil => exact absurd rfl hne
  | cons rs rss ih =>
    obtain ⟨hrs, hrss⟩ := List.forall_mem_cons.mp h
    cases rss with
    | nil => rw [List.map_singleton, String.intercalate_singleton, blocks_rows hrs]
    | cons ss rss =>
      have hrest := ih (List.cons_ne_nil ss rss) hrss
      rw [List.map_cons] at hrest
      rw [List.map_cons, List.map_cons, String.intercalate_cons_cons, blocks_rows_append hrs, hrest]

end Text

namespace Layout

theorem isRow_of_renders {indent : String} (hindent : Terminal.IsIndent indent) {ns : List Node}
    {rss : List (List String)} (h : List.Forall₂ (Renders indent) ns rss) :
    ∀ rs ∈ rss, rs ≠ [] ∧ ∀ r ∈ rs, Text.IsRow r := by
  induction h with
  | nil => exact List.forall_mem_nil _
  | cons hn _ ih => exact List.forall_mem_cons.mpr ⟨hn.isRow hindent, ih⟩

/-- Cut at its empty lines, the layout of a file gives one block for each statement, which is the
text of the statement alone and has no empty line. -/
theorem forall₂_blocks_ofStatements {source : String} {d : Derivation} {file : Node}
    (hparse : Parse.strict source = .ok d ∨ (Parse.recovering source).result = .ok d)
    (hbuild : d.tree.build = .ok file) (hne : file.statements ≠ []) {indent : String}
    (hindent : Terminal.IsIndent indent) :
    ∃ text, ofStatements indent file.statements = .ok text ∧
      text = "\n\n".intercalate (Text.blocks text) ∧
      List.Forall₂ (fun statement block =>
        (∃ t, Layout.text indent statement = .ok t ∧ block = Text.strip t) ∧ block ≠ "" ∧
          ∀ line ∈ Text.splitLines block, ∃ c ∈ line.toList, Text.isBlank c = false)
        file.statements (Text.blocks text) := by
  obtain ⟨rss, hrenders⟩ :=
    Typed.exists_renders (hparse.elim Parse.recovering_of_strict id) hbuild indent
  have hrows := isRow_of_renders hindent hrenders
  have hblocks : Text.blocks ("\n\n".intercalate (rss.map "\n".intercalate)) =
      rss.map "\n".intercalate := by
    refine Text.blocks_intercalate ?_ fun rs hrs => (hrows rs hrs).2
    rintro rfl
    exact hne (List.forall₂_nil_right_iff.mp hrenders)
  refine ⟨_, ofStatements_eq hindent hrenders, by rw [hblocks], ?_⟩
  rw [hblocks, List.forall₂_map_right_iff]
  refine hrenders.imp fun n rs h => ?_
  obtain ⟨t, htext, hstrip, hsolid⟩ := h.exists_text hindent
  obtain ⟨hfirst, hrow⟩ := h.isRow hindent
  refine ⟨⟨t, htext, hstrip.symm⟩, ?_, ?_⟩
  · rintro hempty
    rw [hstrip, hempty] at hsolid
    exact hsolid.ne_nil rfl
  · rw [Text.splitLines_intercalate hfirst fun r hr => (hrow r hr).1]
    exact fun r hr => (hrow r hr).2

open GrammarServer.Derivation in
/-- How a rule with an empty alternative at its end and a directive after it are derived. -/
def ruleAndIgnore : Derivation :=
  let terminal (m : Mark) (s : String) : Derivation :=
    ofParts .aliasing [ofValue .terminal .terminalName m s]
  let either (first : Derivation) (m : Mark) (second : Derivation) : Derivation :=
    ofParts .expansions [ofParts .alternatives [ofParts .alternatives [first],
      ofWord .bar m "|", second]]
  ofItems
    (ofRule ⟨0, 1, 1⟩ "r" [] [] ⟨1, 1, 2⟩ (either (terminal ⟨3, 1, 4⟩ "A") ⟨5, 1, 6⟩
      (ofParts .aliasing [ofParts .expansion [ofParts .exprs []]])))
    [ofWord .newline ⟨6, 1, 7⟩ "\n",
      ofParts .ignore [ofWord .ignoreWord ⟨7, 2, 1⟩ "%ignore",
        either (terminal ⟨15, 2, 9⟩ "A") ⟨17, 2, 11⟩ (terminal ⟨19, 2, 13⟩ "B")],
      ofWord .newline ⟨20, 2, 14⟩ "\n"]

theorem strict_ruleAndIgnore :
    Parse.strict "r: A |\n%ignore A | B\n" = .ok ruleAndIgnore :=
  Parse.strict_of_settled (by decide) rfl (by decide) (by decide +kernel)

theorem layout_ruleAndIgnore : ∃ file, ruleAndIgnore.tree.build = .ok file ∧
    file.statements ≠ [] ∧ ofStatements "\t" file.statements =
      .ok "r: A\n\t|\n\n%ignore A\n    | B" := by
  have hread : ruleAndIgnore.tree.build.toOption.any (fun file => !file.statements.isEmpty &&
      (ofStatements "\t" file.statements).toOption ==
        some "r: A\n\t|\n\n%ignore A\n    | B") = true := by decide +kernel
  obtain ⟨file, hfile, hread⟩ := (Option.any_eq_true _ _).mp hread
  rw [Bool.and_eq_true, beq_iff_eq] at hread
  exact ⟨file, Typed.eq_ok_of_toOption hfile, by simpa using hread.1,
    Typed.eq_ok_of_toOption hread.2⟩

/-- The empty alternative at the end of the rule leaves no empty line behind it. -/
theorem forall₂_blocks_ofStatements_ruleAndIgnore :
    Parse.strict "r: A |\n%ignore A | B\n" = .ok ruleAndIgnore ∧ Terminal.IsIndent "\t" ∧
      ∃ file text, ruleAndIgnore.tree.build = .ok file ∧ file.statements ≠ [] ∧
        ofStatements "\t" file.statements = .ok text ∧
        Text.blocks text = ["r: A\n\t|", "%ignore A\n    | B"] ∧
        file.statements.length = (Text.blocks text).length := by
  obtain ⟨file, hbuild, hne, hlayout⟩ := layout_ruleAndIgnore
  have hindent : Terminal.IsIndent "\t" := by decide
  obtain ⟨text, htext, -, hblocks⟩ :=
    forall₂_blocks_ofStatements (Or.inl strict_ruleAndIgnore) hbuild hne hindent
  obtain rfl := Except.ok.inj (hlayout.symm.trans htext)
  exact ⟨strict_ruleAndIgnore, hindent, file, _, hbuild, hne, htext, by decide +kernel,
    hblocks.length_eq⟩

end Layout

end GrammarServer
