import GrammarServer.Proofs.Document.Formatted
import GrammarServer.Proofs.Typed.Total

/-!
# What formatting keeps

Names, literals, numbers and comments are the words with content. Formatting writes those of the
derivation that the parser found, in their order. What the parser dropped on the way is lost, and
so are the priority zero, the way a priority is spelled and the blanks at the end of a comment.
-/
namespace GrammarServer

/-! ## Words with content -/

namespace Lexeme

def contents (xs : List Lexeme) : List Lexeme := xs.filter fun x => x.terminal.isContent

/-- The words with content of a text. Stray characters are passed over. -/
def contentsOf (source : String) : List (Terminal × List Char) :=
  (contents (Parse.lexemesIn (Piece.ofSource source))).map key

theorem contents_append (xs ys : List Lexeme) : contents (xs ++ ys) = contents xs ++ contents ys :=
  List.filter_append _ _

end Lexeme

namespace Parse

open Lexeme (contents contentsOf)

theorem lexemesIn_append (ps qs : List Piece) :
    lexemesIn (ps ++ qs) = lexemesIn ps ++ lexemesIn qs :=
  List.filterMap_append

theorem lexemesIn_map_lexeme (xs : List Lexeme) : lexemesIn (xs.map .lexeme) = xs := by
  induction xs with
  | nil => rfl
  | cons x xs ih => exact congrArg (x :: ·) ih

/-- Blanks and continuations have no content. -/
theorem contents_significant (ps : List Piece) :
    contents (lexemesIn (ps.filter Piece.isSignificant)) = contents (lexemesIn ps) := by
  induction ps with
  | nil => rfl
  | cons p ps ih =>
    rw [← List.singleton_append, List.filter_append, lexemesIn_append, lexemesIn_append,
      Lexeme.contents_append, Lexeme.contents_append, ih]
    congr 1
    cases p with
    | stray c m => rfl
    | lexeme x =>
      obtain ⟨t, w, m, m'⟩ := x
      cases t <;> rfl

def dropped (source : String) : List Lexeme :=
  lexemesIn ((recovering source).errors.map SyntaxError.piece)

/-- Every word with content is found in the derivation or was dropped. -/
theorem perm_contents {source : String} {d : Derivation}
    (h : (recovering source).result = .ok d) :
    (contents (lexemesIn (Piece.ofSource source))).Perm
      (contents d.lexemes ++ contents (dropped source)) := by
  have hlexemes : (lexemesIn _).Perm (lexemesIn _) := (perm_of_recovering h).filterMap _
  rw [lexemesIn_append, lexemesIn_map_lexeme] at hlexemes
  have hcontents : (contents _).Perm (contents _) := hlexemes.filter _
  rwa [contents_significant, Lexeme.contents_append] at hcontents

theorem contents_sublist {source : String} {d : Derivation}
    (h : (recovering source).result = .ok d) :
    (contents d.lexemes).Sublist (contents (lexemesIn (Piece.ofSource source))) := by
  obtain ⟨_, _, hsublist⟩ := valid_of_recovering h
  rw [← contents_significant]
  exact hsublist.filter _

end Parse

namespace Lexeme

/-- The words with content of a legible text are those that it was made of. -/
theorem contentsOf_text {cs : List Chunk} (h : Chunk.Legible cs) :
    contentsOf (String.ofList (Chunk.text cs)) = Chunk.contents cs := by
  obtain ⟨xs, hpieces, hkeys⟩ := Piece.exists_lexemes_of_legible cs h .origin
  rw [contentsOf, ← Parse.contents_significant, Piece.ofSource, String.toList_ofList, hpieces,
    Parse.lexemesIn_map_lexeme, Chunk.contents, ← hkeys, List.filter_map]
  rfl

/-! ## Words that are laid out anew -/

/-- A numeral that is written as its number would be, which is not zero. -/
def IsCanonical (x : Lexeme) : Prop :=
  ∃ k : Int, Text.readInteger (String.ofList x.text) = .ok k ∧ k ≠ 0 ∧ x.text = Text.numeral k

/-- Lexemes that a layout leaves as they are, given those which are the priorities of rules. -/
structure Plain (priorities xs : List Lexeme) : Prop where
  priorities : ∀ x ∈ priorities, x.IsCanonical
  comments : ∀ x ∈ xs, x.terminal = .comment → Text.stripChars x.text = x.text

theorem plain_append_iff {ps qs xs ys : List Lexeme} :
    Plain (ps ++ qs) (xs ++ ys) ↔ Plain ps xs ∧ Plain qs ys := by
  constructor
  · rintro ⟨hpriorities, hcomments⟩
    obtain ⟨hps, hqs⟩ := List.forall_mem_append.mp hpriorities
    obtain ⟨hxs, hys⟩ := List.forall_mem_append.mp hcomments
    exact ⟨⟨hps, hxs⟩, ⟨hqs, hys⟩⟩
  · rintro ⟨⟨hps, hxs⟩, ⟨hqs, hys⟩⟩
    exact ⟨List.forall_mem_append.mpr ⟨hps, hqs⟩, List.forall_mem_append.mpr ⟨hxs, hys⟩⟩

theorem laidOut_eq_key_iff (x : Lexeme) :
    x.laidOut = x.key ↔ (x.terminal = .comment → Text.stripChars x.text = x.text) := by
  rw [laidOut, key, Prod.mk.injEq]
  by_cases hcomment : x.terminal = .comment
  · simp [hcomment]
  · simp [hcomment]

theorem laidOutAnew_eq_key_iff (x : Lexeme) : x.laidOutAnew = [x.key] ↔
    (x.terminal = .number → x.IsCanonical) ∧
      (x.terminal = .comment → Text.stripChars x.text = x.text) := by
  unfold laidOutAnew
  by_cases hnumber : x.terminal = .number
  · have hcomment : x.terminal ≠ .comment := by simp [hnumber]
    rw [if_pos hnumber, key, hnumber, IsCanonical]
    cases hread : Text.readInteger (String.ofList x.text) with
    | error e => simp
    | ok k =>
      by_cases hzero : k = 0
      · simp [hzero]
      · simp [hzero, eq_comm]
  · rw [if_neg hnumber, List.cons.injEq, laidOut_eq_key_iff]
    simp [hnumber]

/-- Lexemes that are laid out in these words: in no more than one each, and in their own texts
exactly on a condition. -/
structure Tallies (words : List (Terminal × List Char)) (xs : List Lexeme) (same : Prop) :
    Prop where
  length_le : words.length ≤ xs.length
  eq_iff : words = xs.map key ↔ same

theorem Tallies.append {v w : List (Terminal × List Char)} {xs ys : List Lexeme} {p q : Prop}
    (hv : Tallies v xs p) (hw : Tallies w ys q) : Tallies (v ++ w) (xs ++ ys) (p ∧ q) := by
  have hxs := hv.length_le
  have hys := hw.length_le
  refine ⟨by simp only [List.length_append]; omega, ?_⟩
  rw [← hv.eq_iff, ← hw.eq_iff, List.map_append]
  constructor
  · intro heq
    -- neither part is longer than it should be, so none is shorter
    have hlength := congrArg List.length heq
    simp only [List.length_append, List.length_map] at hlength
    exact List.append_inj heq (by rw [List.length_map]; omega)
  · rintro ⟨rfl, rfl⟩
    rfl

theorem tallies_nil : Tallies [] [] True := ⟨Nat.le_refl 0, by simp⟩

theorem Tallies.congr {words : List (Terminal × List Char)} {xs : List Lexeme} {p q : Prop}
    (h : Tallies words xs p) (hpq : p ↔ q) : Tallies words xs q :=
  ⟨h.length_le, h.eq_iff.trans hpq⟩

theorem length_laidOutAnew_le (x : Lexeme) : x.laidOutAnew.length ≤ 1 := by
  unfold laidOutAnew
  split
  · split
    · split <;> simp
    · simp
  · simp

theorem tallies_laidOutAnew (xs : List Lexeme) :
    Tallies (xs.flatMap laidOutAnew) xs (∀ x ∈ xs, x.laidOutAnew = [x.key]) := by
  induction xs with
  | nil => exact tallies_nil.congr (by simp)
  | cons x xs ih =>
    have hx : Tallies x.laidOutAnew [x] (x.laidOutAnew = [x.key]) :=
      ⟨x.length_laidOutAnew_le, Iff.rfl⟩
    exact (hx.append ih).congr (by rw [List.forall_mem_cons])

end Lexeme

namespace Derivation

open Lexeme

mutual

theorem mem_priorities : ∀ d : Derivation, ∀ x ∈ d.priorities,
    x ∈ d.lexemes ∧ x.terminal = .number
  | leaf _ => nofun
  | node q ds => by
    intro x hx
    rw [priorities, List.mem_append] at hx
    rw [lexemes]
    rcases hx with hx | hx
    · split at hx
      · simpa using hx
      · cases hx
    · exact mem_prioritiesOfAll ds x hx

theorem mem_prioritiesOfAll : ∀ ds : List Derivation, ∀ x ∈ prioritiesOfAll ds,
    x ∈ lexemesOfAll ds ∧ x.terminal = .number
  | [] => nofun
  | d :: ds => by
    intro x hx
    rw [lexemesOfAll, List.mem_append]
    rcases List.mem_append.mp hx with hx | hx
    · exact ⟨Or.inl (mem_priorities d x hx).1, (mem_priorities d x hx).2⟩
    · exact ⟨Or.inr (mem_prioritiesOfAll ds x hx).1, (mem_prioritiesOfAll ds x hx).2⟩

end

/-- In the priority of a rule every numeral is laid out anew. -/
theorem plain_priority_iff (ds : List Derivation) :
    (∀ x ∈ contents (lexemesOfAll ds), x.laidOutAnew = [x.key]) ↔
      Plain ((lexemesOfAll ds).filter (·.terminal = .number) ++ prioritiesOfAll ds)
        (lexemesOfAll ds) := by
  have hcontents : ∀ x ∈ lexemesOfAll ds, x.terminal = .number ∨ x.terminal = .comment →
      x ∈ contents (lexemesOfAll ds) := by
    intro x hx hterminal
    refine List.mem_filter.mpr ⟨hx, ?_⟩
    rcases hterminal with h | h <;> rw [h] <;> rfl
  constructor
  · intro hall
    have hsame := fun x hx hterminal =>
      (laidOutAnew_eq_key_iff x).mp (hall x (hcontents x hx hterminal))
    refine ⟨List.forall_mem_append.mpr ⟨?_, ?_⟩, ?_⟩
    · intro x hx
      obtain ⟨hx, hnumber⟩ : x ∈ lexemesOfAll ds ∧ x.terminal = .number := by simpa using hx
      exact (hsame x hx (Or.inl hnumber)).1 hnumber
    · intro x hx
      obtain ⟨hx, hnumber⟩ := mem_prioritiesOfAll ds x hx
      exact (hsame x hx (Or.inl hnumber)).1 hnumber
    · intro x hx hcomment
      exact (hsame x hx (Or.inr hcomment)).2 hcomment
  · intro hplain x hx
    have hx := (List.mem_filter.mp hx).1
    refine (laidOutAnew_eq_key_iff x).mpr ⟨fun hnumber => ?_, hplain.comments x hx⟩
    exact hplain.priorities x (List.mem_append_left _ (by simpa using ⟨hx, hnumber⟩))

mutual

/-- A derivation is laid out in the texts of its words with content, if they are plain. -/
theorem tallies_wording : ∀ d : Derivation,
    Tallies d.wording (contents d.lexemes) (Plain d.priorities d.lexemes)
  | leaf x => by
    rw [wording, lexemes, priorities, contents, List.filter_cons, List.filter_nil]
    by_cases hcontent : x.terminal.isContent = true
    · rw [if_pos hcontent, if_pos hcontent]
      refine ⟨Nat.le_refl 1, ?_⟩
      rw [List.map_cons, List.map_nil, List.cons.injEq, laidOut_eq_key_iff]
      exact ⟨fun h => ⟨nofun, List.forall_mem_singleton.mpr h.1⟩,
        fun h => ⟨h.comments x List.mem_cons_self, rfl⟩⟩
    · have hcomment : x.terminal ≠ .comment := by
        intro heq
        rw [heq] at hcontent
        exact hcontent rfl
      rw [if_neg hcontent, if_neg hcontent]
      refine tallies_nil.congr (iff_of_true trivial ⟨nofun, ?_⟩)
      exact List.forall_mem_singleton.mpr fun h => absurd h hcomment
  | node q ds => by
    rw [wording, lexemes, priorities]
    by_cases hpriority : q.left = .priority
    · rw [if_pos hpriority, if_pos hpriority]
      exact (tallies_laidOutAnew _).congr (plain_priority_iff ds)
    · rw [if_neg hpriority, if_neg hpriority]
      exact tallies_wordingOfAll ds

theorem tallies_wordingOfAll : ∀ ds : List Derivation,
    Tallies (wordingOfAll ds) (contents (lexemesOfAll ds))
      (Plain (prioritiesOfAll ds) (lexemesOfAll ds))
  | [] => tallies_nil.congr (iff_of_true trivial ⟨nofun, nofun⟩)
  | d :: ds => by
    rw [wordingOfAll, lexemesOfAll, prioritiesOfAll, contents_append]
    exact ((tallies_wording d).append (tallies_wordingOfAll ds)).congr plain_append_iff.symm

end

end Derivation

namespace Parse

open Lexeme

/-- A source is kept in the words of its derivation exactly if none was dropped and all are
plain. -/
theorem contentsOf_sublist_wording_iff {source : String} {d : Derivation}
    (h : (recovering source).result = .ok d) :
    (contentsOf source).Sublist d.wording ↔
      contents (dropped source) = [] ∧ Plain d.priorities d.lexemes := by
  have htallies := d.tallies_wording
  have hlength := (perm_contents h).length_eq
  rw [List.length_append] at hlength
  have hfound := contents_sublist h
  constructor
  · intro hkept
    have hle := hkept.length_le
    have hwords := htallies.length_le
    rw [contentsOf, List.length_map] at hle
    have hnone : contents (dropped source) = [] :=
      List.eq_nil_of_length_eq_zero (by omega)
    have hsame := hfound.eq_of_length (by omega)
    have heq := hkept.eq_of_length (by rw [contentsOf, List.length_map]; omega)
    rw [contentsOf, ← hsame] at heq
    exact ⟨hnone, htallies.eq_iff.mp heq.symm⟩
  · rintro ⟨hnone, hplain⟩
    rw [hnone, List.length_nil, Nat.add_zero] at hlength
    have hsame := hfound.eq_of_length hlength.symm
    have heq : contentsOf source = d.wording := by
      rw [htallies.eq_iff.mpr hplain, contentsOf, hsame]
    exact heq ▸ List.Sublist.refl _

end Parse

/-! ## Words of a layout -/

namespace Typed

/-- A statement that is laid out in the same way: an override is laid out as an extension. -/
def Statement.extension : Statement → Statement
  | override e d => extend e d
  | s => s

theorem Statement.Writable.faithful_extension {s : Statement} (h : s.Writable) :
    s.extension.Faithful := by
  cases s <;> exact h

theorem Statement.chunks_extension (indent : String) (s : Statement) :
    s.extension.chunks indent = s.chunks indent := by
  cases s <;> rfl

theorem ofStatements_extension (indent : String) (ss : List Statement) :
    Layout.ofStatements indent ((ss.map Statement.extension).map Statement.node) =
      Layout.ofStatements indent (ss.map Statement.node) := by
  have htext : ∀ s : Statement,
      Layout.text indent s.extension.node = Layout.text indent s.node := by
    intro s
    cases s <;> rfl
  rw [Layout.ofStatements, Layout.ofStatements, List.map_map, List.mapM_map, List.mapM_map]
  exact congrArg (· >>= _) (congrArg (ss.mapM ·) (funext htext))

theorem contents_fileChunks (indent : String) (s : Statement) (ss : List Statement) :
    Chunk.contents (fileChunks indent s ss) = (s :: ss).flatMap Statement.contents := by
  rw [fileChunks, Chunk.contents_append, chunksAfter, Chunk.contents_flatMap, s.contents_chunks,
    List.flatMap_cons]
  congr 2
  funext t
  rw [Chunk.contents_fixed, if_neg (by decide), t.contents_chunks]

theorem fileChunks_extension (indent : String) (s : Statement) (ss : List Statement) :
    fileChunks indent s.extension (ss.map Statement.extension) = fileChunks indent s ss := by
  simp [fileChunks, chunksAfter, Statement.chunks_extension, List.flatMap_map]

/-- The line end that the options ask for, one more word without content. -/
def lineEnd (options : FormattingOptions) : List Chunk :=
  if options.insertFinalNewline then [.word .newline ['\n']] else []

theorem lineEnd_cases (options : FormattingOptions) :
    Chunk.Legible (lineEnd options) ∧ Ends (lineEnd options) ∧
      Chunk.contents (lineEnd options) = [] := by
  unfold lineEnd
  split
  · exact ⟨⟨rfl, ⟨'\n', [], rfl, rfl⟩, trivial⟩, Or.inr ⟨[], [], rfl⟩, rfl⟩
  · exact ⟨trivial, Or.inl rfl, rfl⟩

theorem ended_written (options : FormattingOptions) (cs : List Chunk) :
    Document.ended options (written cs) = String.ofList (Chunk.text (cs ++ lineEnd options)) := by
  rw [Document.ended, written, Chunk.text_append]
  unfold lineEnd
  by_cases hfinal : options.insertFinalNewline = true
  · rw [if_pos hfinal, if_pos hfinal, String.ofList_append]
    rfl
  · rw [if_neg hfinal, if_neg hfinal, Chunk.text_nil, List.append_nil]

/-- The words with content of a file that has been laid out are those of its statements. -/
theorem exists_layout {indent : String} (hindent : Terminal.IsIndent indent)
    (options : FormattingOptions) {ss : List Statement} (hne : ss ≠ [])
    (hss : ∀ s ∈ ss, s.Writable) :
    ∃ body, Layout.ofStatements indent (ss.map Statement.node) = .ok body ∧
      Lexeme.contentsOf (Document.ended options body) = ss.flatMap Statement.contents := by
  obtain ⟨s, ss, rfl⟩ := List.exists_cons_of_ne_nil hne
  have hfaithful : ∀ t ∈ s.extension :: ss.map Statement.extension, t.Faithful := by
    rw [← List.map_cons (f := Statement.extension), List.forall_mem_map]
    exact fun t ht => (hss t ht).faithful_extension
  have hlayout := ofStatements_eq_written indent _ _ hfaithful
  rw [← List.map_cons (f := Statement.extension), ofStatements_extension,
    fileChunks_extension] at hlayout
  refine ⟨_, hlayout, ?_⟩
  obtain ⟨hlegible, hends, hcontents⟩ := lineEnd_cases options
  have hfile := legible_fileChunks_append hindent hlegible hends _ _ hfaithful
  rw [fileChunks_extension] at hfile
  rw [ended_written, Lexeme.contentsOf_text hfile, Chunk.contents_append, hcontents,
    List.append_nil, contents_fileChunks]

end Typed

namespace Document

open Lexeme

theorem isIndent_indent (options : FormattingOptions) :
    Terminal.IsIndent (FormattingOptions.indent options) := by
  rw [FormattingOptions.indent]
  split
  · intro c hc
    rw [String.toList_ofList] at hc
    exact Or.inl (List.eq_of_mem_replicate hc)
  · decide

/-- Formatting keeps the words with content exactly if none was dropped because of an error, every
priority of a rule is written as its number is, and no comment ends in blanks. -/
theorem format_keeps_contents_iff (load : Loader) (uri source : String)
    (options : FormattingOptions)
    (hwritable : ∀ d, (Parse.recovering source).result = .ok d → d.isWritable = true) :
    ∃ edit, (ofText load uri source).format options = .ok edit ∧
      ((contentsOf source).Sublist (contentsOf edit.newText) ↔
        (ofText load uri source).statements = [] ∨
        ∃ d, (Parse.recovering source).result = .ok d ∧
          contents (Parse.dropped source) = [] ∧ Plain d.priorities d.lexemes) := by
  by_cases hne : (ofText load uri source).statements = []
  · refine ⟨_, by rw [format, if_pos (by simp [hne]), (ofText_agrees load uri source).1]; rfl, ?_⟩
    exact iff_of_true (List.Sublist.refl _) (Or.inl hne)
  · obtain ⟨d, file, hresult, hbuild⟩ := exists_read hne
    have hstatements := statements_of_read hresult hbuild load uri
    obtain ⟨hvalid, hstart, _⟩ := Parse.valid_of_recovering hresult
    obtain ⟨e, ss, rfl, _, hconveys⟩ := Typed.exists_statements_conveyed hvalid hstart
      (Typed.isSpelled_of_recovering hresult) hbuild
    have hss : ss ≠ [] := by
      rintro rfl
      exact hne hstatements
    obtain ⟨body, hbody, hwords⟩ := Typed.exists_layout (isIndent_indent options) options hss
      (hconveys.writable (hwritable d hresult))
    rw [← hconveys.tells.words] at hwords
    rw [Node.statements] at hstatements
    refine ⟨_, format_of_layout hne (by rw [hstatements, hbody]), ?_⟩
    rw [replacement, hwords, Parse.contentsOf_sublist_wording_iff hresult]
    constructor
    · exact fun hkept => Or.inr ⟨d, hresult, hkept⟩
    · rintro (hnone | ⟨d', hresult', hkept⟩)
      · exact absurd hnone hne
      · obtain rfl := Except.ok.inj (hresult.symm.trans hresult')
        exact hkept

/-- Of two names at the start of a rule the parser drops the second. -/
theorem recovering_twoNames : ∃ d file,
    (Parse.recovering "a b: \"x\"\n").result = .ok d ∧ d.isWritable = true ∧
    contents (Parse.dropped "a b: \"x\"\n") ≠ [] ∧ d.tree.build = .ok file ∧
    file.statements ≠ [] ∧ Layout.ofStatements "    " file.statements = .ok "a: \"x\"" := by
  have hview : (Parse.recovering "a b: \"x\"\n").result.toOption.any (fun d =>
      d.isWritable && !(contents (Parse.dropped "a b: \"x\"\n")).isEmpty &&
        d.tree.build.toOption.any fun file => !file.statements.isEmpty &&
          (Layout.ofStatements "    " file.statements).toOption == some "a: \"x\"") = true := by
    decide +kernel
  obtain ⟨d, hresult, hview⟩ := (Option.any_eq_true _ _).mp hview
  rw [Bool.and_eq_true, Bool.and_eq_true] at hview
  obtain ⟨⟨hwritable, hdropped⟩, hbuilt⟩ := hview
  obtain ⟨file, hbuild, hlayout⟩ := (Option.any_eq_true _ _).mp hbuilt
  rw [Bool.and_eq_true, beq_iff_eq] at hlayout
  exact ⟨d, file, Typed.eq_ok_of_toOption hresult, hwritable, by simpa using hdropped,
    Typed.eq_ok_of_toOption hbuild, by simpa using hlayout.1, Typed.eq_ok_of_toOption hlayout.2⟩

theorem format_keeps_contents_iff_twoNames :
    (∀ d, (Parse.recovering "a b: \"x\"\n").result = .ok d → d.isWritable = true) ∧
      ∃ edit, (ofText .idle "a" "a b: \"x\"\n").format ⟨4, true, true⟩ = .ok edit ∧
        ¬ (contentsOf "a b: \"x\"\n").Sublist (contentsOf edit.newText) := by
  obtain ⟨d, file, hresult, hwritable, hdropped, hbuild, hne, _⟩ := recovering_twoNames
  have hall : ∀ d, (Parse.recovering "a b: \"x\"\n").result = .ok d → d.isWritable = true := by
    intro d' hresult'
    rwa [← Except.ok.inj (hresult.symm.trans hresult')]
  obtain ⟨edit, hedit, hiff⟩ :=
    format_keeps_contents_iff .idle "a" "a b: \"x\"\n" ⟨4, true, true⟩ hall
  refine ⟨hall, edit, hedit, ?_⟩
  rw [hiff, statements_of_read hresult hbuild]
  rintro (hnone | ⟨_, _, hkept, _⟩)
  · exact hne hnone
  · exact hdropped hkept

/-- The name that was dropped is missing in the new text, although an error was reported. -/
theorem format_loses_twoNames :
    (Parse.recovering "a b: \"x\"\n").errors ≠ [] ∧
      ∃ edit, (ofText .idle "a" "a b: \"x\"\n").format ⟨4, true, false⟩ = .ok edit ∧
        edit.newText = "a: \"x\"" ∧ (.ruleName, ['b']) ∈ contentsOf "a b: \"x\"\n" ∧
        (.ruleName, ['b']) ∉ contentsOf edit.newText := by
  obtain ⟨d, file, hresult, _, hdropped, hbuild, hne, hlayout⟩ := recovering_twoNames
  have hstatements := statements_of_read hresult hbuild .idle "a"
  have hindent : FormattingOptions.indent ⟨4, true, false⟩ = "    " := by decide
  refine ⟨?_, _, format_of_layout (by rwa [hstatements]) (by rw [hstatements, hindent, hlayout]),
    rfl, by decide +kernel, by decide +kernel⟩
  intro hnone
  rw [Parse.dropped, hnone] at hdropped
  exact hdropped rfl

end Document

end GrammarServer
