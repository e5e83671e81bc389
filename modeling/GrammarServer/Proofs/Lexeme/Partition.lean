import GrammarServer.Lexeme.Scan
import GrammarServer.Proofs.Lexeme.Script
import Mathlib.Data.List.DropRight

/-!
# The text behind the lexemes

The pieces of a source, put together again, are the source. A piece starts where the pieces before
it end, so that its line and column can be counted in the text before it, and it is the first that
fits in front of the text after it. So the lexemes up to a stray character cover the source up to
that character.
-/
namespace GrammarServer

/-! ## Marks -/

namespace Mark

/-- A mark behind a text. Its line counts the line feeds of the text and its column the characters
after the last of them, both from one. -/
structure Behind (m : Mark) (cs : List Char) : Prop where
  offset : m.offset = cs.length
  line : m.line = 1 + cs.count '\n'
  column : m.column = 1 + (cs.rtakeWhile (· != '\n')).length

theorem behind_origin : origin.Behind [] := ⟨rfl, rfl, rfl⟩

theorem Behind.next {m : Mark} {cs : List Char} (h : m.Behind cs) (c : Char) :
    (m.next c).Behind (cs ++ [c]) := by
  obtain ⟨hoffset, hline, hcolumn⟩ := h
  by_cases hc : c = '\n'
  · subst hc
    have hnext : m.next '\n' = ⟨m.offset + 1, m.line + 1, 1⟩ := rfl
    rw [hnext]
    refine ⟨by simp [hoffset], ?_, ?_⟩
    · rw [List.count_append, List.count_singleton_self, hline]
      rfl
    · rw [List.rtakeWhile_concat_neg _ _ _ (by decide)]
      rfl
  · have hne : (c != '\n') = true := by simpa using hc
    have hnext : m.next c = ⟨m.offset + 1, m.line, m.column + 1⟩ := by
      rw [Mark.next, if_neg (by simpa using hc)]
    rw [hnext]
    refine ⟨by simp [hoffset], ?_, ?_⟩
    · rw [List.count_append, List.count_singleton, if_neg (by simpa using hc)]
      exact hline
    · rw [List.rtakeWhile_concat_pos (· != '\n') cs c hne, List.length_append, hcolumn]
      rfl

theorem Behind.after (w : List Char) :
    ∀ {m : Mark} {cs : List Char}, m.Behind cs → (m.after w).Behind (cs ++ w) := by
  induction w with
  | nil =>
    intro m cs h
    rwa [List.append_nil]
  | cons c w ih =>
    intro m cs h
    rw [List.append_cons]
    exact ih (h.next c)

end Mark

/-! ## Pieces -/

namespace Piece

def text : Piece → List Char
  | lexeme x => x.text
  | stray c _ => [c]

def start : Piece → Mark
  | lexeme x => x.start
  | stray _ m => m

/-- What a piece must be in front of a text: a lexeme of the first terminal that fits, which ends
where its text does, or a character at which none fits. -/
def Fits (rest : List Char) : Piece → Prop
  | lexeme x => Terminal.Reads x.terminal x.text rest ∧ x.stop = x.start.after x.text
  | stray c _ => Terminal.atFront c rest = none

inductive Cuts : Mark → List Char → List Piece → Prop
  | nil (m : Mark) : Cuts m [] []
  | cons {m : Mark} {p : Piece} {cs : List Char} {ps : List Piece} (start : p.start = m)
      (fits : p.Fits cs) (rest : Cuts (m.after p.text) cs ps) : Cuts m (p.text ++ cs) (p :: ps)

theorem cuts_cut (cs : List Char) : ∀ m : Mark, Cuts m cs (cut Terminal.atFront 0 m cs) := by
  induction h : cs.length using Nat.strong_induction_on generalizing cs with
  | _ k ih =>
    intro m
    cases cs with
    | nil => exact .nil m
    | cons c cs =>
      rw [cut]
      split
      case h_2 hfront =>
        exact .cons (p := stray c m) rfl hfront (ih cs.length (by simp [← h]) cs rfl (m.next c))
      case h_1 t n hfront =>
        -- the characters owed to the lexeme are passed over at once
        obtain ⟨w, r, rfl, rfl⟩ : ∃ w r, cs = w ++ r ∧ n = w.length := by
          have hn := Terminal.reach_le (Terminal.reach_of_atFront hfront)
          exact ⟨cs.take n, cs.drop n, (List.take_append_drop n cs).symm, by simp [hn]⟩
        simp only [List.take_left, cut_owed]
        refine .cons (p := lexeme ⟨t, c :: w, m, m.after (c :: w)⟩) rfl
          ⟨⟨c, w, rfl, hfront⟩, rfl⟩ (ih r.length ?_ r rfl _)
        simp only [List.length_cons, List.length_append] at h
        omega

theorem Cuts.flatMap_text {m : Mark} {cs : List Char} {ps : List Piece} (h : Cuts m cs ps) :
    ps.flatMap text = cs := by
  induction h with
  | nil m => rfl
  | cons start fits rest ih => rw [List.flatMap_cons, ih]

/-- Each piece starts behind those before it and fits in front of those after it. -/
theorem Cuts.start_fits {m : Mark} {cs : List Char} {ps : List Piece} (h : Cuts m cs ps) :
    ∀ (before : List Piece) (p : Piece) (after : List Piece), ps = before ++ p :: after →
      p.start = m.after (before.flatMap text) ∧ p.Fits (after.flatMap text) := by
  induction h with
  | nil m =>
    intro before p after heq
    simp at heq
  | @cons m q cs ps start fits rest ih =>
    intro before p after heq
    cases before with
    | nil =>
      obtain ⟨rfl, rfl⟩ := List.cons.inj heq
      rw [rest.flatMap_text]
      exact ⟨start, fits⟩
    | cons b before =>
      obtain ⟨rfl, hps⟩ := List.cons.inj heq
      obtain ⟨hstart, hfits⟩ := ih before p after hps
      refine ⟨?_, hfits⟩
      rw [hstart, List.flatMap_cons, Mark.after, Mark.after, Mark.after, List.foldl_append]

theorem cuts_ofSource (source : String) : Cuts .origin source.toList (ofSource source) :=
  cuts_cut source.toList .origin

/-- Each piece stands in the source at its own place. -/
theorem exists_place_of_mem_ofSource {source : String} {p : Piece} (h : p ∈ ofSource source) :
    ∃ before after, source.toList = before ++ (p.text ++ after) ∧ p.start.Behind before ∧
      p.Fits after := by
  obtain ⟨before, after, hpieces⟩ := List.append_of_mem h
  have hcuts := cuts_ofSource source
  obtain ⟨hstart, hfits⟩ := hcuts.start_fits before _ after hpieces
  have htext := hcuts.flatMap_text
  rw [hpieces, List.flatMap_append, List.flatMap_cons] at htext
  have hbehind := Mark.behind_origin.after (before.flatMap text)
  rw [List.nil_append, ← hstart] at hbehind
  exact ⟨before.flatMap text, after.flatMap text, htext.symm, hbehind, hfits⟩

theorem Fits.text_ne_nil {p : Piece} {rest : List Char} (h : p.Fits rest) : p.text ≠ [] := by
  cases p with
  | lexeme x =>
    obtain ⟨⟨c, w, htext, _⟩, _⟩ := h
    exact fun hnil => List.cons_ne_nil c w (htext.symm.trans hnil)
  | stray c m => exact List.cons_ne_nil c []

end Piece

/-! ## Reading up to a stray character -/

namespace Lexeme

/-- Why reading stops before the rest of a source, with which error. -/
inductive Stops (source : List Char) (xs : List Lexeme) : List Char → Option SyntaxError → Prop
  | atEnd : Stops source xs [] none
  | atStray {c : Char} {cs : List Char} {m : Mark} (unfit : Terminal.atFront c cs = none)
      (place : m.Behind (xs.flatMap text)) :
      Stops source xs (c :: cs) (some (.stray source c m (offered true) xs.getLast?))

/-- Lexemes that cover a source up to some rest of it. Each is the first that fits in its place,
and its marks are counted in the text before its start and before its end. -/
structure Partition (source : List Char) (xs : List Lexeme) (rest : List Char) : Prop where
  text : source = xs.flatMap text ++ rest
  ne_nil : ∀ x ∈ xs, x.text ≠ []
  first : ∀ before x after, xs = before ++ x :: after →
    Terminal.Reads x.terminal x.text (after.flatMap Lexeme.text ++ rest)
  start : ∀ before x after, xs = before ++ x :: after →
    x.start.Behind (before.flatMap Lexeme.text)
  stop : ∀ before x after, xs = before ++ x :: after →
    x.stop.Behind (before.flatMap Lexeme.text ++ x.text)

/-- Reading goes through all pieces, or up to the first that is stray. -/
theorem scanPieces_all (source : List Char) (ps : List Piece) : ∀ previous : Option Lexeme,
    ∃ xs error, scanPieces source true previous ps = (xs, error) ∧
      (ps = xs.map .lexeme ∧ error = none ∨
        ∃ c m more, ps = xs.map .lexeme ++ .stray c m :: more ∧
          error = some (.stray source c m (offered true) (xs.getLast?.or previous))) := by
  induction ps with
  | nil => exact fun previous => ⟨[], none, rfl, Or.inl ⟨rfl, rfl⟩⟩
  | cons p ps ih =>
    intro previous
    cases p with
    | stray c m => exact ⟨[], _, rfl, Or.inr ⟨c, m, ps, rfl, rfl⟩⟩
    | lexeme x =>
      obtain ⟨xs, error, hscan, hcases⟩ := ih (some x)
      refine ⟨x :: xs, error, by rw [scanPieces, hscan]; rfl, ?_⟩
      rcases hcases with ⟨rfl, rfl⟩ | ⟨c, m, more, rfl, rfl⟩
      · exact Or.inl ⟨rfl, rfl⟩
      · refine Or.inr ⟨c, m, more, rfl, ?_⟩
        cases xs with
        | nil => rfl
        | cons y ys => rw [List.getLast?_cons_cons, List.getLast?_cons]; rfl

theorem flatMap_text_map_lexeme (xs : List Lexeme) :
    (xs.map Piece.lexeme).flatMap Piece.text = xs.flatMap text := by
  rw [List.flatMap_map]
  rfl

theorem partition_of_cuts {source : List Char} {xs : List Lexeme} {more : List Piece}
    (h : Piece.Cuts .origin source (xs.map .lexeme ++ more)) :
    Partition source xs (more.flatMap Piece.text) := by
  have hplace : ∀ before x after, xs = before ++ x :: after →
      x.start = Mark.origin.after (before.flatMap text) ∧
        Piece.Fits (after.flatMap text ++ more.flatMap Piece.text) (.lexeme x) := by
    rintro before x after rfl
    have hat := h.start_fits (before.map .lexeme) (.lexeme x) (after.map .lexeme ++ more) (by simp)
    rwa [List.flatMap_append, flatMap_text_map_lexeme, flatMap_text_map_lexeme] at hat
  refine ⟨?_, ?_, ?_, ?_, ?_⟩
  · rw [← h.flatMap_text, List.flatMap_append, flatMap_text_map_lexeme]
  · intro x hx
    obtain ⟨before, after, hsplit⟩ := List.append_of_mem hx
    obtain ⟨_, ⟨c, w, htext, _⟩, _⟩ := hplace before x after hsplit
    rw [htext]
    exact List.cons_ne_nil c w
  · exact fun before x after hsplit => (hplace before x after hsplit).2.1
  · intro before x after hsplit
    rw [(hplace before x after hsplit).1]
    exact Mark.behind_origin.after _
  · intro before x after hsplit
    obtain ⟨hstart, _, hstop⟩ := hplace before x after hsplit
    rw [hstop, hstart]
    exact (Mark.behind_origin.after _).after _

/-- The lexemes of a source cover it up to the first stray character. Each is of the first terminal
that fits, and lines and columns are counted in the text before. -/
theorem scan_partition (source : String) :
    ∃ xs rest error, scan true source = (xs, error) ∧ Partition source.toList xs rest ∧
      Stops source.toList xs rest error := by
  have hcuts := Piece.cuts_ofSource source
  obtain ⟨xs, error, hscan, hcases⟩ :=
    scanPieces_all source.toList (Piece.ofSource source) none
  refine ⟨xs, ?_⟩
  rcases hcases with ⟨hpieces, rfl⟩ | ⟨c, m, more, hpieces, rfl⟩
  · rw [hpieces, ← List.append_nil (xs.map _)] at hcuts
    exact ⟨[], none, hscan, partition_of_cuts hcuts, .atEnd⟩
  · rw [hpieces] at hcuts
    obtain ⟨hstart, hunfit⟩ := hcuts.start_fits _ _ _ rfl
    have hplace : m.Behind (xs.flatMap text) := by
      rw [show m = _ from hstart, flatMap_text_map_lexeme]
      exact Mark.behind_origin.after _
    rw [Option.or_none] at hscan
    exact ⟨_, _, hscan, partition_of_cuts hcuts, .atStray hunfit hplace⟩

end Lexeme

end GrammarServer
