import GrammarServer.Proofs.Lexeme.Spelling

/-!
# Texts written word by word

The lexemes of a source are spelled as their terminals are. Conversely a text can be planned as
words with gaps between them. It is legible if each word reads as what it is meant to be when the
rest of the text follows; then the lexemes of the text are the words.
-/
namespace GrammarServer

open Terminal

/-! ## Lexemes of a source -/

namespace Terminal

theorem stringLength_le {cs : List Char} {n : Nat} (h : stringLength cs = some n) :
    n ≤ cs.length := by
  obtain ⟨body, rest, rfl, hlength, _⟩ := stringLength_eq_some h
  simp [← hlength]

theorem openSlash_le {cs : List Char} {n : Nat} (h : openSlash cs = some n) : n ≤ cs.length := by
  obtain ⟨body, rest, rfl, hlength, _⟩ := openSlash_eq_some h
  simp [← hlength]

theorem lastSlash_le {cs : List Char} {n : Nat} (h : lastSlash cs = some n) : n ≤ cs.length := by
  obtain ⟨body, rest, rfl, hlength⟩ := lastSlash_eq_some h
  simp [← hlength]

theorem length_pos_of_startsWith {p : Char → Bool} {cs : List Char} (h : startsWith p cs = true) :
    1 ≤ cs.length := by
  cases cs with
  | nil => cases h
  | cons c cs => simp

theorem succ_le_of_startsWith_drop {p : Char → Bool} {cs : List Char} {n : Nat}
    (h : startsWith p (cs.drop n) = true) : n + 1 ≤ cs.length := by
  have := length_pos_of_startsWith h
  rw [List.length_drop] at this
  omega

theorem regexpReach_le {c : Char} {cs : List Char} {n : Nat} (h : regexpReach c cs = some n) :
    n ≤ cs.length := by
  simp only [regexpReach] at h
  split at h
  case isFalse => cases h
  case isTrue =>
    obtain ⟨k, hk, rfl⟩ := Option.map_eq_some_iff.mp h
    have hline : (cs.takeWhile (· != '\n')).length ≤ cs.length :=
      (List.takeWhile_sublist _).length_le
    have hk' : k ≤ cs.length := by
      simp only [Option.orElse_eq_orElse, Option.orElse_eq_or, Option.or_eq_some_iff] at hk
      rcases hk with hk | ⟨_, hk⟩
      · exact Nat.le_trans (openSlash_le hk) hline
      · exact Nat.le_trans (lastSlash_le hk) hline
    have hflags := frontLength_le isRegexpFlag (cs.drop k)
    rw [List.length_drop] at hflags
    omega

theorem stringReach_le {c : Char} {cs : List Char} {n : Nat} (h : stringReach c cs = some n) :
    n ≤ cs.length := by
  simp only [stringReach] at h
  split at h
  case isFalse => cases h
  case isTrue =>
    obtain ⟨k, hk, rfl⟩ := Option.map_eq_some_iff.mp h
    split
    · exact succ_le_of_startsWith_drop ‹_›
    · exact stringLength_le hk

theorem newlineReach_le {c : Char} {cs : List Char} {n : Nat} (h : newlineReach c cs = some n) :
    n ≤ cs.length := by
  simp only [newlineReach] at h
  split at h
  · cases h
    exact frontLength_le _ cs
  · cases h

theorem wordReach_le {word : List Char} {c : Char} {cs : List Char} {n : Nat}
    (h : wordReach word c cs = some n) : n ≤ cs.length := by
  simp only [wordReach] at h
  split at h
  · rename_i hword
    cases h
    rw [Bool.and_eq_true] at hword
    exact (List.isPrefixOf_iff_prefix.mp hword.2).length_le
  · cases h

theorem modifiersReach_le {c : Char} {cs : List Char} {n : Nat}
    (h : modifiersReach c cs = some n) : n ≤ cs.length := by
  have hsecond : ∀ {p q : Char → Bool}, (startsWith p cs && startsWith q (cs.drop 1)) = true →
      1 ≤ cs.length := fun h => length_pos_of_startsWith ((Bool.and_eq_true _ _).mp h).1
  simp only [modifiersReach] at h
  split at h
  · split at h
    · cases h
      omega
    · split at h
      · cases h
        exact hsecond ‹_›
      · cases h
  · split at h
    · split at h
      · cases h
        exact hsecond ‹_›
      · split at h
        · cases h
          omega
        · cases h
    · cases h

theorem charReach_le {d c : Char} {cs : List Char} {n : Nat} (h : charReach d c = some n) :
    n ≤ cs.length := by
  simp only [charReach] at h
  split at h
  · cases h
    omega
  · cases h

theorem ite_frontLength_le {p : Char → Bool} {cs : List Char} {b : Bool} {n : Nat}
    (h : (if b then some (frontLength p cs) else none) = some n) : n ≤ cs.length := by
  split at h
  · cases h
    exact frontLength_le p cs
  · cases h

theorem ite_and_startsWith_le {p : Char → Bool} {cs : List Char} {b : Bool} {n : Nat}
    (h : (if b && startsWith p cs then some 1 else none) = some n) : n ≤ cs.length := by
  split at h
  · rename_i hstart
    cases h
    exact length_pos_of_startsWith ((Bool.and_eq_true _ _).mp hstart).2
  · cases h

/-- A lexeme does not reach beyond the text. -/
theorem reach_le {c : Char} {cs : List Char} {t : Terminal} {n : Nat}
    (h : reach c cs t = some n) : n ≤ cs.length := by
  cases t
  case regexp => exact regexpReach_le h
  case string => exact stringReach_le h
  case ruleName =>
    rw [reach_ruleName] at h
    exact ite_frontLength_le h
  case terminalName =>
    rw [reach_terminalName] at h
    exact ite_frontLength_le h
  case comment => exact ite_frontLength_le h
  case newlineBar =>
    simp only [reach, newlineBarReach] at h
    split at h
    · split at h
      · cases h
        exact succ_le_of_startsWith_drop ‹_›
      · cases h
    · cases h
  case newline => exact newlineReach_le h
  case number => exact ite_frontLength_le h
  case continuation =>
    simp only [reach, continuationReach] at h
    split at h
    · rename_i hfeed
      cases h
      exact succ_le_of_startsWith_drop ((Bool.and_eq_true _ _).mp hfeed).2
    · cases h
  case blank => exact ite_frontLength_le h
  case modifiers => exact modifiersReach_le h
  case dotDot => exact ite_and_startsWith_le h
  case arrow => exact ite_and_startsWith_le h
  case operator =>
    simp only [reach, operatorReach] at h
    split at h
    · cases h
      omega
    · cases h
  case dot =>
    simp only [reach] at h
    split at h
    · cases h
      omega
    · cases h
  case endOfInput => cases h
  case overrideWord | declareWord | extendWord | ignoreWord | importWord => exact wordReach_le h
  all_goals exact charReach_le h

end Terminal

namespace Lexeme

/-- What a lexeme is apart from its place. -/
def key (x : Lexeme) : Terminal × List Char := (x.terminal, x.text)

def IsSpelled (x : Lexeme) : Prop := x.text ≠ [] ∧ Spells x.text x.terminal

end Lexeme

namespace Piece

theorem isSpelled_of_mem_cut (cs : List Char) : ∀ (owed : Nat) (m : Mark) {x : Lexeme},
    .lexeme x ∈ cut atFront owed m cs → x.IsSpelled := by
  induction cs with
  | nil =>
    intro owed m x h
    cases owed <;> cases h
  | cons c cs ih =>
    intro owed m x h
    cases owed with
    | succ owed => exact ih owed (m.next c) h
    | zero =>
      rw [cut] at h
      split at h
      · rename_i t n hfront
        rcases List.mem_cons.mp h with heq | hmem
        · cases heq
          have hreach := reach_of_atFront hfront
          refine ⟨List.cons_ne_nil _ _, spells_of_reach (r := cs.drop n) ?_⟩
          rw [List.take_append_drop, hreach, List.length_take, Nat.min_eq_left (reach_le hreach)]
        · exact ih n (m.next c) hmem
      · rcases List.mem_cons.mp h with heq | hmem
        · cases heq
        · exact ih 0 (m.next c) hmem

/-- Every lexeme of a source is spelled as its terminal is. -/
theorem isSpelled_of_mem_ofSource {source : String} {x : Lexeme}
    (h : .lexeme x ∈ ofSource source) : x.IsSpelled :=
  isSpelled_of_mem_cut source.toList 0 .origin h

end Piece

/-! ## Planned texts -/

/-- A word of a text, or a blank between words. -/
inductive Chunk
  | gap
  | word (t : Terminal) (w : List Char)

namespace Chunk

def chars : Chunk → List Char
  | gap => [' ']
  | word _ w => w

@[simp] theorem chars_gap : gap.chars = [' '] := rfl

@[simp] theorem chars_word (t : Terminal) (w : List Char) : (word t w).chars = w := rfl

def text (cs : List Chunk) : List Char := cs.flatMap chars

def word? : Chunk → Option (Terminal × List Char)
  | gap => none
  | word t w => some (t, w)

def words (cs : List Chunk) : List (Terminal × List Char) := cs.filterMap word?

/-- Each word reads as it is meant to, whatever comes after it. -/
def Legible : List Chunk → Prop
  | [] => True
  | gap :: rest => Legible rest
  | word t w :: rest => t.isSkipped = false ∧ Reads t w (text rest) ∧ Legible rest

@[simp] theorem text_nil : text [] = [] := rfl

@[simp] theorem text_cons (c : Chunk) (cs : List Chunk) : text (c :: cs) = c.chars ++ text cs := rfl

@[simp] theorem text_append (cs ds : List Chunk) : text (cs ++ ds) = text cs ++ text ds :=
  List.flatMap_append

@[simp] theorem words_nil : words [] = [] := rfl

@[simp] theorem words_gap (cs : List Chunk) : words (gap :: cs) = words cs := rfl

@[simp] theorem words_word (t : Terminal) (w : List Char) (cs : List Chunk) :
    words (word t w :: cs) = (t, w) :: words cs := rfl

@[simp] theorem words_append (cs ds : List Chunk) : words (cs ++ ds) = words cs ++ words ds :=
  List.filterMap_append

theorem words_flatMap {α : Type} (f : α → List Chunk) (as : List α) :
    words (as.flatMap f) = as.flatMap fun a => words (f a) := by
  induction as with
  | nil => rfl
  | cons a as ih => rw [List.flatMap_cons, words_append, ih, List.flatMap_cons]

end Chunk

namespace Piece

theorem cut_owed (front : Char → List Char → Option (Terminal × Nat)) (w r : List Char) :
    ∀ m : Mark, cut front w.length m (w ++ r) = cut front 0 (m.after w) r := by
  induction w with
  | nil => intro m; rfl
  | cons c w ih =>
    intro m
    rw [List.cons_append, List.length_cons, cut, ih]
    rfl

def isBlankMark (c : Char) : Bool := c == ' ' || c == '\t'

theorem atFront_blank {c : Char} (hc : isBlankMark c = true) (cs : List Char) :
    atFront c cs = some (blank, frontLength isBlankMark cs) := by
  rcases (Bool.or_eq_true _ _).mp hc with hc | hc
  · rw [eq_of_beq hc]
    exact atFront_of_opens rfl (by decide)
  · rw [eq_of_beq hc]
    exact atFront_of_opens rfl (by decide)

/-- The blanks at the front of a text mean nothing, however many of them are cut at once. -/
theorem filter_cut_blanks (cs : List Char) (m : Mark) :
    (cut atFront (frontLength isBlankMark cs) m cs).filter isSignificant =
      (cut atFront 0 m cs).filter isSignificant := by
  cases cs with
  | nil => rfl
  | cons c cs =>
    rw [frontLength_cons]
    split
    · rename_i hc
      rw [cut, cut, atFront_blank hc]
      rfl
    · rfl

theorem filter_cut_gap (cs : List Char) (m : Mark) :
    (cut atFront 0 m (' ' :: cs)).filter isSignificant =
      (cut atFront 0 (m.next ' ') cs).filter isSignificant := by
  rw [cut, atFront_blank rfl]
  exact filter_cut_blanks cs (m.next ' ')

/-- The lexemes of a legible text are its words. -/
theorem exists_lexemes_of_legible (cs : List Chunk) (h : Chunk.Legible cs) : ∀ m : Mark,
    ∃ xs : List Lexeme, (cut atFront 0 m (Chunk.text cs)).filter isSignificant = xs.map lexeme ∧
      xs.map Lexeme.key = Chunk.words cs := by
  induction cs with
  | nil => exact fun m => ⟨[], rfl, rfl⟩
  | cons c cs ih =>
    intro m
    cases c with
    | gap =>
      obtain ⟨xs, hcut, hkeys⟩ := ih h (m.next ' ')
      exact ⟨xs, (filter_cut_gap _ m).trans hcut, hkeys⟩
    | word t w =>
      obtain ⟨hskipped, ⟨c, tl, rfl, hfront⟩, hrest⟩ := h
      obtain ⟨xs, hcut, hkeys⟩ := ih hrest ((m.next c).after tl)
      refine ⟨⟨t, c :: tl, m, m.after (c :: tl)⟩ :: xs, ?_, by simp [Lexeme.key, hkeys]⟩
      rw [Chunk.text_cons, Chunk.chars, List.cons_append, cut]
      simp only [hfront, List.take_left, cut_owed]
      rw [List.filter_cons_of_pos (by simp [isSignificant, hskipped]), hcut]
      rfl

end Piece

end GrammarServer
