import GrammarServer.Editor
import GrammarServer.Text.Lines

/-!
# Applying edits

An edit replaces the text between two positions. A position past the end of its line is at that
end, and one past the last line is at the end of the text. What an edit leaves of a text behind its
range depends on the number of lines and on the length of the last one.
-/
namespace GrammarServer

namespace Text

def charsAfter : List Char → (line column : Nat) → List Char
  | [], _, _ => []
  | c :: cs, line + 1, column => charsAfter cs (if c == '\n' then line else line + 1) column
  | c :: cs, 0, column + 1 => if c == '\n' then c :: cs else charsAfter cs 0 column
  | c :: cs, 0, 0 => c :: cs

def charsBefore (cs : List Char) (line column : Nat) : List Char :=
  cs.take (cs.length - (charsAfter cs line column).length)

theorem piecesAt_ne_nil (mark : Char) (cs : List Char) : piecesAt mark cs ≠ [] := by
  cases cs with
  | nil => simp [piecesAt]
  | cons c cs =>
    rw [piecesAt]
    split
    · simp
    · split <;> simp

theorem piecesAt_cons {mark c : Char} (hc : (c == mark) = false) (cs : List Char) :
    ∃ piece rest, piecesAt mark cs = piece :: rest ∧
      piecesAt mark (c :: cs) = (c :: piece) :: rest := by
  obtain ⟨piece, rest, hpieces⟩ := List.exists_cons_of_ne_nil (piecesAt_ne_nil mark cs)
  refine ⟨piece, rest, hpieces, ?_⟩
  rw [piecesAt, if_neg (by simp [hc]), hpieces]

def lineCount (cs : List Char) : Nat := (piecesAt '\n' cs).length

def lastLength (cs : List Char) : Nat := ((piecesAt '\n' cs).getLastD []).length

theorem lineCount_pos (cs : List Char) : 0 < lineCount cs :=
  List.length_pos_iff.mpr (piecesAt_ne_nil '\n' cs)

theorem lines_cons_feed {c : Char} (hc : (c == '\n') = true) (cs : List Char) :
    lineCount (c :: cs) = lineCount cs + 1 ∧ lastLength (c :: cs) = lastLength cs := by
  have hpieces : piecesAt '\n' (c :: cs) = [] :: piecesAt '\n' cs := by rw [piecesAt, if_pos hc]
  rw [lineCount, lastLength, hpieces, List.getLastD_cons]
  exact ⟨rfl, rfl⟩

/-- A character that ends no line makes the last line longer only if it is the first one, too. -/
theorem lines_cons {c : Char} (hc : (c == '\n') = false) (cs : List Char) :
    lineCount (c :: cs) = lineCount cs ∧
      lastLength (c :: cs) = lastLength cs + if lineCount cs = 1 then 1 else 0 := by
  obtain ⟨piece, rest, hrest, hpieces⟩ := piecesAt_cons hc cs
  rw [lineCount, lineCount, lastLength, lastLength, hrest, hpieces]
  refine ⟨rfl, ?_⟩
  cases rest with
  | nil => rfl
  | cons next rest => simp

/-- Nothing comes after a position exactly if it lies past the last line, or on the last line and
not before its end. -/
theorem charsAfter_eq_nil_iff (cs : List Char) : ∀ line column : Nat,
    charsAfter cs line column = [] ↔
      lineCount cs ≤ line ∨ lineCount cs = line + 1 ∧ lastLength cs ≤ column := by
  induction cs with
  | nil =>
    intro line column
    have hcount : lineCount [] = 1 := rfl
    have hlength : lastLength [] = 0 := rfl
    rw [charsAfter, hcount, hlength, eq_self, true_iff]
    omega
  | cons c cs ih =>
    intro line column
    have hpos := lineCount_pos cs
    cases hc : c == '\n' with
    | true =>
      obtain ⟨hcount, hlength⟩ := lines_cons_feed hc cs
      rw [hcount, hlength]
      cases line with
      | succ line =>
        rw [charsAfter, if_pos hc, ih]
        omega
      | zero =>
        have hstay : charsAfter (c :: cs) 0 column ≠ [] := by
          cases column with
          | zero => exact List.cons_ne_nil c cs
          | succ column =>
            rw [charsAfter, if_pos hc]
            exact List.cons_ne_nil c cs
        constructor
        · intro h
          exact absurd h hstay
        · omega
    | false =>
      obtain ⟨hcount, hlength⟩ := lines_cons hc cs
      rw [hcount, hlength]
      cases line with
      | succ line =>
        rw [charsAfter, if_neg (by simp [hc]), ih]
        split <;> omega
      | zero =>
        cases column with
        | zero =>
          constructor
          · intro h
            exact absurd h (List.cons_ne_nil c cs)
          · split <;> omega
        | succ column =>
          rw [charsAfter, if_neg (by simp [hc]), ih]
          split <;> omega

theorem charsBefore_origin (cs : List Char) : charsBefore cs 0 0 = [] := by
  have h : charsAfter cs 0 0 = cs := by
    cases cs <;> rfl
  rw [charsBefore, h, Nat.sub_self, List.take_zero]

end Text

def TextEdit.apply (e : TextEdit) (source : String) : String :=
  let start := Text.charsBefore source.toList e.range.start.line.toNat e.range.start.column.toNat
  let rest := Text.charsAfter source.toList e.range.stop.line.toNat e.range.stop.column.toNat
  String.ofList (start ++ e.newText.toList ++ rest)

/-- An edit from the start leaves nothing of a text exactly if nothing comes after its range. -/
theorem TextEdit.apply_eq_newText_iff {e : TextEdit} (source : String)
    (hstart : e.range.start = ⟨0, 0⟩) :
    e.apply source = e.newText ↔
      Text.charsAfter source.toList e.range.stop.line.toNat e.range.stop.column.toNat = [] := by
  rw [TextEdit.apply, hstart, ← String.toList_inj, String.toList_ofList]
  change Text.charsBefore source.toList 0 0 ++ _ ++ _ = _ ↔ _
  rw [Text.charsBefore_origin, List.nil_append, List.append_right_eq_self]

end GrammarServer
