import GrammarServer.Node.Basic
import GrammarServer.Proofs.Parse.Sound

/-!
# Lexemes in the order of the text

A lexeme ends where its text ends, and no later one starts before. So lexemes that are taken from
a source in its order, however many are left out between them, lie from the start of the first to
the end of the last.
-/
namespace GrammarServer

/-! ## Places -/

/-- Of two places, given by line and column, the second is not before the first. -/
def NotAfter (line column line' column' : Int) : Prop :=
  line < line' ∨ line = line' ∧ column ≤ column'

theorem NotAfter.refl (line column : Int) : NotAfter line column line column :=
  Or.inr ⟨rfl, Int.le_refl column⟩

theorem NotAfter.trans {l c l' c' l'' c'' : Int} (h : NotAfter l c l' c')
    (h' : NotAfter l' c' l'' c'') : NotAfter l c l'' c'' := by
  unfold NotAfter at *
  omega

/-- Of two members of a list in order, one is before the other. -/
theorem apart_of_pairwise {α : Type} {R : α → α → Prop} {as : List α} (h : as.Pairwise R) {a b : α}
    (ha : a ∈ as) (hb : b ∈ as) (hne : a ≠ b) : R a b ∨ R b a := by
  induction h with
  | nil => cases ha
  | cons hfirst hrest ih =>
    rcases List.mem_cons.mp ha with rfl | ha'
    · exact Or.inl (hfirst b (List.mem_of_ne_of_mem hne.symm hb))
    · rcases List.mem_cons.mp hb with rfl | hb'
      · exact Or.inr (hfirst a ha')
      · exact ih ha' hb'

namespace Extent

def Precedes (a b : Extent) : Prop := NotAfter a.endLine a.endColumn b.line b.column

def IsProper (e : Extent) : Prop := NotAfter e.line e.column e.endLine e.endColumn

structure Inside (outer inner : Extent) : Prop where
  start : NotAfter outer.line outer.column inner.line inner.column
  proper : inner.IsProper
  stop : NotAfter inner.endLine inner.endColumn outer.endLine outer.endColumn

theorem Inside.trans {a b c : Extent} (hb : a.Inside b) (hc : b.Inside c) : a.Inside c :=
  ⟨hb.start.trans hc.start, hc.proper, hc.stop.trans hb.stop⟩

/-- What covers some text has a proper extent inside it; nothing lies inside what covers none. -/
def Covers : Option Extent → Extent → Prop
  | none, _ => False
  | some outer, inner => outer.Inside inner

theorem Covers.trans {outer mid : Option Extent} {e : Extent} (h : Covers mid e)
    (hmid : ∀ x, mid = some x → Covers outer x) : Covers outer e := by
  cases mid with
  | none => exact h.elim
  | some m =>
    cases outer with
    | none => exact (hmid m rfl).elim
    | some o => exact Inside.trans (hmid m rfl) h

theorem Covers.isProper {outer : Option Extent} {e : Extent} (h : Covers outer e) :
    e.IsProper := by
  cases outer with
  | none => exact h.elim
  | some o => exact h.proper

theorem covers_self {e : Extent} (h : e.IsProper) : Covers (some e) e :=
  ⟨NotAfter.refl _ _, h, NotAfter.refl _ _⟩

/-- What lies inside the earlier of two extents precedes what lies inside the later one. -/
theorem Covers.precedes {a b : Option Extent} {x y : Extent} (hx : Covers a x) (hy : Covers b y)
    (h : ∀ e f, a = some e → b = some f → e.Precedes f) : x.Precedes y := by
  cases a with
  | none => exact hx.elim
  | some e =>
    cases b with
    | none => exact hy.elim
    | some f => exact hx.stop.trans ((h e f rfl rfl).trans hy.start)

end Extent

/-! ## Marks -/

namespace Mark

def IsCounted (m : Mark) : Prop := 1 ≤ m.line ∧ 1 ≤ m.column

theorem isCounted_next {m : Mark} (h : m.IsCounted) (c : Char) : (m.next c).IsCounted := by
  unfold IsCounted next at *
  split <;> simp only <;> omega

theorem notAfter_next (m : Mark) (c : Char) :
    NotAfter m.line m.column (m.next c).line (m.next c).column := by
  rw [next]
  split
  · exact Or.inl (by simp only; omega)
  · exact Or.inr ⟨rfl, by simp only; omega⟩

theorem notAfter_after (cs : List Char) : ∀ m : Mark,
    NotAfter m.line m.column (m.after cs).line (m.after cs).column := by
  induction cs with
  | nil => exact fun m => NotAfter.refl _ _
  | cons c cs ih => exact fun m => (m.notAfter_next c).trans (ih (m.next c))

/-- Characters that end no line move a mark along its line. -/
theorem after_of_not_mem {cs : List Char} (h : '\n' ∉ cs) : ∀ m : Mark,
    (m.after cs).line = m.line ∧ (m.after cs).column = m.column + cs.length := by
  induction cs with
  | nil => exact fun m => ⟨rfl, rfl⟩
  | cons c cs ih =>
    intro m
    have hc : '\n' ≠ c := List.ne_of_not_mem_cons h
    have hcs : '\n' ∉ cs := List.not_mem_of_not_mem_cons h
    have hnext : m.next c = ⟨m.offset + 1, m.line, m.column + 1⟩ := by
      rw [next, if_neg (by simpa using Ne.symm hc)]
    obtain ⟨hline, hcolumn⟩ := ih hcs (m.next c)
    rw [after, List.foldl_cons, ← after, hline, hcolumn, hnext, List.length_cons]
    exact ⟨rfl, by simp only; omega⟩

end Mark

/-! ## Lexemes of a source -/

/-- A lexeme has a place that is counted from one, and ends where its text does. -/
structure Lexeme.IsPlaced (x : Lexeme) : Prop where
  counted : x.start.IsCounted
  stop : x.stop = x.start.after x.text

theorem Lexeme.IsPlaced.isProper {x : Lexeme} (h : x.IsPlaced) : x.extent.IsProper := by
  have hafter := x.start.notAfter_after x.text
  rw [← h.stop] at hafter
  exact hafter

/-- A lexeme with a text ends after it starts. -/
theorem Lexeme.IsPlaced.not_precedes_self {x : Lexeme} (h : x.IsPlaced) (hne : x.text ≠ []) :
    ¬ x.extent.Precedes x.extent := by
  obtain ⟨c, cs, htext⟩ := List.exists_cons_of_ne_nil hne
  have hafter := (x.start.next c).notAfter_after cs
  have hstop : x.stop = (x.start.next c).after cs := by rw [h.stop, htext]; rfl
  rw [← hstop] at hafter
  unfold Extent.Precedes Lexeme.extent NotAfter at *
  rw [Mark.next] at hafter
  split at hafter <;> simp only at * <;> omega

structure Lexeme.Ordered (xs : List Lexeme) : Prop where
  placed : ∀ x ∈ xs, x.IsPlaced
  pairwise : xs.Pairwise fun x y => x.extent.Precedes y.extent

theorem Lexeme.Ordered.sublist {xs ys : List Lexeme} (h : Ordered ys) (hsub : xs.Sublist ys) :
    Ordered xs :=
  ⟨fun x hx => h.placed x (hsub.subset hx), h.pairwise.sublist hsub⟩

/-- Lexemes that stand one after another start at different places. -/
theorem Lexeme.Ordered.eq_of_start {xs : List Lexeme} (h : Ordered xs)
    (hne : ∀ x ∈ xs, x.text ≠ []) {x y : Lexeme} (hx : x ∈ xs) (hy : y ∈ xs)
    (hline : x.start.line = y.start.line) (hcolumn : x.start.column = y.start.column) : x = y := by
  by_cases hxy : x = y
  · exact hxy
  exfalso
  have hself := (h.placed x hx).not_precedes_self (hne x hx)
  have hself' := (h.placed y hy).not_precedes_self (hne y hy)
  unfold Extent.Precedes Lexeme.extent at hself hself'
  rcases apart_of_pairwise h.pairwise hx hy hxy with hprecedes | hprecedes
  · rw [Extent.Precedes, extent, extent, ← hline, ← hcolumn] at hprecedes
    exact hself hprecedes
  · rw [Extent.Precedes, extent, extent, hline, hcolumn] at hprecedes
    exact hself' hprecedes

theorem Lexeme.Ordered.nodup {xs : List Lexeme} (h : Ordered xs) (hne : ∀ x ∈ xs, x.text ≠ []) :
    xs.Nodup := by
  refine h.pairwise.imp_of_mem ?_
  rintro x y hx hy hprecedes rfl
  exact (h.placed x hx).not_precedes_self (hne x hx) hprecedes

namespace Piece

/-- Cutting takes up at the mark behind the characters still owed. -/
theorem notAfter_of_mem_cut (front : Char → List Char → Option (Terminal × Nat))
    (cs : List Char) : ∀ (owed : Nat) (m : Mark) {x : Lexeme}, .lexeme x ∈ cut front owed m cs →
      NotAfter (m.after (cs.take owed)).line (m.after (cs.take owed)).column x.start.line
        x.start.column := by
  induction cs with
  | nil =>
    intro owed m x h
    cases owed <;> cases h
  | cons c cs ih =>
    intro owed m x h
    cases owed with
    | succ owed => exact ih owed (m.next c) h
    | zero =>
      have hrest : ∀ n, .lexeme x ∈ cut front n (m.next c) cs →
          NotAfter m.line m.column x.start.line x.start.column := fun n hmem =>
        (m.notAfter_next c).trans ((Mark.notAfter_after _ _).trans (ih n (m.next c) hmem))
      rw [cut] at h
      split at h
      case h_1 t n _ =>
        rcases List.mem_cons.mp h with heq | hmem
        · cases heq
          exact NotAfter.refl _ _
        · exact hrest n hmem
      case h_2 =>
        rcases List.mem_cons.mp h with heq | hmem
        · cases heq
        · exact hrest 0 hmem

theorem ordered_cut (front : Char → List Char → Option (Terminal × Nat)) (cs : List Char) :
    ∀ (owed : Nat) (m : Mark), m.IsCounted →
      Lexeme.Ordered (Parse.lexemesIn (cut front owed m cs)) := by
  induction cs with
  | nil =>
    intro owed m _
    cases owed <;> exact ⟨by simp [cut, Parse.lexemesIn], List.Pairwise.nil⟩
  | cons c cs ih =>
    intro owed m hm
    cases owed with
    | succ owed => exact ih owed (m.next c) (m.isCounted_next hm c)
    | zero =>
      rw [cut]
      split
      case h_2 => exact ih 0 (m.next c) (m.isCounted_next hm c)
      case h_1 t n _ =>
        obtain ⟨hplaced, hpairwise⟩ := ih n (m.next c) (m.isCounted_next hm c)
        refine ⟨List.forall_mem_cons.mpr ⟨⟨hm, rfl⟩, hplaced⟩, ?_⟩
        refine List.pairwise_cons.mpr ⟨?_, hpairwise⟩
        intro y hy
        exact notAfter_of_mem_cut front cs n (m.next c) (Parse.mem_lexemesIn.mp hy)

end Piece

/-- The lexemes that the parser keeps of a source, in spite of errors or without any, stand in their
places. -/
theorem Parse.ordered_of_recovering {source : String} {d : Derivation}
    (h : (recovering source).result = .ok d) : Lexeme.Ordered d.lexemes := by
  obtain ⟨_, _, hsublist⟩ := valid_of_recovering h
  have horigin : Mark.origin.IsCounted := ⟨Nat.le_refl 1, Nat.le_refl 1⟩
  have hall := Piece.ordered_cut Terminal.atFront source.toList 0 .origin horigin
  exact hall.sublist (hsublist.trans (List.filter_sublist.filterMap _))

end GrammarServer
