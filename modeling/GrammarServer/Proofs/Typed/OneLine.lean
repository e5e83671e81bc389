import GrammarServer.Proofs.Document.Formatted
import GrammarServer.Proofs.Lexeme.Partition
import GrammarServer.Proofs.Typed.Content

/-!
# Parts that are laid out in one line

No word that is kept in a tree goes on in another line, and neither does the text that shows a node
with its fields, for a line feed in it is escaped. So whatever is laid out inside a statement, from
a value to an alternative, is a single line.
-/
namespace GrammarServer

/-! ## Words -/

namespace Terminal

theorem not_mem_of_isRun {mark first next : Char → Bool} {w : List Char} {c : Char}
    (hw : IsRun mark first next w) (h : mark c = false ∧ first c = false ∧ next c = false) :
    c ∉ w := by
  obtain ⟨d, w, rfl⟩ := List.exists_cons_of_ne_nil hw.ne_nil
  obtain ⟨hmark, hfirst, hnext⟩ := h
  rintro (_ | ⟨_, hmem⟩)
  · rcases hw.1 with hc | ⟨hc, _⟩
    · exact absurd hc (by simp [hfirst])
    · exact absurd hc (by simp [hmark])
  · exact absurd (hw.2 _ hmem) (by simp [hnext])

theorem newline_not_mem_of_stringLength {cs : List Char} {n : Nat} (h : stringLength cs = some n) :
    '\n' ∉ cs.take n := by
  fun_induction stringLength cs generalizing n with
  | case1 => cases h
  | case2 cs =>
    cases h
    simp
  | case3 c cs hc => cases h
  | case4 c cs hc ih =>
    obtain ⟨k, hk, rfl⟩ := Option.map_eq_some_iff.mp h
    have hfeed : c ≠ '\n' := by simpa using hc
    simp [ih hk, hfeed.symm]
  | case5 c cs hquote hescape hc => cases h
  | case6 c cs hquote hescape hc ih =>
    obtain ⟨k, hk, rfl⟩ := Option.map_eq_some_iff.mp h
    have hfeed : c ≠ '\n' := by simpa using hc
    simp [ih hk, hfeed.symm]

theorem newline_not_mem_of_isQuoted {w : List Char} (h : IsQuoted w) : '\n' ∉ w := by
  obtain ⟨body, mark, rfl, hbody, hmark⟩ := h
  have hfeed := newline_not_mem_of_stringLength (hbody [])
  rw [List.append_nil, List.take_length] at hfeed
  rcases hmark with rfl | rfl <;> simp [hfeed]

/-- A regular expression ends in its line, also if its last slash is escaped. -/
theorem newline_not_mem_of_regexpReach {c : Char} {cs : List Char} {n : Nat}
    (h : regexpReach c cs = some n) : '\n' ∉ c :: cs.take n := by
  simp only [regexpReach] at h
  split at h
  case isFalse => cases h
  case isTrue hc =>
    obtain ⟨k, hk, rfl⟩ := Option.map_eq_some_iff.mp h
    have hline : k ≤ (cs.takeWhile (· != '\n')).length := by
      simp only [Option.orElse_eq_orElse, Option.orElse_eq_or, Option.or_eq_some_iff] at hk
      rcases hk with hk | ⟨_, hk⟩
      · exact openSlash_le hk
      · exact lastSlash_le hk
    have hslash : c = '/' := by simpa using ((Bool.and_eq_true _ _).mp hc).1
    have hbody : '\n' ∉ cs.take k := by
      obtain ⟨rest, hrest⟩ := List.takeWhile_prefix (· != '\n') (l := cs)
      rw [← hrest, List.take_append_of_le_length hline]
      intro hmem
      have := List.all_eq_true.mp List.all_takeWhile _ (List.mem_of_mem_take hmem)
      exact absurd this (by decide)
    have hflags : '\n' ∉ (cs.drop k).takeWhile isRegexpFlag := by
      intro hmem
      have := List.all_eq_true.mp List.all_takeWhile _ hmem
      exact absurd this (by decide)
    rw [List.take_add, frontLength,
      ← List.prefix_iff_eq_take.mp (List.takeWhile_prefix isRegexpFlag), hslash, List.mem_cons,
      List.mem_append, not_or, not_or]
    exact ⟨by decide, hbody, hflags⟩

theorem newline_not_mem_of_isComment {w : List Char} (hw : IsComment w) : '\n' ∉ w := by
  cases w with
  | nil => exact List.not_mem_nil
  | cons c w =>
    obtain ⟨hc, hfeed⟩ := hw
    rw [List.mem_cons, not_or]
    refine ⟨?_, hfeed⟩
    rcases hc with rfl | ⟨rfl, _⟩
    · decide
    · decide

end Terminal

namespace Typed

open Terminal

theorem Word.newline_not_mem {t : Terminal} (x : Word t)
    (ht : t ∈ [ruleName, terminalName, string, number, operator, tilde, modifiers, comment]) :
    '\n' ∉ x.text := by
  have hspells := x.spells
  simp only [List.mem_cons, List.not_mem_nil, or_false] at ht
  rcases ht with rfl | rfl | rfl | rfl | rfl | rfl | rfl | rfl
  · exact not_mem_of_isRun hspells (by decide)
  · exact not_mem_of_isRun hspells (by decide)
  · exact newline_not_mem_of_isQuoted hspells
  · exact not_mem_of_isRun hspells (by decide)
  · have hall : ∀ w ∈ operatorTexts, '\n' ∉ w := by decide
    exact hall _ hspells
  · rw [show x.text = ['~'] from hspells]
    decide
  · have hall : ∀ w ∈ signTexts, '\n' ∉ w := by decide
    exact hall _ hspells
  · exact newline_not_mem_of_isComment hspells

end Typed

namespace Text

def OneLine (s : String) : Prop := '\n' ∉ s.toList

instance (s : String) : Decidable (OneLine s) := inferInstanceAs (Decidable (¬ _))

theorem oneLine_ofList {cs : List Char} : OneLine (String.ofList cs) ↔ '\n' ∉ cs := by
  rw [OneLine, String.toList_ofList]

@[simp] theorem oneLine_append {s t : String} : OneLine (s ++ t) ↔ OneLine s ∧ OneLine t := by
  simp [OneLine]

theorem oneLine_intercalate {separator : String} {ss : List String} (hseparator : OneLine separator)
    (h : ∀ s ∈ ss, OneLine s) : OneLine (separator.intercalate ss) := by
  induction ss with
  | nil => simp [OneLine]
  | cons s ss ih =>
    obtain ⟨hs, hss⟩ := List.forall_mem_cons.mp h
    cases ss with
    | nil => rwa [String.intercalate_singleton]
    | cons t ss =>
      rw [String.intercalate_cons_cons, oneLine_append, oneLine_append]
      exact ⟨⟨hs, hseparator⟩, ih hss⟩

theorem mem_of_mem_stripChars {c : Char} {cs : List Char} (h : c ∈ stripChars cs) : c ∈ cs :=
  (List.dropWhile_sublist isBlank).subset (mem_of_mem_trimEnd h)

theorem OneLine.strip {s : String} (h : OneLine s) : OneLine (strip s) :=
  oneLine_ofList.mpr fun hmem => h (mem_of_mem_stripChars hmem)

@[simp] theorem oneLine_toString (n : Int) : OneLine (toString n) := by
  rw [OneLine, toList_toString]
  exact Terminal.not_mem_of_isRun (isRun_numeral n) (by decide)

theorem newline_not_mem_hexDigits (width n : Nat) : '\n' ∉ hexDigits width n := by
  have hdigit : ∀ k < 16, hexDigit k ≠ '\n' := by decide
  induction width generalizing n with
  | zero => exact List.not_mem_nil
  | succ width ih =>
    rw [hexDigits, List.mem_append, List.mem_singleton, not_or]
    exact ⟨ih (n / 16), (hdigit _ (Nat.mod_lt n (by decide))).symm⟩

@[simp] theorem oneLine_quoted (s : String) : OneLine (quoted s) := by
  have hmark : quotationMark s.toList ≠ '\n' := by
    unfold quotationMark
    split <;> decide
  have hchar : ∀ c, '\n' ∉ quotedChar (quotationMark s.toList) c := by
    intro c
    unfold quotedChar
    grind [newline_not_mem_hexDigits]
  rw [quoted, oneLine_ofList, quotedChars]
  simp [hmark.symm, hchar]

end Text

namespace Node

open Text

@[simp] theorem oneLine_extent (e : Option Extent) : OneLine (Extent.display e) := by
  cases e with
  | none => decide
  | some e =>
    unfold Extent.display
    simp only [oneLine_append, oneLine_toString, and_true]
    decide

theorem oneLine_fields {kind : String} {e : Option Extent} {rest : List (String × String)}
    (hnames : (kind :: rest.map Prod.fst).all (fun s => !s.toList.contains '\n') = true)
    (hvalues : ∀ s ∈ rest.map Prod.snd, OneLine s) : OneLine (fields kind e rest) := by
  have hname : ∀ s ∈ kind :: rest.map Prod.fst, OneLine s := by
    intro s hs
    simpa [OneLine] using List.all_eq_true.mp hnames s hs
  obtain ⟨hkind, hname⟩ := List.forall_mem_cons.mp hname
  rw [List.forall_mem_map] at hname hvalues
  have hcomma : OneLine ", " := by decide
  have hwritten : ∀ p ∈ ("meta", Extent.display e) :: rest, OneLine (p.1 ++ "=" ++ p.2) := by
    refine List.forall_mem_cons.mpr ⟨?_, fun p hp => ?_⟩
    · simp only [oneLine_append, oneLine_extent, and_true]
      decide
    · simp only [oneLine_append, hname p hp, hvalues p hp, and_true, true_and]
      decide
  have hjoined := oneLine_intercalate hcomma (List.forall_mem_map.mpr hwritten)
  rw [fields, oneLine_append, oneLine_append, oneLine_append]
  exact ⟨⟨⟨hkind, by decide⟩, hjoined⟩, by decide⟩

theorem oneLine_bracketed {parts : List String} (h : ∀ s ∈ parts, OneLine s) :
    OneLine (bracketed parts) := by
  have hcomma : OneLine ", " := by decide
  simp only [bracketed, oneLine_append, oneLine_intercalate hcomma h, and_true]
  decide

mutual

/-- The text that shows a node is a single line. -/
theorem oneLine_display : ∀ n : Node, OneLine n.display
  | .absent => by decide
  | .number n => oneLine_toString n
  | .text s => oneLine_quoted s
  | .token t => by
    simp only [display, Token.display, oneLine_append, oneLine_quoted, and_true]
    decide
  | .list items => oneLine_bracketed (oneLine_displayAll items)
  | .tree label e items => by
    have hitems := oneLine_bracketed (oneLine_displayAll items)
    simp only [display, oneLine_append, oneLine_quoted, hitems, and_true]
    decide
  | .range e first last => oneLine_fields (by simp) (by simp)
  | .templateUsage e applied arguments => oneLine_fields (by simp) (by
      simp [oneLine_display applied, oneLine_bracketed (oneLine_displayAll arguments)])
  | .maybe e items => oneLine_fields (by simp) (by
      simp [oneLine_bracketed (oneLine_displayAll items)])
  | .expansion e expressions name => oneLine_fields (by simp) (by
      simp [oneLine_bracketed (oneLine_displayAll expressions), oneLine_display name])
  | .aliasing e body name => oneLine_fields (by simp) (by
      simp [oneLine_display name, oneLine_display body])
  | .expr e atom operators => oneLine_fields (by simp) (by
      simp [oneLine_display atom, oneLine_bracketed (oneLine_displayAll operators)])
  | .term e modifiers name priority expansions => by
    have hmodifiers : OneLine (bracketed (modifiers.map Text.quoted)) :=
      oneLine_bracketed (List.forall_mem_map.mpr fun s _ => oneLine_quoted s)
    exact oneLine_fields (by simp) (by
      simp [hmodifiers, oneLine_display name, oneLine_display priority,
        oneLine_bracketed (oneLine_displayAll expansions)])
  | .rule e modifiers name parameters priority expansions => oneLine_fields (by simp) (by
      simp [oneLine_display modifiers, oneLine_display name, oneLine_display parameters,
        oneLine_display priority, oneLine_bracketed (oneLine_displayAll expansions)])
  | .declare e symbols => oneLine_fields (by simp) (by
      simp [oneLine_bracketed (oneLine_displayAll symbols)])
  | .imports e path symbols name => oneLine_fields (by simp) (by
      simp [oneLine_display path, oneLine_display symbols, oneLine_display name])
  | .override e definition => oneLine_fields (by simp) (by simp [oneLine_display definition])
  | .extend e definition => oneLine_fields (by simp) (by simp [oneLine_display definition])
  | .comment e content => oneLine_fields (by simp) (by simp [oneLine_display content])
  | .ignore e expansions => oneLine_fields (by simp) (by
      simp [oneLine_bracketed (oneLine_displayAll expansions)])
  | .file e statements => oneLine_fields (by simp) (by
      simp [oneLine_bracketed (oneLine_displayAll statements)])
  | .plain e => oneLine_fields (by simp) (by simp)
  | .named _ part => oneLine_display part

theorem oneLine_displayAll : ∀ ns : List Node, ∀ s ∈ displayAll ns, OneLine s
  | [] => List.forall_mem_nil _
  | n :: ns => by
    have hn := oneLine_display n
    have hns := oneLine_displayAll ns
    exact List.forall_mem_cons.mpr ⟨hn, hns⟩

end

end Node

namespace Typed

open Text Chunk

/-! ## Typed values -/

theorem Word.oneLine {t : Terminal} (x : Word t)
    (ht : t ∈ [.ruleName, .terminalName, .string, .number, .operator, .tilde, .modifiers,
      .comment]) : OneLine (String.ofList x.text) :=
  oneLine_ofList.mpr (x.newline_not_mem ht)

theorem Name.oneLine (x : Name) : OneLine (String.ofList x.text) := by
  cases x with
  | rule x => exact x.oneLine (by decide)
  | terminal x => exact x.oneLine (by decide)

theorem Repetition.oneLine (r : Repetition) : OneLine (Layout.repetition r.nodes) := by
  cases r with
  | once => decide
  | operator x => simp [nodes, Layout.repetition, Word.toText_node, x.oneLine]
  | times mark count =>
    simp [nodes, Layout.repetition, Word.toText_node, mark.oneLine, count.oneLine]
  | between mark least most =>
    have hdots : OneLine ".." := by decide
    simp [nodes, Layout.repetition, Word.toText_node, mark.oneLine, least.oneLine, most.oneLine,
      hdots]

/-- Words among which no regular expression goes on in another line. -/
def Plain (words : List (Terminal × List Char)) : Prop :=
  ∀ w ∈ words, w.1 = .regexp → '\n' ∉ w.2

@[simp] theorem plain_append {v w : List (Terminal × List Char)} :
    Plain (v ++ w) ↔ Plain v ∧ Plain w :=
  List.forall_mem_append

@[simp] theorem plain_nil : Plain [] := List.forall_mem_nil _

@[simp] theorem plain_cons {w : Terminal × List Char} {ws : List (Terminal × List Char)} :
    Plain (w :: ws) ↔ (w.1 = .regexp → '\n' ∉ w.2) ∧ Plain ws :=
  List.forall_mem_cons

def Inline (n : Node) : Prop := ∀ indent s, Layout.text indent n = .ok s → OneLine s

theorem oneLine_texts {ns : List Node} {ss : List String} (h : ∀ n ∈ ns, Inline n)
    (hss : Layout.texts ns = .ok ss) : ∀ s ∈ ss, OneLine s := by
  induction ns generalizing ss with
  | nil =>
    cases hss
    exact List.forall_mem_nil _
  | cons n ns ih =>
    obtain ⟨hn, hns⟩ := List.forall_mem_cons.mp h
    rw [Layout.texts, bind_eq_ok] at hss
    obtain ⟨s, hs, hss⟩ := hss
    obtain ⟨others, hothers, hss⟩ := bind_eq_ok.mp hss
    rw [pure_eq_ok.mp hss]
    exact List.forall_mem_cons.mpr ⟨hn _ s hs, ih hns hothers⟩

theorem oneLine_strips {ss : List String} (h : ∀ s ∈ ss, OneLine s) :
    ∀ s ∈ ss.map strip, OneLine s :=
  List.forall_mem_map.mpr fun s hs => (h s hs).strip

theorem inline_expansion {e : Option Extent} {ns : List Node} {name : Node}
    (h : ∀ n ∈ ns, Inline n) (hname : OneLine name.toText) : Inline (.expansion e ns name) := by
  intro indent s hs
  rw [Layout.text, bind_eq_ok] at hs
  obtain ⟨parts, hparts, hs⟩ := hs
  have hspace : OneLine " " := by decide
  have hbody := oneLine_intercalate hspace (oneLine_strips (oneLine_texts h hparts))
  rw [pure_eq_ok.mp hs]
  apply OneLine.strip
  simp only [oneLine_append, hbody, hspace, true_and]
  split
  · exact oneLine_append.mpr ⟨by decide, hname⟩
  · decide

theorem inline_maybe {e : Option Extent} {ns : List Node} (h : ∀ n ∈ ns, Inline n) :
    Inline (.maybe e ns) := by
  intro indent s hs
  rw [Layout.text, bind_eq_ok] at hs
  obtain ⟨parts, hparts, hs⟩ := hs
  have hbar : OneLine " | " := by decide
  have hbody := oneLine_intercalate hbar (oneLine_strips (oneLine_texts h hparts))
  rw [pure_eq_ok.mp hs]
  simp only [oneLine_append, hbody, and_true]
  decide

theorem inline_group {e : Option Extent} {ns : List Node} (h : ∀ n ∈ ns, Inline n)
    (r : Repetition) : Inline (.expr e (.list ns) r.nodes) := by
  intro indent s hs
  rw [Layout.text, bind_eq_ok] at hs
  obtain ⟨parts, hparts, hs⟩ := hs
  have hbar : OneLine " | " := by decide
  have hbody := oneLine_intercalate hbar (oneLine_texts h hparts)
  rw [pure_eq_ok.mp hs]
  apply OneLine.strip
  simp only [oneLine_append, hbody, r.oneLine, and_true]
  decide

theorem inline_expr {e : Option Extent} {atom : Node} (hatom : ∀ items, atom ≠ .list items)
    (h : Inline atom) (r : Repetition) : Inline (.expr e atom r.nodes) := by
  intro indent s hs
  rw [Layout.text, bind_eq_ok] at hs
  · obtain ⟨body, hbody, hs⟩ := hs
    rw [pure_eq_ok.mp hs]
    exact (oneLine_append.mpr ⟨h _ body hbody, r.oneLine⟩).strip
  · exact fun items heq => hatom items heq

theorem inline_usage {e : Option Extent} (rule : Word .ruleName) {ns : List Node}
    (h : ∀ n ∈ ns, Inline n) : Inline (.templateUsage e rule.node ns) := by
  intro indent s hs
  rw [Layout.text, bind_eq_ok] at hs
  obtain ⟨parts, hparts, hs⟩ := hs
  have hcomma : OneLine ", " := by decide
  have hbody := oneLine_intercalate hcomma (oneLine_texts h hparts)
  rw [pure_eq_ok.mp hs]
  have hrule : OneLine (String.ofList rule.text) := rule.oneLine (by decide)
  simp only [Layout.braced, oneLine_append, hbody, rule.toText_node, hrule, and_true, true_and]
  decide

mutual

theorem Value.inline : ∀ v : Value, Plain (contents v.chunks) → Inline v.node
  | .name (.rule x), _ => by
    rintro indent s ⟨⟩
    exact x.oneLine (by decide)
  | .name (.terminal x), _ => by
    rintro indent s ⟨⟩
    exact x.oneLine (by decide)
  | .string x, _ => by
    rintro indent s ⟨⟩
    exact x.oneLine (by decide)
  | .regexp x, h => by
    rintro indent s ⟨⟩
    have hfeed : '\n' ∉ x.text := by simpa [Value.chunks, Terminal.isContent] using h
    exact oneLine_ofList.mpr hfeed
  | .range _ first last, _ => by
    rintro indent s ⟨⟩
    have hdots : OneLine ".." := by decide
    simp [first.oneLine, last.oneLine, hdots]
  | .usage _ rule arguments, h => by
    have hplain : Plain (contents arguments.chunks) := by
      simpa [Value.chunks, Terminal.isContent] using h
    have harguments := Values.inline arguments hplain
    exact inline_usage rule harguments

theorem Values.inline : ∀ vs : Values, Plain (contents vs.chunks) → ∀ n ∈ vs.nodes, Inline n
  | .one v, h => by
    have hv := Value.inline v h
    exact List.forall_mem_singleton.mpr hv
  | .cons v vs, h => by
    have hplain : Plain (contents v.chunks) ∧ Plain (contents vs.chunks) := by
      simpa [Values.chunks, Terminal.isContent] using h
    have hv := Value.inline v hplain.1
    have hvs := Values.inline vs hplain.2
    exact List.forall_mem_cons.mpr ⟨hv, hvs⟩

theorem Expr.inline : ∀ x : Expr, Plain (contents x.chunks) → Inline x.node
  | .mk _ (.value v) r, h => by
    rw [Expr.chunks, contents_append, plain_append] at h
    have hv := Value.inline v h.1
    exact inline_expr v.node_ne_list hv r
  | .mk _ (.group body) r, h => by
    rw [Expr.chunks, contents_append, plain_append] at h
    have hplain : Plain (contents body.chunks) := by
      simpa [Atom.chunks, Terminal.isContent] using h.1
    have hbody := Alternatives.inline body hplain
    exact inline_group hbody.1 r
  | .mk _ (.maybe _ body) r, h => by
    rw [Expr.chunks, contents_append, plain_append] at h
    have hplain : Plain (contents body.chunks) := by
      simpa [Atom.chunks, Terminal.isContent] using h.1
    have hbody := Alternatives.inline body hplain
    exact inline_expr (by simp) (inline_maybe hbody.2) r

theorem Exprs.inline : ∀ xs : Exprs, Plain (contents xs.chunks) → ∀ n ∈ xs.nodes, Inline n
  | .nil, _ => by simp [Exprs.nodes]
  | .cons x xs, h => by
    rw [Exprs.chunks, contents_append, plain_append, xs.contents_chunksAfter] at h
    have hx := Expr.inline x h.1
    have hxs := Exprs.inline xs h.2
    exact List.forall_mem_cons.mpr ⟨hx, hxs⟩

theorem Alternative.inline : ∀ a : Alternative, Plain (contents a.chunks) →
    Inline a.node ∧ Inline a.resolved
  | .plain _ body, h => by
    have hbody := Exprs.inline body h
    have habsent : OneLine Node.absent.toText := by decide
    exact ⟨inline_expansion hbody habsent, inline_expansion hbody habsent⟩
  | .named _ _ body name, h => by
    rw [Alternative.contents_named, plain_append] at h
    have hbody := Exprs.inline body h.1
    refine ⟨?_, inline_expansion hbody (name.oneLine (by decide))⟩
    -- A group shows the node of a name in quotes instead of writing it.
    rintro indent s ⟨⟩
    have hquote : OneLine "\"" := by decide
    exact oneLine_append.mpr ⟨oneLine_append.mpr ⟨hquote, Node.oneLine_display _⟩, hquote⟩

theorem Alternatives.inline : ∀ as : Alternatives, Plain (contents as.chunks) →
    (∀ n ∈ as.nodes, Inline n) ∧ ∀ n ∈ as.resolved, Inline n
  | .one a, h => by
    have ha := Alternative.inline a h
    exact ⟨List.forall_mem_singleton.mpr ha.1, List.forall_mem_singleton.mpr ha.2⟩
  | .cons a as, h => by
    have hplain : Plain (contents a.chunks) ∧ Plain (contents as.chunks) := by
      simpa [Alternatives.chunks, Terminal.isContent] using h
    have ha := Alternative.inline a hplain.1
    have has := Alternatives.inline as hplain.2
    exact ⟨List.forall_mem_cons.mpr ⟨ha.1, has.1⟩, List.forall_mem_cons.mpr ⟨ha.2, has.2⟩⟩

end

end Typed

/-! ## What is read from a source -/

namespace Lexeme

theorem text_of_laidOut {x : Lexeme} (hx : x.terminal = .regexp) : x.laidOut.2 = x.text := by
  rw [laidOut, hx]
  rfl

/-- What is written anew is a number. -/
theorem eq_laidOut_of_mem {x : Lexeme} {w : Terminal × List Char} (hw : w ∈ x.laidOutAnew)
    (hnumber : w.1 ≠ .number) : w = x.laidOut := by
  rw [laidOutAnew] at hw
  split at hw
  · split at hw
    · split at hw
      · cases hw
      · rw [List.mem_singleton.mp hw] at hnumber
        exact absurd rfl hnumber
    · cases hw
  · exact List.mem_singleton.mp hw

end Lexeme

namespace Derivation

mutual

/-- A regular expression that is laid out stands in the derivation. -/
theorem exists_regexp_of_mem_wording : ∀ d : Derivation, ∀ w ∈ d.wording, w.1 = .regexp →
    ∃ x ∈ d.lexemes, x.terminal = .regexp ∧ x.text = w.2
  | leaf x, w, hw, ht => by
    rw [wording] at hw
    split at hw
    · obtain rfl := List.mem_singleton.mp hw
      exact ⟨x, List.mem_singleton_self x, ht, (Lexeme.text_of_laidOut ht).symm⟩
    · cases hw
  | node q ds, w, hw, ht => by
    have hall := exists_regexp_of_mem_wordingOfAll ds
    rw [wording] at hw
    split at hw
    · obtain ⟨x, hx, hw⟩ := List.mem_flatMap.mp hw
      obtain rfl := Lexeme.eq_laidOut_of_mem hw (by simp [ht])
      exact ⟨x, (List.mem_filter.mp hx).1, ht, (Lexeme.text_of_laidOut ht).symm⟩
    · exact hall w hw ht

theorem exists_regexp_of_mem_wordingOfAll : ∀ ds : List Derivation, ∀ w ∈ wordingOfAll ds,
    w.1 = .regexp → ∃ x ∈ lexemesOfAll ds, x.terminal = .regexp ∧ x.text = w.2
  | [], w, hw, _ => absurd hw List.not_mem_nil
  | d :: ds, w, hw, ht => by
    have hd := exists_regexp_of_mem_wording d w
    have hds := exists_regexp_of_mem_wordingOfAll ds w
    rcases List.mem_append.mp hw with hw | hw
    · obtain ⟨x, hx, hregexp⟩ := hd hw ht
      exact ⟨x, List.mem_append_left _ hx, hregexp⟩
    · obtain ⟨x, hx, hregexp⟩ := hds hw ht
      exact ⟨x, List.mem_append_right _ hx, hregexp⟩

end

end Derivation

namespace Typed

theorem newline_not_mem_of_recovering {source : String} {d : Derivation}
    (h : (Parse.recovering source).result = .ok d) {x : Lexeme} (hx : x ∈ d.lexemes)
    (ht : x.terminal = .regexp) : '\n' ∉ x.text := by
  obtain ⟨_, _, hsublist⟩ := Parse.valid_of_recovering h
  have hmem := Parse.mem_lexemesIn.mp (hsublist.subset hx)
  obtain ⟨_, after, _, _, hreads, _⟩ :=
    Piece.exists_place_of_mem_ofSource (List.mem_filter.mp hmem).1
  obtain ⟨c, w, htext, hfront⟩ := hreads
  have hreach := Terminal.reach_of_atFront hfront
  rw [ht] at hreach
  have hfeed := Terminal.newline_not_mem_of_regexpReach hreach
  rwa [List.take_left, ← htext] at hfeed

/-- In the statements of a file no regular expression goes on in another line. -/
theorem exists_plain_statements {source : String} {d : Derivation} {file : Node}
    (h : (Parse.recovering source).result = .ok d) (hbuild : d.tree.build = .ok file) :
    ∃ (e : Option Extent) (ss : List Statement), file = .file e (ss.map Statement.node) ∧
      ∀ s ∈ ss, Plain s.contents := by
  obtain ⟨hvalid, hstart, _⟩ := Parse.valid_of_recovering h
  obtain ⟨e, ss, hfile, _, hconveys⟩ :=
    exists_statements_conveyed hvalid hstart (isSpelled_of_recovering h) hbuild
  refine ⟨e, ss, hfile, fun s hs w hw ht => ?_⟩
  have hwording : w ∈ d.wording := by
    rw [hconveys.tells.words]
    exact List.mem_flatMap.mpr ⟨s, hs, hw⟩
  obtain ⟨x, hx, hregexp, hword⟩ := d.exists_regexp_of_mem_wording w hwording ht
  rw [← hword]
  exact newline_not_mem_of_recovering h hx hregexp

end Typed

end GrammarServer
