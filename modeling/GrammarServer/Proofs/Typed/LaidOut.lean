import GrammarServer.Proofs.Typed.Written

/-!
# Layouts are written texts

The layout of a faithful file is the text of its words and gaps. The parts of which a layout is
put together are solid or empty, so that stripping them takes away only the blanks that an empty
alternative or a missing name leaves.
-/
namespace GrammarServer

open Text Terminal Chunk

namespace Terminal

theorem getLast?_of_stringLength {cs : List Char} {n : Nat} (h : stringLength cs = some n) :
    (cs.take n).getLast? = some '"' := by
  fun_induction stringLength cs generalizing n with
  | case1 => cases h
  | case2 cs =>
    cases h
    rfl
  | case3 c cs hc => cases h
  | case4 c cs hc ih =>
    obtain ⟨k, hk, rfl⟩ := Option.map_eq_some_iff.mp h
    rw [List.take_succ_cons, List.take_succ_cons, List.getLast?_cons, List.getLast?_cons, ih hk]
    rfl
  | case5 c cs hquote hescape hc => cases h
  | case6 c cs hquote hescape hc ih =>
    obtain ⟨k, hk, rfl⟩ := Option.map_eq_some_iff.mp h
    rw [List.take_succ_cons, List.getLast?_cons, ih hk]
    rfl

theorem getLast?_of_openSlash {cs : List Char} {n : Nat} (h : openSlash cs = some n) :
    (cs.take n).getLast? = some '/' := by
  fun_induction openSlash cs generalizing n with
  | case1 => cases h
  | case2 cs =>
    cases h
    rfl
  | case3 cs ih | case4 cs ih =>
    obtain ⟨k, hk, rfl⟩ := Option.map_eq_some_iff.mp h
    rw [List.take_succ_cons, List.take_succ_cons, List.getLast?_cons, List.getLast?_cons, ih hk]
    rfl
  | case5 c cs hslash hescaped hdouble ih =>
    obtain ⟨k, hk, rfl⟩ := Option.map_eq_some_iff.mp h
    rw [List.take_succ_cons, List.getLast?_cons, ih hk]
    rfl

theorem solid_of_isQuoted {w : List Char} (h : IsQuoted w) : Solid w := by
  obtain ⟨body, mark, rfl, hbody, hmark⟩ := h
  have hlast := getLast?_of_stringLength (hbody [])
  rw [List.append_nil, List.take_length] at hlast
  refine ⟨⟨'"', rfl, by decide⟩, ?_⟩
  rcases hmark with rfl | rfl
  · exact ⟨'"', by rw [List.append_nil, List.getLast?_cons, hlast]; rfl, by decide⟩
  · refine ⟨'i', ?_, by decide⟩
    rw [← List.cons_append]
    exact List.getLast?_concat

theorem isBlank_of_isRegexpFlag {c : Char} (h : isRegexpFlag c = true) : isBlank c = false := by
  have hall : ['i', 'm', 's', 'l', 'u', 'x'].all (fun d => !isBlank d) = true := by decide
  simpa using List.all_eq_true.mp hall c (by simpa [isRegexpFlag] using h)

theorem solid_of_isRegexp {w : List Char} (h : IsRegexp w) : Solid w := by
  obtain ⟨body, flags, rfl, _, _, hflags, hslash⟩ := h
  have hlast := getLast?_of_openSlash (hslash [])
  rw [List.append_nil, List.take_length] at hlast
  have hbody : Solid ('/' :: body) :=
    ⟨⟨'/', rfl, by decide⟩, '/', by rw [List.getLast?_cons, hlast]; rfl, by decide⟩
  by_cases hne : flags = []
  · rw [hne, List.append_nil]
    exact hbody
  · exact hbody.append_right
      (solid_of_all hne fun d hd => isBlank_of_isRegexpFlag (hflags d hd))

theorem solid_of_isRun {mark first next : Char → Bool} {w : List Char}
    (hw : IsRun mark first next w) (hmark : ∀ c, mark c = true → isBlank c = false)
    (hfirst : ∀ c, first c = true → isBlank c = false)
    (hnext : ∀ c, next c = true → isBlank c = false) : Solid w := by
  obtain ⟨c, cs, rfl⟩ := List.exists_cons_of_ne_nil hw.ne_nil
  apply solid_of_all (List.cons_ne_nil _ _)
  intro d hd
  rcases List.mem_cons.mp hd with rfl | hd
  · rcases hw.1 with h | ⟨h, _⟩
    · exact hfirst d h
    · exact hmark d h
  · exact hnext d (hw.2 d hd)

theorem isBlank_of_toNat {c : Char} (h : 33 ≤ c.toNat ∧ c.toNat < 0x85) : isBlank c = false := by
  rw [Bool.eq_false_iff]
  intro hblank
  have := toNat_of_isBlank hblank
  omega

theorem isBlank_of_isRuleChar (c : Char) (h : isRuleChar c = true) : isBlank c = false := by
  simp only [isRuleChar, Bool.or_eq_true, beq_iff_eq, isSmall_iff, isFigure_iff] at h
  apply isBlank_of_toNat
  rcases h with (rfl | h) | h
  · decide
  · omega
  · omega

theorem isBlank_of_isTerminalChar (c : Char) (h : isTerminalChar c = true) : isBlank c = false := by
  simp only [isTerminalChar, Bool.or_eq_true, beq_iff_eq, isLarge_iff, isFigure_iff] at h
  apply isBlank_of_toNat
  rcases h with (rfl | h) | h
  · decide
  · omega
  · omega

end Terminal

namespace Typed

theorem isBlank_of_isUnderscore (c : Char) (h : isUnderscore c = true) : isBlank c = false := by
  rw [eq_of_beq h]
  decide

theorem isBlank_of_isSign (c : Char) (h : isSign c = true) : isBlank c = false := by
  rcases (Bool.or_eq_true _ _).mp h with h | h
  · rw [eq_of_beq h]
    decide
  · rw [eq_of_beq h]
    decide

theorem solid_number {w : List Char} (hw : IsRun isSign isDigit isDigit w) : Solid w :=
  solid_of_isRun hw isBlank_of_isSign (fun _ h => isBlank_of_isDigit h)
    fun _ h => isBlank_of_isDigit h

theorem Word.solid {t : Terminal} (x : Word t)
    (ht : t ∈ [ruleName, terminalName, string, number, operator, tilde, modifiers]) :
    Solid x.text := by
  have hspells := x.spells
  simp only [List.mem_cons, List.not_mem_nil, or_false] at ht
  rcases ht with rfl | rfl | rfl | rfl | rfl | rfl | rfl
  · exact solid_of_isRun hspells isBlank_of_isUnderscore
      (fun c h => isBlank_of_isRuleChar c (isRuleChar_of_isSmall c h)) isBlank_of_isRuleChar
  · exact solid_of_isRun hspells isBlank_of_isUnderscore
      (fun c h => isBlank_of_isTerminalChar c (isTerminalChar_of_isLarge c h))
      isBlank_of_isTerminalChar
  · exact solid_of_isQuoted hspells
  · exact solid_number hspells
  · have hall : ∀ w ∈ operatorTexts, hasNoBlank w = true := by decide
    exact solid_of_hasNoBlank (hall _ hspells)
  · rw [show x.text = ['~'] from hspells]
    exact solid_of_hasNoBlank (by decide)
  · have hall : ∀ w ∈ signTexts, hasNoBlank w = true := by decide
    exact solid_of_hasNoBlank (hall _ hspells)

@[simp] theorem Name.chars_chunk (x : Name) : x.chunk.chars = x.text := by
  cases x <;> rfl

theorem Name.solid (x : Name) : Solid x.text := by
  cases x with
  | rule x => exact x.solid (by decide)
  | terminal x => exact x.solid (by decide)

theorem solid_fixed {t : Terminal} (ht : t.isSure = true) : Solid t.fixedText := by
  cases t <;> first | exact solid_of_hasNoBlank (by decide) | cases ht

theorem Repetition.text_chunks (n : Repetition) :
    Chunk.text n.chunks = [] ∨ Solid (Chunk.text n.chunks) := by
  cases n with
  | once => exact Or.inl rfl
  | operator x =>
    right
    simpa [Repetition.chunks] using x.solid (by decide)
  | times mark count =>
    right
    simpa [Repetition.chunks] using
      (mark.solid (by decide)).append_right (count.solid (by decide))
  | between mark least most =>
    right
    have h := (mark.solid (by decide)).append (most.solid (by decide)) (least.text ++ ['.', '.'])
    simpa [Repetition.chunks, fixedText] using h

theorem Value.solid (v : Value) (hv : v.Faithful) : Solid (Chunk.text v.chunks) := by
  match v with
  | .name x => simpa [Value.chunks] using x.solid
  | .string x => simpa [Value.chunks] using x.solid (by decide)
  | .regexp x =>
    simpa [Value.chunks] using solid_of_isRegexp (x.spells hv)
  | .range _ first last =>
    have h := (first.solid (by decide)).append (last.solid (by decide)) ['.', '.']
    simpa [Value.chunks, fixedText] using h
  | .usage _ rule arguments =>
    have h := (rule.solid (by decide)).append (solid_fixed (t := .rightBrace) rfl)
      ('\x7b' :: Chunk.text arguments.chunks)
    simpa [Value.chunks, fixedText] using h

theorem Atom.solid (x : Atom) (hx : x.Faithful) : Solid (Chunk.text x.chunks) := by
  match x with
  | .value v => exact v.solid hx
  | .group body =>
    have h := (solid_fixed (t := .leftParen) rfl).append (solid_fixed (t := .rightParen) rfl)
      (Chunk.text body.chunks)
    simpa [Atom.chunks, fixedText] using h
  | .maybe _ body =>
    have h := (solid_fixed (t := .leftBracket) rfl).append (solid_fixed (t := .rightBracket) rfl)
      (Chunk.text body.chunks)
    simpa [Atom.chunks, fixedText] using h

theorem Expr.solid (x : Expr) (hx : x.Faithful) : Solid (Chunk.text x.chunks) := by
  match x with
  | .mk _ atom count =>
    rw [Expr.chunks, Chunk.text_append]
    rcases count.text_chunks with h | h
    · rw [h, List.append_nil]
      exact atom.solid hx
    · exact (atom.solid hx).append_right h

/-- Expressions after a solid text. -/
theorem Exprs.solid_chunksAfter {w : List Char} (hw : Solid w) : ∀ xs : Exprs, xs.Faithful →
    Solid (w ++ Chunk.text xs.chunksAfter)
  | .nil, _ => by simpa [Exprs.chunksAfter] using hw
  | .cons x xs, ⟨hx, hxs⟩ => by
    have h := solid_chunksAfter (hw.append (x.solid hx) [' ']) xs hxs
    simpa [Exprs.chunksAfter] using h

theorem Alternative.solid (a : Alternative) (ha : a.Faithful) (hne : ∀ e, a ≠ .plain e .nil) :
    Solid (Chunk.text a.chunks) := by
  match a with
  | .plain e .nil => exact absurd rfl (hne e)
  | .plain _ (.cons x xs) =>
    have h := Exprs.solid_chunksAfter (x.solid ha.1) xs ha.2
    simpa [Alternative.chunks, Exprs.chunks] using h
  | .named _ _ .nil name =>
    have h := (solid_fixed (t := .arrow) rfl).append (name.solid (by decide)) [' ']
    simpa [Alternative.chunks] using h
  | .named _ _ (.cons x xs) name =>
    have h := (Exprs.solid_chunksAfter (x.solid ha.1) xs ha.2).append (name.solid (by decide))
      [' ', '-', '>', ' ']
    simpa [Alternative.chunks, fixedText] using h

theorem Alternative.text_chunks (a : Alternative) (ha : a.Faithful) :
    Chunk.text a.chunks = [] ∨ Solid (Chunk.text a.chunks) := by
  by_cases hempty : ∃ e, a = .plain e .nil
  · obtain ⟨e, rfl⟩ := hempty
    exact Or.inl rfl
  · exact Or.inr (a.solid ha fun e he => hempty ⟨e, he⟩)

/-! ## Lists of texts -/

def written (cs : List Chunk) : String := String.ofList (Chunk.text cs)

def Values.texts : Values → List String
  | .one v => [written v.chunks]
  | .cons v rest => written v.chunks :: rest.texts

def Exprs.texts : Exprs → List String
  | .nil => []
  | .cons x rest => written x.chunks :: rest.texts

def Alternatives.texts : Alternatives → List String
  | .one a => [written a.chunks]
  | .cons a rest => written a.chunks :: rest.texts

theorem Values.texts_ne_nil (vs : Values) : vs.texts ≠ [] := by
  cases vs <;> simp [texts]

theorem Alternatives.texts_ne_nil (as : Alternatives) : as.texts ≠ [] := by
  cases as <;> simp [texts]

theorem Values.intercalate_texts (vs : Values) : ", ".intercalate vs.texts = written vs.chunks := by
  induction vs with
  | one v => rw [texts, String.intercalate_singleton, Values.chunks]
  | cons v vs ih =>
    rw [texts, String.intercalate_cons_of_ne_nil vs.texts_ne_nil, ih]
    apply String.toList_inj.mp
    simp [written, Values.chunks, fixedText]

theorem Alternatives.intercalate_texts (as : Alternatives) :
    " | ".intercalate as.texts = written as.chunks := by
  induction as with
  | one a => rw [texts, String.intercalate_singleton, Alternatives.chunks]
  | cons a as ih =>
    rw [texts, String.intercalate_cons_of_ne_nil as.texts_ne_nil, ih]
    apply String.toList_inj.mp
    simp [written, Alternatives.chunks, fixedText]

theorem Exprs.toList_intercalate_texts (x : Expr) (xs : Exprs) :
    (" ".intercalate (written x.chunks :: xs.texts)).toList =
      Chunk.text x.chunks ++ Chunk.text xs.chunksAfter := by
  induction xs generalizing x with
  | nil => simp [texts, written, Exprs.chunksAfter]
  | cons y xs ih =>
    rw [texts, String.intercalate_cons_cons, String.toList_append, ih y]
    simp [written, Exprs.chunksAfter]

theorem strip_written {cs : List Chunk} (h : Chunk.text cs = [] ∨ Solid (Chunk.text cs)) :
    strip (written cs) = written cs := by
  rw [written, strip_ofList]
  rcases h with h | h
  · rw [h]
    rfl
  · rw [stripChars_solid h]

theorem Exprs.map_strip_texts : ∀ xs : Exprs, xs.Faithful → xs.texts.map strip = xs.texts
  | .nil, _ => rfl
  | .cons x xs, ⟨hx, hxs⟩ => by
    rw [texts, List.map_cons, strip_written (Or.inr (x.solid hx)), map_strip_texts xs hxs]

theorem Alternatives.map_strip_texts : ∀ as : Alternatives, as.Faithful →
    as.texts.map strip = as.texts
  | .one a, ha => by rw [texts, List.map_cons, strip_written (a.text_chunks ha), List.map_nil]
  | .cons a as, ⟨ha, has⟩ => by
    rw [texts, List.map_cons, strip_written (a.text_chunks ha), map_strip_texts as has]

/-! ## Layouts of expressions -/

theorem Word.layout {t : Terminal} (x : Word t) (indent : String) :
    Layout.text indent x.node = .ok (written [x.chunk]) := by
  have htext : written [x.chunk] = String.ofList x.lexeme.text := by
    simp [written, Word.text]
  rw [htext]
  rfl

theorem Name.layout (x : Name) (indent : String) :
    Layout.text indent x.node = .ok (written [x.chunk]) := by
  cases x with
  | rule x => exact x.layout indent
  | terminal x => exact x.layout indent

theorem Repetition.layout (n : Repetition) : Layout.repetition n.nodes = written n.chunks := by
  apply String.toList_inj.mp
  cases n with
  | once => rfl
  | operator x =>
    simp [Layout.repetition, nodes, chunks, written, Word.toText_node, String.join]
  | times mark count =>
    simp [Layout.repetition, nodes, chunks, written, Word.toText_node, String.join]
  | between mark least most =>
    simp [Layout.repetition, nodes, chunks, written, Word.toText_node, String.join, fixedText]

theorem Alternative.node_eq_resolved {a : Alternative} (h : a.Unnamed) : a.node = a.resolved := by
  cases a with
  | plain e body => rw [node, resolved]
  | named e inner body name => exact absurd h id

theorem Alternatives.nodes_eq_resolved : ∀ {as : Alternatives}, as.Unnamed →
    as.nodes = as.resolved
  | .one a, h => by rw [nodes, resolved, Alternative.node_eq_resolved h]
  | .cons a as, h => by
    rw [nodes, resolved, Alternative.node_eq_resolved h.1, nodes_eq_resolved h.2]

/-- The text around an atom that is not a group. -/
theorem text_expr {indent : String} {e : Option Extent} {atom : Node} {operators : List Node}
    {s : String} (hatom : ∀ items, atom ≠ .list items)
    (h : Layout.text Layout.usualIndent atom = .ok s) :
    Layout.text indent (.expr e atom operators) =
      .ok (strip (s ++ Layout.repetition operators)) := by
  rw [Layout.text, h]
  · rfl
  · exact fun items heq => hatom items heq

theorem Value.node_ne_list (v : Value) (items : List Node) : v.node ≠ .list items := by
  match v with
  | .name (.rule x) => exact nofun
  | .name (.terminal x) => exact nofun
  | .string x => exact nofun
  | .regexp x => exact nofun
  | .range .. => exact nofun
  | .usage .. => exact nofun

theorem text_expansion {indent : String} {e : Option Extent} {xs : Exprs} {name : Node}
    {rename : String} (hxs : xs.Faithful) (h : Layout.texts xs.nodes = .ok xs.texts)
    (hname : (if name.isPresent then "-> " ++ name.toText else "") = rename) :
    Layout.text indent (.expansion e xs.nodes name) =
      .ok (strip (" ".intercalate xs.texts ++ " " ++ rename)) := by
  rw [Layout.text, h, hname]
  change Except.ok (strip (" ".intercalate (xs.texts.map strip) ++ " " ++ rename)) = _
  rw [xs.map_strip_texts hxs]

/-- The blanks around what an alternative is made up of are stripped. -/
theorem strip_eq_written {s : String} {cs : List Chunk} {a b : List Char}
    (hcs : Solid (Chunk.text cs)) (hs : s.toList = a ++ (Chunk.text cs ++ b))
    (ha : ∀ c ∈ a, isBlank c = true) (hb : ∀ c ∈ b, isBlank c = true) : strip s = written cs := by
  rw [strip, hs, stripChars_of_solid hcs ha hb, written]

def Alternative.body : Alternative → Exprs
  | .plain _ body => body
  | .named _ _ body _ => body

theorem Alternative.layout_of_texts (indent : String) (a : Alternative) (ha : a.Faithful)
    (h : Layout.texts a.body.nodes = .ok a.body.texts) :
    Layout.text indent a.resolved = .ok (written a.chunks) := by
  cases a with
  | plain e body =>
    cases body with
    | nil => rfl
    | cons x xs =>
      have hname : (if Node.absent.isPresent then "-> " ++ Node.absent.toText else "") = "" := rfl
      have hsolid := Alternative.solid _ ha (by rintro _ ⟨⟩)
      rw [Alternative.resolved, text_expansion ha h hname]
      apply congrArg Except.ok
      apply strip_eq_written (a := []) (b := [' ']) hsolid _ (by simp) isBlank_space
      simp [Exprs.texts, Exprs.toList_intercalate_texts, Alternative.chunks, Exprs.chunks,
        -String.toList_intercalate]
  | named e inner body name =>
    have hsolid := Alternative.solid _ ha (by rintro _ ⟨⟩)
    rw [Alternative.resolved, text_expansion ha h (if_pos name.isPresent_node)]
    apply congrArg Except.ok
    cases body with
    | nil =>
      apply strip_eq_written (a := [' ']) (b := []) hsolid _ isBlank_space (by simp)
      simp [Exprs.texts, Alternative.chunks, fixedText, Word.toText_node]
    | cons x xs =>
      apply strip_eq_written (a := []) (b := []) hsolid _ (by simp) (by simp)
      simp [Exprs.texts, Exprs.toList_intercalate_texts, Alternative.chunks, fixedText,
        Word.toText_node, -String.toList_intercalate]

mutual

theorem Value.layout (indent : String) : ∀ v : Value, v.Faithful →
    Layout.text indent v.node = .ok (written v.chunks)
  | .name x, _ => x.layout indent
  | .string x, _ => x.layout indent
  | .regexp x, _ => x.layout indent
  | .range _ first last, _ => by
    rw [Value.node, Layout.text, Value.chunks]
    apply congrArg Except.ok
    apply String.toList_inj.mp
    simp [written, fixedText]
  | .usage _ rule arguments, h => by
    rw [Value.node, Layout.text, Values.layout arguments h, Value.chunks]
    apply congrArg Except.ok
    rw [arguments.intercalate_texts, Word.toText_node]
    apply String.toList_inj.mp
    simp [written, Layout.braced, fixedText]

theorem Values.layout : ∀ vs : Values, vs.Faithful → Layout.texts vs.nodes = .ok vs.texts
  | .one v, h => by
    rw [Values.nodes, Layout.texts, Value.layout _ v h, Layout.texts]
    rfl
  | .cons v vs, ⟨hv, hvs⟩ => by
    rw [Values.nodes, Layout.texts, Value.layout _ v hv, Values.layout vs hvs]
    rfl

theorem Expr.layout (indent : String) : ∀ x : Expr, x.Faithful →
    Layout.text indent x.node = .ok (written x.chunks)
  | .mk e (.value v) count, h => by
    have hsolid : Solid (Chunk.text (Expr.mk e (.value v) count).chunks) := Expr.solid _ h
    rw [Expr.node, Atom.node, text_expr v.node_ne_list (Value.layout _ v h), count.layout,
      ← strip_written (Or.inr hsolid)]
    apply congrArg (Except.ok ∘ strip)
    apply String.toList_inj.mp
    simp [written, Expr.chunks, Atom.chunks]
  | .mk e (.group body) count, h => by
    have hsolid : Solid (Chunk.text (Expr.mk e (.group body) count).chunks) := Expr.solid _ h
    rw [Expr.node, Atom.node, Layout.text, Alternatives.nodes_eq_resolved h.1,
      Alternatives.layout body h.2, count.layout, ← strip_written (Or.inr hsolid)]
    apply congrArg (Except.ok ∘ strip)
    rw [body.intercalate_texts]
    apply String.toList_inj.mp
    simp [written, Expr.chunks, Atom.chunks, fixedText]
  | .mk e (.maybe e' body) count, h => by
    have hsolid : Solid (Chunk.text (Expr.mk e (.maybe e' body) count).chunks) := Expr.solid _ h
    have hmaybe : Layout.text Layout.usualIndent (.maybe e' body.resolved) =
        .ok (written (Atom.maybe e' body).chunks) := by
      rw [Layout.text, Alternatives.layout body h]
      apply congrArg Except.ok
      rw [body.map_strip_texts h, body.intercalate_texts]
      apply String.toList_inj.mp
      simp [written, Atom.chunks, fixedText]
    have hlist : ∀ items, Node.maybe e' body.resolved ≠ .list items := fun _ => nofun
    rw [Expr.node, Atom.node, text_expr hlist hmaybe, count.layout,
      ← strip_written (Or.inr hsolid)]
    apply congrArg (Except.ok ∘ strip)
    apply String.toList_inj.mp
    simp [written, Expr.chunks, Atom.chunks]

theorem Exprs.layout : ∀ xs : Exprs, xs.Faithful → Layout.texts xs.nodes = .ok xs.texts
  | .nil, _ => rfl
  | .cons x xs, ⟨hx, hxs⟩ => by
    rw [Exprs.nodes, Layout.texts, Expr.layout _ x hx, Exprs.layout xs hxs]
    rfl

theorem Alternative.layout (indent : String) : ∀ a : Alternative, a.Faithful →
    Layout.text indent a.resolved = .ok (written a.chunks)
  | .plain e body, h => (Alternative.plain e body).layout_of_texts indent h (Exprs.layout body h)
  | .named e inner body name, h =>
    (Alternative.named e inner body name).layout_of_texts indent h (Exprs.layout body h)

theorem Alternatives.layout : ∀ as : Alternatives, as.Faithful →
    Layout.texts as.resolved = .ok as.texts
  | .one a, h => by
    rw [Alternatives.resolved, Layout.texts, Alternative.layout _ a h, Layout.texts]
    rfl
  | .cons a as, ⟨ha, has⟩ => by
    rw [Alternatives.resolved, Layout.texts, Alternative.layout _ a ha,
      Alternatives.layout as has]
    rfl

end

/-! ## Layouts of statements -/

/-- The blank that an empty last alternative leaves behind. -/
def Alternatives.slack : Alternatives → List Char
  | .one (.plain _ .nil) => [' ']
  | .one _ => []
  | .cons _ rest => rest.slack

theorem Alternatives.isBlank_slack (as : Alternatives) : ∀ c ∈ as.slack, isBlank c = true := by
  induction as with
  | one a =>
    rw [slack.eq_def]
    split
    · exact isBlank_space
    · simp
    · simp_all
  | cons _ as ih => exact ih

theorem Alternatives.toList_stacked (indent : String) (as : Alternatives) :
    ' ' :: (Layout.stacked indent as.texts).toList =
      Chunk.text (as.stack indent) ++ as.slack := by
  induction as with
  | one a =>
    rw [texts, Layout.stacked, String.intercalate_singleton, stack]
    unfold Alternative.spaced Alternatives.slack
    split
    · rfl
    · rename_i hempty
      split
      · rename_i heq
        cases heq
        exact absurd rfl (hempty _)
      · simp [written]
      · simp_all
  | cons a as ih =>
    rw [Layout.stacked] at ih
    rw [texts, Layout.stacked, String.intercalate_cons_of_ne_nil as.texts_ne_nil, stack, slack,
      String.toList_append, String.toList_append]
    simp only [Chunk.text_cons, Chunk.text_append, List.append_assoc, ← ih]
    simp [written, barText]

/-- Alternatives after a solid text. -/
theorem Alternatives.solid_stack (indent : String) : ∀ {w : List Char}, Solid w →
    ∀ as : Alternatives, as.Faithful → Solid (w ++ Chunk.text (as.stack indent))
  | w, hw, .one a, ha => by
    rw [stack]
    unfold Alternative.spaced
    split
    · simpa using hw
    · rename_i hempty
      exact hw.append (a.solid ha hempty) [' ']
  | w, hw, .cons a as, ⟨ha, has⟩ => by
    have hbar : Solid ['|'] := solid_of_hasNoBlank (by decide)
    have h := solid_stack indent (hw.append hbar
      (' ' :: (Chunk.text a.chunks ++ '\n' :: indent.toList))) as has
    simpa [stack, barText] using h

theorem toList_listed (c : Chunk) (cs : List Chunk) :
    (", ".intercalate ((c :: cs).map fun c => String.ofList c.chars)).toList =
      Chunk.text (listed c cs) := by
  induction cs generalizing c with
  | nil => simp [listed]
  | cons d cs ih =>
    have h := ih d
    rw [List.map_cons] at h ⊢
    rw [List.map_cons, String.intercalate_cons_cons, String.toList_append, h]
    simp [listed, fixedText]

theorem parameterList_nodes (xs : List (Word .ruleName)) :
    Layout.parameterList (.list (xs.map Word.node)) = .ok (written (parameterChunks xs)) := by
  cases xs with
  | nil => rfl
  | cons x xs =>
    have htexts : ((x :: xs).map Word.node).map Node.toText =
        (x.chunk :: xs.map Word.chunk).map fun c => String.ofList c.chars := by
      simp only [List.map_cons, List.map_map, Word.chunk, Chunk.chars, Word.toText_node]
      rfl
    have hlist := toList_listed x.chunk (xs.map Word.chunk)
    rw [← htexts] at hlist
    have hne : (", ".intercalate (((x :: xs).map Word.node).map Node.toText) == "") = false := by
      rw [beq_eq_false_iff_ne]
      intro hempty
      rw [hempty] at hlist
      have hx : x.text = [] := by
        have := List.append_eq_nil_iff.mp hlist.symm
        exact this.1
      exact x.text_ne_nil hx
    change Except.ok (if ", ".intercalate (((x :: xs).map Word.node).map Node.toText) == "" then ""
      else Layout.braced (", ".intercalate (((x :: xs).map Word.node).map Node.toText))) = _
    rw [hne]
    apply congrArg Except.ok
    apply String.toList_inj.mp
    rw [if_neg Bool.false_ne_true, Layout.braced, String.toList_append, String.toList_append, hlist]
    simp [written, parameterChunks, fixedText]

theorem Priority.layout (p : Priority) :
    Layout.priorityMark (.number p.value) = written p.chunks := by
  rw [Layout.priorityMark, Priority.chunks]
  by_cases hzero : p.value = 0
  · rw [if_pos hzero, hzero]
    rfl
  · rw [if_neg hzero, if_pos (by simpa [Node.isPresent] using hzero)]
    apply String.toList_inj.mp
    change ("." ++ toString p.value).toList = _
    rw [String.toList_append, toList_toString]
    simp [written, fixedText]

theorem signs_nodes (signs : Option (Word .modifiers)) (name : List Char) :
    Layout.signs ((signChars signs).map (fun c => Node.text (String.singleton c)) ++
      (underscoreMark name).map Node.text) = .ok (written (signChunks signs)) := by
  have hmark : ∀ ns : List Node, (ns ++ (underscoreMark name).map Node.text).filter
      (fun m => m.text? != some "_") = ns.filter fun m => m.text? != some "_" := by
    intro ns
    rw [List.filter_append, underscoreMark]
    split
    · simp [Node.text?]
    · simp
  rw [Layout.signs, hmark]
  cases signs with
  | none => rfl
  | some x =>
    have hspells := x.spells
    simp only [Spells, signTexts, List.mem_cons, List.not_mem_nil, or_false] at hspells
    simp only [signChars, signChunks, written, Word.chunk, Chunk.text_cons, Chunk.chars]
    rcases hspells with h | h | h | h
    all_goals
      rw [h]
      rfl

def Definition.slack : Definition → List Char
  | rule _ _ _ _ _ body => body.slack
  | term _ _ _ body => body.slack

theorem Definition.isBlank_slack (d : Definition) : ∀ c ∈ d.slack, isBlank c = true := by
  cases d with
  | rule _ _ _ _ _ body => exact body.isBlank_slack
  | term _ _ _ body => exact body.isBlank_slack

theorem toList_colon (indent : String) (as : Alternatives) :
    (": " ++ Layout.stacked indent as.texts).toList =
      Chunk.text (fixed .colon :: as.stack indent) ++ as.slack := by
  rw [String.toList_append, Chunk.text_cons, List.append_assoc, ← as.toList_stacked]
  rfl

/-- A definition is laid out with the blank that an empty last alternative leaves. -/
theorem Definition.layout (indent : String) (d : Definition) (hd : d.Faithful) :
    Layout.text indent d.node =
      .ok (String.ofList (Chunk.text (d.chunks indent) ++ d.slack)) := by
  cases d with
  | rule e signs name parameters priority body =>
    rw [Definition.node, Layout.text, Node.elements, ok_bind, signs_nodes, ok_bind,
      parameterList_nodes, ok_bind, Alternatives.layout body hd, ok_bind, priority.layout]
    apply congrArg Except.ok
    apply String.toList_inj.mp
    rw [String.append_assoc, String.toList_append, toList_colon]
    simp [written, Definition.chunks, Definition.slack, Word.toText_node]
  | term e name priority body =>
    have hmarks : String.join ((underscoreMark name.text).filter (· != "_")) = "" := by
      rw [underscoreMark]
      split
      · rfl
      · rfl
    rw [Definition.node, Layout.text, Alternatives.layout body hd, ok_bind, hmarks]
    apply congrArg Except.ok
    apply String.toList_inj.mp
    rw [String.append_assoc, String.toList_append, toList_colon]
    cases priority with
    | none =>
      simp [Layout.priorityMark, termPriority, Node.isPresent, Definition.chunks, Definition.slack,
        Word.toText_node, termPriorityChunks]
    | some x =>
      simp [Layout.priorityMark, termPriority, x.isPresent_node, Definition.chunks,
        Definition.slack, Word.toText_node, termPriorityChunks, fixedText]

theorem Definition.solid (indent : String) (d : Definition) (hd : d.Faithful) :
    Solid (Chunk.text (d.chunks indent)) := by
  have hcolon : Solid [':'] := solid_of_hasNoBlank (by decide)
  cases d with
  | rule e signs name parameters priority body =>
    have h := body.solid_stack indent ((name.solid (by decide)).append hcolon
      (Chunk.text (parameterChunks parameters) ++ Chunk.text priority.chunks)) hd
    cases signs with
    | none =>
      simpa [Definition.chunks, signChunks, fixedText] using h
    | some x =>
      have h' := (x.solid (by decide)).append_right h
      simpa [Definition.chunks, signChunks, fixedText] using h'
  | term e name priority body =>
    have h := body.solid_stack indent ((name.solid (by decide)).append hcolon
      (Chunk.text (termPriorityChunks priority))) hd
    simpa [Definition.chunks, fixedText] using h

/-! ### Imports -/

theorem Path.toList_text (p : Path) (hp : p.init ≠ []) (rest : List Char) :
    p.text.toList ++ '.' :: (p.last.text ++ rest) = Chunk.text p.chunks ++ rest := by
  have hdotted : ∀ xs : List Name, xs ≠ [] → ∀ r : List Char,
      (".".intercalate (xs.map fun x => String.ofList x.text)).toList ++ '.' :: r =
        Chunk.text (xs.flatMap fun x => [x.chunk, fixed .dot]) ++ r := by
    intro xs
    induction xs with
    | nil => exact fun h => absurd rfl h
    | cons x xs ih =>
      intro _ r
      cases xs with
      | nil => simp [fixedText]
      | cons y ys =>
        have h := ih (by simp) r
        rw [List.map_cons] at h
        rw [List.map_cons, List.map_cons, String.intercalate_cons_cons, String.toList_append,
          List.append_assoc, h]
        simp [fixedText]
  rw [Path.text, String.toList_append, List.append_assoc, hdotted p.init hp, Path.chunks]
  cases p.relative <;> simp [fixedText]

theorem Path.toList_text_nil (p : Path) (hp : p.init = []) :
    (p.text ++ String.ofList p.last.text).toList = Chunk.text p.chunks := by
  rw [Path.text, Path.chunks, hp]
  cases p.relative <;> simp [fixedText]

theorem solid_import (m : List Char) {w : List Char} (hw : Solid w) :
    Solid (importWord.fixedText ++ (m ++ w)) :=
  (solid_fixed (t := .importWord) rfl).append hw m

theorem map_toText_names (xs : List Name) :
    (xs.map Name.node).map Node.toText =
      (xs.map Name.chunk).map fun c => String.ofList c.chars := by
  rw [List.map_map, List.map_map]
  apply List.map_congr_left
  intro x _
  rw [Function.comp_apply, Function.comp_apply, x.toText_node, x.chars_chunk]

theorem Source.solid (x : Source) : Solid (Chunk.text (fixed .importWord :: .gap :: x.chunks)) := by
  match x with
  | .whole path =>
    have h := solid_import (' ' :: Chunk.text ((if path.relative then [fixed .dot] else []) ++
      path.init.flatMap fun x => [x.chunk, fixed .dot])) path.last.solid
    simpa [Source.chunks, Path.chunks] using h
  | .renamed path name =>
    have h := solid_import (' ' :: (Chunk.text path.chunks ++ [' ', '-', '>', ' '])) name.solid
    simpa [Source.chunks, fixedText] using h
  | .listed path first more =>
    have h := solid_import (' ' :: (Chunk.text path.chunks ++ ' ' :: '(' ::
      Chunk.text (Typed.listed first.chunk (more.map Name.chunk))))
      (solid_fixed (t := .rightParen) rfl)
    simpa [Source.chunks, fixedText] using h

theorem toText_text (t : String) : (Node.text t).toText = t := rfl

theorem Source.layout (indent : String) (e : Option Extent) (x : Source) (hx : x.Faithful) :
    Layout.text indent (x.node e) = .ok (written (fixed .importWord :: .gap :: x.chunks)) := by
  have hsolid := x.solid
  match x with
  | .whole path =>
    rw [Source.node, Layout.text]
    apply congrArg Except.ok
    apply strip_eq_written (a := []) (b := [' ']) hsolid _ (by simp) isBlank_space
    have h := path.toList_text hx [' ']
    simp [toText_text, Name.toText_node, Source.chunks, fixedText, Node.isPresent, ← h]
  | .renamed path name =>
    rw [Source.node, Layout.text]
    apply congrArg Except.ok
    apply strip_eq_written (a := []) (b := [' ']) hsolid _ (by simp) isBlank_space
    have h := path.toList_text hx (' ' :: '-' :: '>' :: ' ' :: (name.text ++ [' ']))
    simp [toText_text, Name.toText_node, Source.chunks, fixedText, name.isPresent_node, ← h]
  | .listed path first [] => exact absurd rfl hx.2
  | .listed path first (second :: more) =>
    rw [Source.node, Layout.text]
    apply congrArg Except.ok
    apply strip_eq_written (a := []) (b := [' ']) hsolid _ (by simp) isBlank_space
    have h := path.toList_text_nil hx.1
    have hnames := toList_listed first.chunk ((second :: more).map Name.chunk)
    rw [← List.map_cons, ← map_toText_names] at hnames
    simp only [List.map_cons] at hnames
    simp [toText_text, Source.chunks, fixedText, Node.isPresent, ← h, ← hnames,
      -String.toList_intercalate]

/-! ### Files -/

theorem toList_spaced (x : Name) (xs : List Name) :
    (" ".intercalate ((x :: xs).map fun y => y.node.toText)).toList =
      x.text ++ Chunk.text (xs.flatMap fun y => [.gap, y.chunk]) := by
  induction xs generalizing x with
  | nil => simp [Name.toText_node]
  | cons y ys ih =>
    have h := ih y
    rw [List.map_cons] at h ⊢
    rw [List.map_cons, String.intercalate_cons_cons, String.toList_append, h]
    simp [Name.toText_node]

theorem solid_spaced {w : List Char} (hw : Solid w) (xs : List Name) :
    Solid (w ++ Chunk.text (xs.flatMap fun y => [.gap, y.chunk])) := by
  induction xs generalizing w with
  | nil => simpa using hw
  | cons y ys ih =>
    have h := ih (hw.append y.solid [' '])
    simpa using h

theorem Statement.solid (indent : String) (s : Statement) (hs : s.Faithful) :
    Solid (Chunk.text (s.chunks indent)) := by
  cases s with
  | definition d => exact d.solid indent hs
  | override e d => exact absurd hs id
  | extend e d =>
    have h := (solid_fixed (t := .extendWord) rfl).append (d.solid Layout.usualIndent hs) [' ']
    simpa [Statement.chunks] using h
  | ignore e body =>
    have h := body.solid_stack Layout.usualIndent (solid_fixed (t := .ignoreWord) rfl) hs
    simpa [Statement.chunks] using h
  | declare e first more =>
    have h := solid_spaced ((solid_fixed (t := .declareWord) rfl).append first.solid [' ']) more
    simpa [Statement.chunks] using h
  | imports e source => exact source.solid
  | comment e x => simpa [Statement.chunks] using solid_stripChars_of_isComment x.spells

theorem Statement.layout (indent : String) (s : Statement) (hs : s.Faithful) :
    ∃ t, Layout.text indent s.node = .ok t ∧ strip t = written (s.chunks indent) := by
  have hsolid := s.solid indent hs
  have hwritten : strip (written (s.chunks indent)) = written (s.chunks indent) :=
    strip_written (Or.inr hsolid)
  cases s with
  | definition d =>
    refine ⟨_, d.layout indent hs, ?_⟩
    exact strip_eq_written (a := []) hsolid String.toList_ofList (by simp) d.isBlank_slack
  | override e d => exact absurd hs id
  | extend e d =>
    refine ⟨_, ?_, hwritten⟩
    rw [Statement.node, Layout.text, d.layout Layout.usualIndent hs, ok_bind]
    apply congrArg Except.ok
    apply strip_eq_written (a := []) hsolid _ (by simp) d.isBlank_slack
    simp [Statement.chunks, fixedText]
  | ignore e body =>
    refine ⟨_, ?_, hwritten⟩
    rw [Statement.node, Layout.text, Alternatives.layout body hs, ok_bind,
      body.map_strip_texts hs]
    apply congrArg Except.ok
    apply strip_eq_written (a := []) hsolid _ (by simp) body.isBlank_slack
    rw [Statement.chunks, Chunk.text_cons, List.append_assoc, ← body.toList_stacked,
      String.toList_append]
    rfl
  | declare e first more =>
    refine ⟨_, ?_, hwritten⟩
    rw [Statement.node, Layout.text, ← List.map_cons (f := Name.node), List.map_map]
    apply congrArg Except.ok
    apply String.toList_inj.mp
    have h := toList_spaced first more
    simp only [written, Statement.chunks, String.toList_append, String.toList_ofList]
    change _ ++ (" ".intercalate ((first :: more).map fun y => y.node.toText)).toList = _
    rw [h]
    simp [fixedText]
  | imports e source => exact ⟨_, source.layout indent e hs, hwritten⟩
  | comment e x =>
    have htext : written ((Statement.comment e x).chunks indent) =
        String.ofList (stripChars x.text) := by simp [written, Statement.chunks]
    refine ⟨_, ?_, hwritten⟩
    rw [Statement.node, Layout.text, Word.toText_node, strip_ofList, htext]
    rfl

theorem solid_chunksAfter (indent : String) {w : List Char} (hw : Solid w) (ss : List Statement)
    (hss : ∀ s ∈ ss, s.Faithful) : Solid (w ++ Chunk.text (chunksAfter indent ss)) := by
  induction ss generalizing w with
  | nil => simpa [chunksAfter] using hw
  | cons s ss ih =>
    have hs := s.solid indent (hss s List.mem_cons_self)
    have h := ih (hw.append hs ['\n', '\n']) fun t ht => hss t (List.mem_cons_of_mem _ ht)
    simpa [chunksAfter, fixedText] using h

theorem toList_chunksAfter (indent : String) (s : Statement) (ss : List Statement) :
    ("\n\n".intercalate ((s :: ss).map fun t => written (t.chunks indent))).toList =
      Chunk.text (fileChunks indent s ss) := by
  induction ss generalizing s with
  | nil => simp [written, fileChunks, chunksAfter]
  | cons t ss ih =>
    have h := ih t
    rw [List.map_cons] at h ⊢
    rw [List.map_cons, String.intercalate_cons_cons, String.toList_append, h]
    simp [written, fileChunks, chunksAfter, fixedText]

theorem mapM_layout (indent : String) (ss : List Statement) (hss : ∀ s ∈ ss, s.Faithful) :
    ∃ ts, (ss.map Statement.node).mapM (Layout.text indent) = .ok ts ∧
      ts.map strip = ss.map fun s => written (s.chunks indent) := by
  induction ss with
  | nil => exact ⟨[], rfl, rfl⟩
  | cons s ss ih =>
    obtain ⟨t, ht, hstrip⟩ := s.layout indent (hss s List.mem_cons_self)
    obtain ⟨ts, hts, hstrips⟩ := ih fun t ht => hss t (List.mem_cons_of_mem _ ht)
    refine ⟨t :: ts, ?_, ?_⟩
    · rw [List.map_cons, List.mapM_cons, ht, hts]
      rfl
    · rw [List.map_cons, List.map_cons, hstrip, hstrips]

/-- A faithful file is laid out as it is written. -/
theorem ofStatements_eq_written (indent : String) (s : Statement) (ss : List Statement)
    (hss : ∀ t ∈ s :: ss, t.Faithful) :
    Layout.ofStatements indent ((s :: ss).map Statement.node) =
      .ok (written (fileChunks indent s ss)) := by
  obtain ⟨ts, hts, hstrips⟩ := mapM_layout indent (s :: ss) hss
  rw [Layout.ofStatements, hts, ok_bind, hstrips]
  apply congrArg Except.ok
  obtain ⟨hs, hss⟩ := List.forall_mem_cons.mp hss
  have hsolid := solid_chunksAfter indent (s.solid indent hs) ss hss
  rw [← Chunk.text_append] at hsolid
  apply strip_eq_written (a := []) (b := []) hsolid _ (by simp) (by simp)
  rw [toList_chunksAfter, List.append_nil, List.nil_append, fileChunks]

end Typed

end GrammarServer
