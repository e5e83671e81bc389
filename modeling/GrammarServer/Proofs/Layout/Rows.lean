import GrammarServer.Proofs.Symbol.Shown
import GrammarServer.Proofs.Typed.OneLine

/-!
# The rows of a layout

A statement is laid out in rows. The first has all that stands in front of the alternatives, and
the first of them; each other alternative has a row of its own, which starts with a margin and a
bar. Stripping the text of a statement shortens its last row and leaves something in it, so the
rows are the lines of the file, with one empty line between the statements.
-/
namespace GrammarServer

namespace Text

/-! ## Lines with something in them -/

def IsRow (s : String) : Prop := OneLine s ∧ ∃ c ∈ s.toList, isBlank c = false

theorem piecesAt_of_not_mem {mark : Char} {cs : List Char} (h : mark ∉ cs) :
    piecesAt mark cs = [cs] := by
  induction cs with
  | nil => rfl
  | cons c cs ih =>
    obtain ⟨hc, hcs⟩ := not_or.mp (mt List.mem_cons.mpr h)
    have hne : (c == mark) = false := by simpa using Ne.symm hc
    rw [piecesAt, hne, ih hcs]
    rfl

theorem splitLines_of_oneLine {s : String} (h : OneLine s) : splitLines s = [s] := by
  rw [splitLines, piecesAt_of_not_mem h, List.map_singleton, String.ofList_toList]

theorem splitLines_append_feed (s t : String) :
    splitLines (s ++ "\n" ++ t) = splitLines s ++ splitLines t := by
  have hchars : (s ++ "\n" ++ t).toList = s.toList ++ '\n' :: t.toList := by simp
  rw [splitLines, hchars, piecesAt_append_mark, List.map_append, splitLines, splitLines]

theorem splitLines_intercalate {ss : List String} (hne : ss ≠ []) (h : ∀ s ∈ ss, OneLine s) :
    splitLines ("\n".intercalate ss) = ss := by
  induction ss with
  | nil => exact absurd rfl hne
  | cons s ss ih =>
    obtain ⟨hs, hss⟩ := List.forall_mem_cons.mp h
    cases ss with
    | nil => rw [String.intercalate_singleton, splitLines_of_oneLine hs]
    | cons t ss =>
      rw [String.intercalate_cons_cons, splitLines_append_feed, splitLines_of_oneLine hs,
        ih (List.cons_ne_nil t ss) hss, List.singleton_append]

/-! ## Stripping rows -/

theorem trimEnd_append {cs : List Char} (u : List Char) (h : ∃ c ∈ cs, isBlank c = false) :
    trimEnd (u ++ cs) = u ++ trimEnd cs := by
  have hne : (cs.reverse.dropWhile isBlank).isEmpty = false := by
    obtain ⟨c, hc, hblank⟩ := h
    rw [List.isEmpty_eq_false_iff, ne_eq, List.dropWhile_eq_nil_iff]
    intro hall
    exact absurd (hall c (List.mem_reverse.mpr hc)) (by simp [hblank])
  rw [trimEnd, List.reverse_append, List.dropWhile_append, hne, if_neg Bool.false_ne_true,
    List.reverse_append, List.reverse_reverse, trimEnd]

theorem mem_trimEnd {c : Char} {cs : List Char} (hc : c ∈ cs) (hblank : isBlank c = false) :
    c ∈ trimEnd cs := by
  obtain ⟨u, v, rfl⟩ := List.append_of_mem hc
  rw [trimEnd_append u ⟨c, List.mem_cons_self, hblank⟩, trimEnd_cons hblank]
  exact List.mem_append_right u List.mem_cons_self

theorem IsRow.trimEnd {s : String} (h : IsRow s) : IsRow (String.ofList (trimEnd s.toList)) := by
  obtain ⟨hline, c, hc, hblank⟩ := h
  refine ⟨oneLine_ofList.mpr fun hfeed => hline (mem_of_mem_trimEnd hfeed), c, ?_, hblank⟩
  rw [String.toList_ofList]
  exact mem_trimEnd hc hblank

def trimLast : List String → List String
  | [] => []
  | [s] => [String.ofList (trimEnd s.toList)]
  | s :: t :: ss => s :: trimLast (t :: ss)

theorem trimLast_ne_nil {ss : List String} (h : ss ≠ []) : trimLast ss ≠ [] := by
  fun_cases trimLast ss with
  | case1 => exact absurd rfl h
  | case2 s => exact List.cons_ne_nil _ _
  | case3 s t ss => exact List.cons_ne_nil _ _

theorem isRow_trimLast {ss : List String} (h : ∀ s ∈ ss, IsRow s) : ∀ s ∈ trimLast ss, IsRow s := by
  fun_induction trimLast ss with
  | case1 => exact h
  | case2 s => exact List.forall_mem_singleton.mpr (List.forall_mem_singleton.mp h).trimEnd
  | case3 s t ss ih =>
    obtain ⟨hs, hss⟩ := List.forall_mem_cons.mp h
    exact List.forall_mem_cons.mpr ⟨hs, ih hss⟩

theorem toList_intercalate_cons (separator s : String) (ss : List String) :
    ∃ rest, (separator.intercalate (s :: ss)).toList = s.toList ++ rest := by
  cases ss with
  | nil => exact ⟨[], by rw [String.intercalate_singleton, List.append_nil]⟩
  | cons t ss =>
    rw [String.intercalate_cons_cons, String.append_assoc, String.toList_append]
    exact ⟨_, rfl⟩

theorem trimEnd_intercalate {ss : List String} (h : ∀ s ∈ ss, IsRow s) :
    trimEnd ("\n".intercalate ss).toList = ("\n".intercalate (trimLast ss)).toList := by
  fun_induction trimLast ss with
  | case1 => rw [String.intercalate_nil]; rfl
  | case2 s => rw [String.intercalate_singleton, String.intercalate_singleton, String.toList_ofList]
  | case3 s t ss ih =>
    obtain ⟨_, hss⟩ := List.forall_mem_cons.mp h
    have hsome : ∃ c ∈ ("\n".intercalate (t :: ss)).toList, isBlank c = false := by
      obtain ⟨_, c, hc, hblank⟩ := hss t List.mem_cons_self
      obtain ⟨rest, hrest⟩ := toList_intercalate_cons "\n" t ss
      exact ⟨c, hrest ▸ List.mem_append_left rest hc, hblank⟩
    rw [String.intercalate_cons_cons, String.toList_append, trimEnd_append _ hsome, ih hss,
      ← String.toList_append, ← String.intercalate_cons_of_ne_nil (trimLast_ne_nil (by simp))]

/-- Stripping takes away only the blanks at the end of the last row. -/
theorem strip_intercalate {s : String} {ss : List String}
    (hfront : ∃ c, s.toList.head? = some c ∧ isBlank c = false) (h : ∀ t ∈ s :: ss, IsRow t) :
    strip ("\n".intercalate (s :: ss)) = "\n".intercalate (trimLast (s :: ss)) := by
  obtain ⟨c, hc, hblank⟩ := hfront
  obtain ⟨rest, hrest⟩ := toList_intercalate_cons "\n" s ss
  have hhead : ("\n".intercalate (s :: ss)).toList.head? = some c := by
    rw [hrest, List.head?_append, hc, Option.some_or]
  rw [strip, stripChars_eq_trimEnd, dropWhile_of_head hhead hblank, trimEnd_intercalate h,
    String.ofList_toList]

/-! ## Where a statement starts -/

def Opens (cs : List Char) : Prop := ∃ c, cs.head? = some c ∧ isBlank c = false ∧ c ≠ '|'

theorem Opens.append {cs : List Char} (h : Opens cs) (ds : List Char) : Opens (cs ++ ds) := by
  obtain ⟨c, hc, hopens⟩ := h
  exact ⟨c, by rw [List.head?_append, hc, Option.some_or], hopens⟩

theorem opens_percent {s : String} (h : s.toList.head? = some '%') : Opens s.toList :=
  ⟨'%', h, by decide, by decide⟩

theorem strip_strip {s : String} (h : Opens s.toList) : strip (strip s) = strip s := by
  obtain ⟨c, hc, hblank, _⟩ := h
  obtain ⟨cs, hcs⟩ := List.head?_eq_some_iff.mp hc
  rw [strip, strip, String.toList_ofList, hcs, stripChars_solid (solid_stripChars_cons hblank cs)]

end Text

def Node.alternatives : Node → List Node
  | .rule _ _ _ _ _ expansions | .term _ _ _ _ expansions | .ignore _ expansions => expansions
  | .override _ definition | .extend _ definition => definition.alternatives
  | _ => []

def Node.isDirective : Node → Bool
  | .override .. | .extend .. | .ignore .. | .declare .. | .imports .. => true
  | _ => false

namespace Layout

/-- What stands in front of the alternatives of a statement that are on lines of their own. -/
def margin (indent : String) (n : Node) : String := if n.isDirective then usualIndent else indent

def rows (head margin : String) : List String → List String
  | [] => [head]
  | a :: alternatives => (head ++ a) :: alternatives.map fun b => margin ++ "| " ++ b

theorem append_stacked_nil (head margin : String) : head ++ stacked margin [] = head := by
  rw [stacked, String.intercalate_nil, String.append_empty]

theorem intercalate_rows (head margin : String) (alternatives : List String) :
    "\n".intercalate (rows head margin alternatives) = head ++ stacked margin alternatives := by
  have hmore : ∀ (as : List String) (a : String), "\n".intercalate (a :: as.map fun b =>
      margin ++ "| " ++ b) = stacked margin (a :: as) := by
    intro as
    induction as with
    | nil => exact fun a => by rw [stacked, List.map_nil, String.intercalate_singleton,
        String.intercalate_singleton]
    | cons b as ih =>
      intro a
      have hb := ih b
      rw [List.map_cons, String.intercalate_cons_cons, String.intercalate_cons_append, hb, stacked,
        stacked, String.intercalate_cons_cons]
      simp only [String.append_assoc]
  cases alternatives with
  | nil => rw [rows, String.intercalate_singleton, append_stacked_nil]
  | cons a as => rw [rows, String.intercalate_cons_append, hmore]

/-- What stands in front of the alternatives of a statement, and these, each without a line
feed. -/
structure Drawn (head : String) (alternatives : List String) : Prop where
  opens : Text.Opens head.toList
  oneLine : Text.OneLine head
  alternatives : ∀ a ∈ alternatives, Text.OneLine a

theorem Drawn.isRow_append {head : String} {alternatives : List String}
    (h : Drawn head alternatives) {s : String} (hs : Text.OneLine s) : Text.IsRow (head ++ s) := by
  obtain ⟨c, hc, hblank, _⟩ := h.opens
  refine ⟨Text.oneLine_append.mpr ⟨h.oneLine, hs⟩, c, ?_, hblank⟩
  rw [String.toList_append]
  exact List.mem_append_left _ (List.mem_of_mem_head? hc)

theorem Drawn.isRow_rows {head margin : String} {alternatives : List String}
    (h : Drawn head alternatives) (hmargin : Text.OneLine margin) :
    ∀ r ∈ rows head margin alternatives, Text.IsRow r := by
  cases alternatives with
  | nil =>
    have hhead := h.isRow_append (s := "") (by decide)
    rw [String.append_empty] at hhead
    exact List.forall_mem_singleton.mpr hhead
  | cons a as =>
    obtain ⟨ha, has⟩ := List.forall_mem_cons.mp h.alternatives
    refine List.forall_mem_cons.mpr ⟨h.isRow_append ha, List.forall_mem_map.mpr fun b hb => ?_⟩
    refine ⟨?_, '|', by simp, by decide⟩
    simp only [Text.oneLine_append, hmargin, has b hb, and_true, true_and]
    decide

theorem Drawn.directive {head w : String} {alternatives : List String}
    (h : Drawn head alternatives) (hw : w.toList.head? = some '%')
    (hline : Text.OneLine w) : Drawn (w ++ head) alternatives := by
  refine ⟨?_, Text.oneLine_append.mpr ⟨hline, h.oneLine⟩, h.alternatives⟩
  rw [String.toList_append]
  exact (Text.opens_percent hw).append _

theorem Drawn.strip_strip {head : String} {alternatives : List String}
    (h : Drawn head alternatives) (margin : String) :
    Text.strip (Text.strip (head ++ stacked margin alternatives)) =
      Text.strip (head ++ stacked margin alternatives) := by
  apply Text.strip_strip
  rw [String.toList_append]
  exact h.opens.append _

def finalRows (head margin : String) (alternatives : List String) : List String :=
  Text.trimLast (rows head margin alternatives)

theorem finalRows_ne_nil (head margin : String) (alternatives : List String) :
    finalRows head margin alternatives ≠ [] := by
  apply Text.trimLast_ne_nil
  cases alternatives <;> exact List.cons_ne_nil _ _

theorem Drawn.isRow_finalRows {head margin : String} {alternatives : List String}
    (h : Drawn head alternatives) (hmargin : Text.OneLine margin) :
    ∀ r ∈ finalRows head margin alternatives, Text.IsRow r :=
  Text.isRow_trimLast (h.isRow_rows hmargin)

theorem Drawn.strip_eq {head margin : String} {alternatives : List String}
    (h : Drawn head alternatives) (hmargin : Text.OneLine margin) :
    Text.strip (head ++ stacked margin alternatives) =
      "\n".intercalate (finalRows head margin alternatives) := by
  have hrows := h.isRow_rows hmargin
  obtain ⟨c, hc, hblank, _⟩ := h.opens
  rw [← intercalate_rows]
  cases alternatives with
  | nil => exact Text.strip_intercalate ⟨c, hc, hblank⟩ hrows
  | cons a as =>
    refine Text.strip_intercalate ⟨c, ?_, hblank⟩ hrows
    rw [String.toList_append, List.head?_append, hc, Option.some_or]

theorem Drawn.solid_strip {head : String} {alternatives : List String}
    (h : Drawn head alternatives) (margin : String) :
    Text.Solid (Text.strip (head ++ stacked margin alternatives)).toList := by
  obtain ⟨c, hc, hblank, _⟩ := h.opens
  obtain ⟨cs, hcs⟩ := List.head?_eq_some_iff.mp hc
  rw [Text.strip, String.toList_ofList, String.toList_append, hcs, List.cons_append]
  exact Text.solid_stripChars_cons hblank _

def Renders (indent : String) (n : Node) (rs : List String) : Prop :=
  ∃ head alternatives t, Drawn head alternatives ∧
    alternatives.length = n.alternatives.length ∧
    rs = finalRows head (margin indent n) alternatives ∧
    text indent n = .ok t ∧
    Text.strip t = Text.strip (head ++ stacked (margin indent n) alternatives)

theorem Drawn.exists_renders {indent head t : String} {n : Node} {alternatives : List String}
    (h : Drawn head alternatives) (hlength : alternatives.length = n.alternatives.length)
    (htext : text indent n = .ok t)
    (hstrip : Text.strip t = Text.strip (head ++ stacked (margin indent n) alternatives)) :
    ∃ rs, Renders indent n rs :=
  ⟨_, head, alternatives, t, h, hlength, rfl, htext, hstrip⟩

theorem not_mem_of_isIndent {indent : String} (h : Terminal.IsIndent indent) {c : Char}
    (hc : c ≠ ' ' ∧ c ≠ '\t') : c ∉ indent.toList :=
  fun hmem => (h c hmem).elim hc.1 hc.2

theorem isIndent_margin {indent : String} (h : Terminal.IsIndent indent) (n : Node) :
    Terminal.IsIndent (margin indent n) := by
  rw [margin]
  split
  · decide
  · exact h

theorem oneLine_margin {indent : String} (h : Terminal.IsIndent indent) (n : Node) :
    Text.OneLine (margin indent n) :=
  not_mem_of_isIndent (isIndent_margin h n) (by decide)

theorem Renders.isRow {indent : String} {n : Node} {rs : List String} (h : Renders indent n rs)
    (hindent : Terminal.IsIndent indent) : rs ≠ [] ∧ ∀ r ∈ rs, Text.IsRow r := by
  obtain ⟨head, alternatives, _, hdrawn, _, rfl, _⟩ := h
  exact ⟨finalRows_ne_nil _ _ _, hdrawn.isRow_finalRows (oneLine_margin hindent n)⟩

theorem Renders.exists_text {indent : String} {n : Node} {rs : List String}
    (h : Renders indent n rs) (hindent : Terminal.IsIndent indent) :
    ∃ t, text indent n = .ok t ∧ Text.strip t = "\n".intercalate rs ∧
      Text.Solid (Text.strip t).toList := by
  obtain ⟨head, alternatives, t, hdrawn, _, rfl, htext, hstrip⟩ := h
  exact ⟨t, htext, hstrip.trans (hdrawn.strip_eq (oneLine_margin hindent n)),
    hstrip ▸ hdrawn.solid_strip _⟩

theorem solid_intercalate (separator : String) {ss : List String} (hne : ss ≠ [])
    (h : ∀ s ∈ ss, Text.Solid s.toList) : Text.Solid (separator.intercalate ss).toList := by
  induction ss with
  | nil => exact absurd rfl hne
  | cons s ss ih =>
    obtain ⟨hs, hss⟩ := List.forall_mem_cons.mp h
    cases ss with
    | nil => rwa [String.intercalate_singleton]
    | cons t ss =>
      rw [String.intercalate_cons_cons, String.append_assoc, String.toList_append,
        String.toList_append]
      exact hs.append (ih (List.cons_ne_nil t ss) hss) _

theorem exists_mapM_text {indent : String} (hindent : Terminal.IsIndent indent) {ns : List Node}
    {rss : List (List String)} (h : List.Forall₂ (Renders indent) ns rss) :
    ∃ parts, ns.mapM (text indent) = .ok parts ∧
      parts.map Text.strip = rss.map "\n".intercalate ∧
      ∀ s ∈ parts.map Text.strip, Text.Solid s.toList := by
  induction h with
  | nil => exact ⟨[], rfl, rfl, List.forall_mem_nil _⟩
  | cons hn _ ih =>
    obtain ⟨t, htext, hstrip, hsolid⟩ := hn.exists_text hindent
    obtain ⟨parts, hparts, hstrips, hsolids⟩ := ih
    refine ⟨t :: parts, mapM_cons_eq_ok.mpr ⟨t, parts, htext, hparts, rfl⟩, ?_, ?_⟩
    · rw [List.map_cons, List.map_cons, hstrip, hstrips]
    · exact List.forall_mem_cons.mpr ⟨hsolid, hsolids⟩

/-- The text of a file is that of its rows, with an empty line between the statements. -/
theorem ofStatements_eq {indent : String} (hindent : Terminal.IsIndent indent) {ns : List Node}
    {rss : List (List String)} (h : List.Forall₂ (Renders indent) ns rss) :
    ofStatements indent ns = .ok ("\n\n".intercalate (rss.map "\n".intercalate)) := by
  obtain ⟨parts, hparts, hstrips, hsolids⟩ := exists_mapM_text hindent h
  rw [ofStatements, hparts, ← hstrips]
  apply congrArg Except.ok
  by_cases hne : parts.map Text.strip = []
  · rw [hne, String.intercalate_nil]
    rfl
  · rw [Text.strip, Text.stripChars_solid (solid_intercalate "\n\n" hne hsolids),
      String.ofList_toList]

end Layout

namespace Typed

open Text Layout Chunk

/-! ## The rows of a statement -/

theorem oneLine_priorityMark {n : Node} (h : OneLine n.toText) : OneLine (priorityMark n) := by
  rw [priorityMark]
  split
  · exact oneLine_append.mpr ⟨by decide, h⟩
  · decide

theorem Word.opens {t : Terminal} (x : Word t) (ht : t ∈ [.ruleName, .terminalName, .modifiers]) :
    Opens x.text := by
  have hspells := x.spells
  have hsolid : Solid x.text := x.solid (by grind)
  have hbar : '|' ∉ x.text := by
    simp only [List.mem_cons, List.not_mem_nil, or_false] at ht
    rcases ht with rfl | rfl | rfl
    · exact Terminal.not_mem_of_isRun hspells (by decide)
    · exact Terminal.not_mem_of_isRun hspells (by decide)
    · have hall : ∀ w ∈ Terminal.signTexts, '|' ∉ w := by decide
      exact hall _ hspells
  obtain ⟨⟨c, hc, hblank⟩, _⟩ := hsolid
  exact ⟨c, hc, hblank, fun heq => hbar (heq ▸ List.mem_of_mem_head? hc)⟩

theorem oneLine_parameterChunks (xs : List (Word .ruleName)) :
    OneLine (written (parameterChunks xs)) := by
  have hname : ∀ x : Word .ruleName, '\n' ∉ x.text := fun x => x.newline_not_mem (by decide)
  cases xs with
  | nil => decide
  | cons x xs =>
    have hmore :
        '\n' ∉ Chunk.text ((xs.map Word.chunk).flatMap fun c => [fixed .comma, .gap, c]) := by
      induction xs with
      | nil => exact List.not_mem_nil
      | cons y ys ih => simpa [Terminal.fixedText, hname] using ih
    rw [written, oneLine_ofList]
    simp [parameterChunks, listed, Terminal.fixedText, hname, hmore]

theorem length_texts {ns : List Node} {ss : List String} (h : Layout.texts ns = .ok ss) :
    ss.length = ns.length := by
  induction ns generalizing ss with
  | nil =>
    cases h
    rfl
  | cons n ns ih =>
    rw [Layout.texts, bind_eq_ok] at h
    obtain ⟨s, _, h⟩ := h
    obtain ⟨others, hothers, h⟩ := bind_eq_ok.mp h
    rw [pure_eq_ok.mp h, List.length_cons, List.length_cons, ih hothers]

def Definition.head : Definition → String
  | rule _ signs name parameters priority _ =>
    written (signChunks signs) ++ String.ofList name.text ++ written (parameterChunks parameters) ++
      priorityMark (.number priority.value) ++ ": "
  | term _ name priority _ =>
    String.ofList name.text ++ priorityMark (termPriority priority) ++ ": "

theorem Definition.opens_head (d : Definition) : Opens d.head.toList := by
  cases d with
  | rule e signs name parameters priority body =>
    simp only [head, String.toList_append, String.toList_ofList, List.append_assoc]
    cases signs with
    | none => exact (name.opens (by decide)).append _
    | some x =>
      rw [written, signChunks, String.toList_ofList, Chunk.text_cons, List.append_assoc]
      exact (x.opens (by decide)).append _
  | term e name priority body =>
    simp only [head, String.toList_append, String.toList_ofList, List.append_assoc]
    exact (name.opens (by decide)).append _

theorem Definition.oneLine_head (d : Definition) : OneLine d.head := by
  have hcolon : OneLine ": " := by decide
  cases d with
  | rule e signs name parameters priority body =>
    have hsigns : OneLine (written (signChunks signs)) := by
      cases signs with
      | none => decide
      | some x => simpa [written, signChunks] using x.oneLine (by decide)
    have hpriority : OneLine (priorityMark (.number priority.value)) :=
      oneLine_priorityMark (oneLine_toString priority.value)
    simp [head, hsigns, name.oneLine, oneLine_parameterChunks, hpriority, hcolon]
  | term e name priority body =>
    have hpriority : OneLine (priorityMark (termPriority priority)) := by
      cases priority with
      | none => decide
      | some x => exact oneLine_priorityMark (x.oneLine (by decide))
    simp [head, name.oneLine, hpriority, hcolon]

theorem Definition.text_node (d : Definition) {alternatives : List String}
    (h : Layout.texts d.node.alternatives = .ok alternatives) (indent : String) :
    Layout.text indent d.node = .ok (d.head ++ stacked indent alternatives) := by
  cases d with
  | rule e signs name parameters priority body =>
    rw [Definition.node, Node.alternatives] at h
    rw [Definition.node, Layout.text, Node.elements, ok_bind, signs_nodes, ok_bind,
      parameterList_nodes, ok_bind, h, ok_bind]
    rfl
  | term e name priority body =>
    have hmarks : String.join ((underscoreMark name.text).filter (· != "_")) = "" := by
      rw [underscoreMark]
      split
      · rfl
      · rfl
    rw [Definition.node, Node.alternatives] at h
    rw [Definition.node, Layout.text, h, ok_bind, hmarks]
    rfl

theorem Definition.exists_texts (d : Definition) (hd : Plain d.contents) :
    ∃ alternatives, Layout.texts d.node.alternatives = .ok alternatives ∧
      Drawn d.head alternatives := by
  have hbody : ∃ body : Alternatives, d.node.alternatives = body.resolved ∧
      Plain (Chunk.contents body.chunks) := by
    cases d with
    | rule e signs name parameters priority body =>
      rw [Definition.contents_rule] at hd
      simp only [plain_append] at hd
      exact ⟨body, rfl, hd.2.2.2⟩
    | term e name priority body =>
      rw [Definition.contents_term] at hd
      simp only [plain_append] at hd
      exact ⟨body, rfl, hd.2.2⟩
  obtain ⟨body, hnodes, hplain⟩ := hbody
  obtain ⟨alternatives, htexts⟩ := Typed.exists_texts body.hasLayout_resolved
  rw [hnodes]
  exact ⟨alternatives, htexts, d.opens_head, d.oneLine_head,
    oneLine_texts (body.inline hplain).2 htexts⟩

theorem Path.oneLine (p : Path) : OneLine p.text := by
  have hdot : OneLine "." := by decide
  have hnames : ∀ s ∈ p.init.map fun x => String.ofList x.text, OneLine s :=
    List.forall_mem_map.mpr fun x _ => x.oneLine
  rw [Path.text, oneLine_append]
  refine ⟨?_, oneLine_intercalate hdot hnames⟩
  split
  · exact hdot
  · decide

theorem Name.oneLine_toText (x : Name) : OneLine x.node.toText := by
  rw [x.toText_node]
  exact x.oneLine

theorem exists_importText {path : String} (hpath : OneLine path) (names : List Name)
    {rename : Node} (hrename : OneLine rename.toText) : ∃ head, Drawn head [] ∧
      importText (.text path) (.list (names.map Name.node)) rename = .ok (strip head) := by
  have hlisted : OneLine (", ".intercalate ((names.map Name.node).map Node.toText)) := by
    rw [List.map_map]
    exact oneLine_intercalate (by decide) (List.forall_mem_map.mpr fun x _ => x.oneLine_toText)
  refine ⟨_, ⟨?_, ?_, List.forall_mem_nil _⟩, rfl⟩
  · simp only [String.append_assoc, String.toList_append]
    exact (opens_percent (s := "%import ") rfl).append _
  · refine oneLine_append.mpr ⟨oneLine_append.mpr ⟨oneLine_append.mpr ⟨oneLine_append.mpr
      ⟨by decide, hpath⟩, ?_⟩, by decide⟩, ?_⟩
    · split
      · exact oneLine_append.mpr ⟨oneLine_append.mpr ⟨by decide, hlisted⟩, by decide⟩
      · exact oneLine_append.mpr ⟨by decide, hlisted⟩
    · split
      · exact oneLine_append.mpr ⟨oneLine_append.mpr ⟨by decide, hrename⟩, by decide⟩
      · decide

theorem Source.exists_drawn (x : Source) (e : Option Extent) : ∃ head, Drawn head [] ∧
    ∀ indent, Layout.text indent (x.node e) = .ok (strip head) := by
  have habsent : OneLine Node.absent.toText := by decide
  cases x with
  | whole path =>
    obtain ⟨head, hdrawn, htext⟩ := exists_importText path.oneLine [path.last] habsent
    exact ⟨head, hdrawn, fun _ => htext⟩
  | renamed path name =>
    obtain ⟨head, hdrawn, htext⟩ := exists_importText path.oneLine [path.last] name.oneLine_toText
    exact ⟨head, hdrawn, fun _ => htext⟩
  | listed path first more =>
    have hpath := oneLine_append.mpr ⟨path.oneLine, path.last.oneLine⟩
    obtain ⟨head, hdrawn, htext⟩ := exists_importText hpath (first :: more) habsent
    exact ⟨head, hdrawn, fun _ => htext⟩

theorem Word.opens_comment (x : Word .comment) : Opens x.text := by
  have hspells : Terminal.IsComment x.text := x.spells
  obtain ⟨c, cs, htext, hblank⟩ := exists_cons_of_isComment hspells
  rw [htext] at hspells ⊢
  refine ⟨c, rfl, hblank, ?_⟩
  rcases hspells.1 with rfl | ⟨rfl, _⟩
  · decide
  · decide

theorem Statement.exists_renders (s : Statement) (hs : Plain s.contents) (indent : String) :
    ∃ rs, Renders indent s.node rs := by
  cases s with
  | definition d =>
    obtain ⟨alternatives, htexts, hdrawn⟩ := d.exists_texts hs
    refine hdrawn.exists_renders (length_texts htexts) (d.text_node htexts indent) ?_
    cases d <;> rfl
  | override e d | extend e d =>
    have hplain : Plain d.contents := by
      simpa [contents, chunks, d.contents_chunks, Terminal.isContent] using hs
    obtain ⟨alternatives, htexts, hdrawn⟩ := d.exists_texts hplain
    have hdirective := hdrawn.directive (w := "%extend ") rfl (by decide)
    refine hdirective.exists_renders (length_texts htexts) ?_ (hdirective.strip_strip usualIndent)
    rw [Statement.node, Layout.text, d.text_node htexts, ok_bind, String.append_assoc]
    rfl
  | ignore e body =>
    have hplain : Plain (Chunk.contents body.chunks) := by
      simpa [contents, chunks, body.contents_stack, Terminal.isContent] using hs
    obtain ⟨alternatives, htexts⟩ := Typed.exists_texts body.hasLayout_resolved
    have hlines := oneLine_texts (body.inline hplain).2 htexts
    have hdrawn : Drawn "%ignore " (alternatives.map strip) :=
      ⟨opens_percent rfl, by decide, oneLine_strips hlines⟩
    refine hdrawn.exists_renders ?_ ?_ (hdrawn.strip_strip usualIndent)
    · rw [List.length_map, length_texts htexts]
      rfl
    · rw [Statement.node, Layout.text, htexts]
      rfl
  | declare e first more =>
    have hnames : OneLine (" ".intercalate ((first.node :: more.map Name.node).map Node.toText)) :=
      oneLine_intercalate (by decide) (List.forall_mem_map.mpr (List.forall_mem_cons.mpr
        ⟨first.oneLine_toText, List.forall_mem_map.mpr fun x _ => x.oneLine_toText⟩))
    have hdrawn : Drawn ("%declare " ++ " ".intercalate
        ((first.node :: more.map Name.node).map Node.toText)) [] := by
      refine ⟨?_, oneLine_append.mpr ⟨by decide, hnames⟩, List.forall_mem_nil _⟩
      rw [String.toList_append]
      exact (opens_percent (s := "%declare ") rfl).append _
    exact hdrawn.exists_renders rfl rfl (by rw [append_stacked_nil])
  | imports e source =>
    obtain ⟨head, hdrawn, htext⟩ := source.exists_drawn e
    refine hdrawn.exists_renders ?_ (htext indent) ?_
    · cases source <;> rfl
    · rw [append_stacked_nil, strip_strip hdrawn.opens]
  | comment e x =>
    have hopens : Opens (String.ofList x.text).toList := by
      rw [String.toList_ofList]
      exact x.opens_comment
    have hdrawn : Drawn (String.ofList x.text) [] :=
      ⟨hopens, x.oneLine (by decide), List.forall_mem_nil _⟩
    refine hdrawn.exists_renders rfl rfl ?_
    rw [append_stacked_nil, x.toText_node, strip_strip hopens]

theorem forall₂_renders {ss : List Statement} (h : ∀ s ∈ ss, Plain s.contents) (indent : String) :
    ∃ rss, List.Forall₂ (Renders indent) (ss.map Statement.node) rss := by
  induction ss with
  | nil => exact ⟨[], .nil⟩
  | cons s ss ih =>
    obtain ⟨hs, hss⟩ := List.forall_mem_cons.mp h
    obtain ⟨rs, hrs⟩ := s.exists_renders hs indent
    obtain ⟨rss, hrss⟩ := ih hss
    exact ⟨rs :: rss, .cons hrs hrss⟩

/-- Every statement that is read from a source is laid out in rows. -/
theorem exists_renders {source : String} {d : Derivation} {file : Node}
    (h : (Parse.recovering source).result = .ok d) (hbuild : d.tree.build = .ok file)
    (indent : String) : ∃ rss, List.Forall₂ (Renders indent) file.statements rss := by
  obtain ⟨e, ss, rfl, hplain⟩ := exists_plain_statements h hbuild
  exact forall₂_renders hplain indent

end Typed

end GrammarServer
