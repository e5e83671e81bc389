import GrammarServer.Proofs.Document.Formatted
import GrammarServer.Proofs.Node.Alike

/-!
# Layouts of the same file

The layout of a file does not depend on the places that its statements take, except where an
alternative inside a group has a name: that is displayed, and the display shows its place. So two
sources that differ in their layout alone are laid out in the same way.
-/
namespace GrammarServer

open Node (unplaced unplacedAll_eq_map isPresent_unplaced)

namespace Typed

/-! ## Nodes -/

def Unmoved (n : Node) : Prop := ∀ indent, Layout.text indent n.unplaced = Layout.text indent n

theorem texts_unplaced {ns : List Node} (h : ∀ n ∈ ns, Unmoved n) :
    Layout.texts (ns.map unplaced) = Layout.texts ns := by
  induction ns with
  | nil => rfl
  | cons n ns ih =>
    obtain ⟨hn, hns⟩ := List.forall_mem_cons.mp h
    rw [List.map_cons, Layout.texts, hn, ih hns, Layout.texts]

theorem Word.unmoved {t : Terminal} (x : Word t) : Unmoved x.node := fun _ => rfl

theorem Name.toText_unplaced (x : Name) : x.node.unplaced.toText = x.node.toText := by
  cases x <;> rfl

theorem map_toText_unplaced (xs : List Name) :
    ((xs.map Name.node).map unplaced).map Node.toText = (xs.map Name.node).map Node.toText := by
  rw [List.map_map, List.map_map, List.map_map]
  exact List.map_congr_left fun x _ => x.toText_unplaced

theorem repetition_unplaced (count : Repetition) :
    Layout.repetition (count.nodes.map unplaced) = Layout.repetition count.nodes := by
  cases count <;> rfl

theorem unmoved_expansion {e : Option Extent} {ns : List Node} {name : Node}
    (h : ∀ n ∈ ns, Unmoved n) (hname : name.unplaced.toText = name.toText) :
    Unmoved (.expansion e ns name) := by
  intro indent
  rw [unplaced, Layout.text, unplacedAll_eq_map, texts_unplaced h, isPresent_unplaced, hname,
    Layout.text]

theorem unmoved_expr {e : Option Extent} {atom : Node} {count : Repetition}
    (hatom : ∀ items, atom ≠ .list items) (h : Unmoved atom) :
    Unmoved (.expr e atom count.nodes) := by
  have hunplaced : ∀ items, atom.unplaced ≠ .list items := by
    intro items hitems
    cases atom with
    | list items => exact hatom items rfl
    | _ => cases hitems
  intro indent
  rw [unplaced, unplacedAll_eq_map, Layout.text, h, repetition_unplaced, Layout.text]
  · exact fun items heq => hatom items heq
  · exact fun items heq => hunplaced items heq

/-! ## Typed files -/

mutual

theorem Value.unmoved : ∀ v : Value, v.GroupsUnnamed → Unmoved v.node
  | .name (.rule x), _ => x.unmoved
  | .name (.terminal x), _ => x.unmoved
  | .string x, _ => x.unmoved
  | .regexp x, _ => x.unmoved
  | .range .., _ => fun _ => rfl
  | .usage _ x arguments, h => by
    have harguments := Values.unmoved arguments h
    intro indent
    rw [Value.node, unplaced, Layout.text, unplacedAll_eq_map, texts_unplaced harguments,
      Layout.text]
    rfl

theorem Values.unmoved : ∀ vs : Values, vs.GroupsUnnamed → ∀ n ∈ vs.nodes, Unmoved n
  | .one v, h => by
    have hv := Value.unmoved v h
    exact List.forall_mem_singleton.mpr hv
  | .cons v vs, h => by
    have hv := Value.unmoved v h.1
    have hvs := Values.unmoved vs h.2
    exact List.forall_mem_cons.mpr ⟨hv, hvs⟩

theorem Expr.unmoved : ∀ x : Expr, x.GroupsUnnamed → Unmoved x.node
  | .mk _ (.value v) _, h => unmoved_expr v.node_ne_list (Value.unmoved v h)
  | .mk _ (.group body) count, h => by
    have hbody := Alternatives.unmoved body h.2
    rw [← Alternatives.nodes_eq_resolved h.1] at hbody
    intro indent
    rw [Expr.node, Atom.node, unplaced, unplaced, Layout.text, unplacedAll_eq_map,
      unplacedAll_eq_map, texts_unplaced hbody, repetition_unplaced, Layout.text]
  | .mk _ (.maybe _ body) _, h => by
    have hbody := Alternatives.unmoved body h
    apply unmoved_expr (by simp [Atom.node])
    intro indent
    rw [Atom.node, unplaced, Layout.text, unplacedAll_eq_map, texts_unplaced hbody, Layout.text]

theorem Exprs.unmoved : ∀ xs : Exprs, xs.GroupsUnnamed → ∀ n ∈ xs.nodes, Unmoved n
  | .nil, _ => by simp [Exprs.nodes]
  | .cons x xs, h => by
    have hx := Expr.unmoved x h.1
    have hxs := Exprs.unmoved xs h.2
    exact List.forall_mem_cons.mpr ⟨hx, hxs⟩

theorem Alternative.unmoved : ∀ a : Alternative, a.GroupsUnnamed → Unmoved a.resolved
  | .plain _ body, h => by
    have hbody := Exprs.unmoved body h
    exact unmoved_expansion hbody rfl
  | .named _ _ body _, h => by
    have hbody := Exprs.unmoved body h
    exact unmoved_expansion hbody rfl

theorem Alternatives.unmoved : ∀ as : Alternatives, as.GroupsUnnamed →
    ∀ n ∈ as.resolved, Unmoved n
  | .one a, h => by
    have ha := Alternative.unmoved a h
    exact List.forall_mem_singleton.mpr ha
  | .cons a as, h => by
    have ha := Alternative.unmoved a h.1
    have has := Alternatives.unmoved as h.2
    exact List.forall_mem_cons.mpr ⟨ha, has⟩

end

theorem parameterList_unplaced (xs : List (Word .ruleName)) :
    Layout.parameterList (Node.list (xs.map Word.node)).unplaced =
      Layout.parameterList (.list (xs.map Word.node)) := by
  have htexts : ((xs.map Word.node).map unplaced).map Node.toText =
      (xs.map Word.node).map Node.toText := by
    rw [List.map_map, List.map_map, List.map_map]
    rfl
  rw [Layout.parameterList, isPresent_unplaced, Node.elements_unplaced, Node.elements, Except.map,
    ok_bind, htexts, Layout.parameterList]
  rfl

theorem priorityMark_unplaced (priority : Option (Word .number)) :
    Layout.priorityMark (termPriority priority).unplaced =
      Layout.priorityMark (termPriority priority) := by
  rw [Layout.priorityMark, isPresent_unplaced, Layout.priorityMark]
  cases priority <;> rfl

theorem Definition.unmoved (d : Definition) (h : d.GroupsUnnamed) : Unmoved d.node := by
  intro indent
  cases d with
  | rule e signs name parameters priority body =>
    have hmodifiers : ∀ cs : List Char, ∀ marks : List String,
        (cs.map (fun c => Node.text (String.singleton c)) ++ marks.map Node.text).map unplaced =
          cs.map (fun c => Node.text (String.singleton c)) ++ marks.map Node.text := by
      intro cs marks
      rw [List.map_append, List.map_map, List.map_map]
      rfl
    rw [Definition.node, unplaced, Layout.text, parameterList_unplaced, Node.elements_unplaced,
      Node.elements, Except.map, hmodifiers, unplacedAll_eq_map, texts_unplaced (body.unmoved h),
      Layout.text]
    rfl
  | term e name priority body =>
    rw [Definition.node, unplaced, Layout.text, priorityMark_unplaced, unplacedAll_eq_map,
      texts_unplaced (body.unmoved h), Layout.text]
    rfl

theorem importText_unplaced (path : String) (xs : List Name) {name : Node}
    (hname : name.unplaced.toText = name.toText) :
    Layout.importText (.text path) (Node.list (xs.map Name.node)).unplaced name.unplaced =
      Layout.importText (.text path) (.list (xs.map Name.node)) name := by
  rw [Layout.importText, Node.elements_unplaced, Node.elements, Except.map, ok_bind,
    map_toText_unplaced, isPresent_unplaced, hname, Layout.importText]
  rfl

theorem Source.unmoved (e : Option Extent) (x : Source) : Unmoved (x.node e) := by
  intro indent
  cases x with
  | whole path => exact importText_unplaced path.text [path.last] rfl
  | renamed path name => exact importText_unplaced path.text [path.last] name.toText_unplaced
  | listed path first more => exact importText_unplaced _ (first :: more) rfl

theorem Statement.unmoved (s : Statement) (h : s.GroupsUnnamed) : Unmoved s.node := by
  intro indent
  cases s with
  | definition d => exact d.unmoved h indent
  | override e d =>
    rw [Statement.node, unplaced, Layout.text, d.unmoved h, Layout.text]
  | extend e d =>
    rw [Statement.node, unplaced, Layout.text, d.unmoved h, Layout.text]
  | ignore e body =>
    rw [Statement.node, unplaced, Layout.text, unplacedAll_eq_map, texts_unplaced (body.unmoved h),
      Layout.text]
  | imports e source => exact source.unmoved e indent
  | declare e first more =>
    have hnames := map_toText_unplaced (first :: more)
    rw [Statement.node, unplaced, Layout.text, unplacedAll_eq_map, ← List.map_cons, hnames,
      Layout.text]
  | comment e x =>
    have hstrip : Text.stripChars (Text.trimEnd x.text) = Text.stripChars x.text := by
      rw [← stripChars_of_isComment x.spells,
        Text.stripChars_solid (solid_stripChars_of_isComment x.spells)]
    have htext : x.lexeme.token.text.toList = x.text := String.toList_ofList
    change Except.ok (Text.strip (String.ofList (Text.trimEnd x.lexeme.token.text.toList))) =
      .ok (Text.strip x.lexeme.token.text)
    rw [htext, Text.strip_ofList, hstrip, Text.strip, htext]

theorem ofStatements_unplaced (indent : String) {ss : List Statement}
    (h : ∀ s ∈ ss, s.GroupsUnnamed) :
    Layout.ofStatements indent ((ss.map Statement.node).map unplaced) =
      Layout.ofStatements indent (ss.map Statement.node) := by
  have hparts : ((ss.map Statement.node).map unplaced).mapM (Layout.text indent) =
      (ss.map Statement.node).mapM (Layout.text indent) := by
    induction ss with
    | nil => rfl
    | cons s ss ih =>
      obtain ⟨hs, hss⟩ := List.forall_mem_cons.mp h
      rw [List.map_cons, List.map_cons, List.mapM_cons, s.unmoved hs, ih hss, List.mapM_cons]
  rw [Layout.ofStatements, hparts, Layout.ofStatements]

end Typed

open Typed

/-- Files that say the same are laid out in the same way. -/
theorem Layout.ofStatements_congr (indent : String) {ss ts : List Statement}
    (h : (ts.map Statement.node).map unplaced = (ss.map Statement.node).map unplaced)
    (hss : ∀ s ∈ ss, s.GroupsUnnamed) (hts : ∀ t ∈ ts, t.GroupsUnnamed) :
    Layout.ofStatements indent (ts.map Statement.node) =
      Layout.ofStatements indent (ss.map Statement.node) :=
  calc Layout.ofStatements indent (ts.map Statement.node)
    _ = Layout.ofStatements indent ((ts.map Statement.node).map unplaced) :=
      (ofStatements_unplaced indent hts).symm
    _ = Layout.ofStatements indent ((ss.map Statement.node).map unplaced) := by rw [h]
    _ = Layout.ofStatements indent (ss.map Statement.node) := ofStatements_unplaced indent hss

theorem exists_error_of_ne_ok {α : Type} {x : Except Fault α} (h : ¬ ∃ a, x = .ok a) :
    ∃ fault, x = .error fault := by
  cases x with
  | ok a => exact absurd ⟨a, rfl⟩ h
  | error fault => exact ⟨fault, rfl⟩

/-- Sources that differ in line breaks and in bars on new lines are laid out in the same way, unless
neither file can be built for a priority with too many digits. -/
theorem Layout.ofStatements_eq_of_alike {source source' : String} {d d' : Derivation}
    (hparse : Parse.strict source = .ok d) (hparse' : Parse.strict source' = .ok d')
    (hgroups : d.namesGroup = false) (hgroups' : d'.namesGroup = false)
    (hlexemes : List.Forall₂ Lexeme.Alike (Lexeme.scan false source).1
      (Lexeme.scan false source').1)
    (indent : String) :
    (∃ (file file' : Node) (text : String), d.tree.build = .ok file ∧ d'.tree.build = .ok file' ∧
      file'.statements.map unplaced = file.statements.map unplaced ∧
      Layout.ofStatements indent file.statements = .ok text ∧
      Layout.ofStatements indent file'.statements = .ok text) ∨
    ((∃ fault, d.tree.build = .error fault) ∧ (∃ fault, d'.tree.build = .error fault) ∧
      ¬ d.HasReadablePriorities ∧ ¬ d'.HasReadablePriorities) := by
  obtain ⟨hvalid, hstart, hpieces⟩ := Parse.valid_of_strict hparse
  obtain ⟨hvalid', hstart', hpieces'⟩ := Parse.valid_of_strict hparse'
  have hfound := Parse.recovering_of_strict hparse
  have hfound' := Parse.recovering_of_strict hparse'
  have hgist : d'.gist = d.gist := by
    apply Parse.gist_eq_of_strict hparse hparse'
    rw [Lexeme.scan_eq_iff.mpr hpieces, Lexeme.scan_eq_iff.mpr hpieces'] at hlexemes
    exact (Lexeme.map_gist_eq hlexemes).symm
  by_cases hbuilt : (∃ file, d.tree.build = .ok file) ∨ ∃ file', d'.tree.build = .ok file'
  · left
    -- As soon as one of the two files is built, so is the other one like it.
    obtain ⟨file, file', hbuild, hbuild', hsame⟩ : ∃ file file', d.tree.build = .ok file ∧
        d'.tree.build = .ok file' ∧ file'.unplaced = file.unplaced := by
      rcases hbuilt with ⟨file, hbuild⟩ | ⟨file', hbuild'⟩
      · obtain ⟨file', hbuild', hsame⟩ :=
          Derivation.exists_build_of_gist hvalid hvalid' hstart hstart' hgist hbuild
        exact ⟨file, file', hbuild, hbuild', hsame⟩
      · obtain ⟨file, hbuild, hsame⟩ :=
          Derivation.exists_build_of_gist hvalid' hvalid hstart' hstart hgist.symm hbuild'
        exact ⟨file, file', hbuild, hbuild', hsame.symm⟩
    obtain ⟨e, ss, rfl, hss, _⟩ :=
      exists_statements_assured hvalid hstart (isSpelled_of_recovering hfound) hbuild
    obtain ⟨e', ts, rfl, hts, _⟩ :=
      exists_statements_assured hvalid' hstart' (isSpelled_of_recovering hfound') hbuild'
    have hstatements : (ts.map Statement.node).map unplaced =
        (ss.map Statement.node).map unplaced := by
      rw [unplaced, unplaced, unplacedAll_eq_map, unplacedAll_eq_map] at hsame
      exact (Node.file.inj hsame).2
    obtain ⟨text, htext⟩ := exists_ofStatements indent ss
    refine ⟨_, _, text, hbuild, hbuild', hstatements, htext, ?_⟩
    exact (ofStatements_congr indent hstatements (hss.unnamed hgroups)
      (hts.unnamed hgroups')).trans htext
  · obtain ⟨hnone, hnone'⟩ := not_or.mp hbuilt
    exact Or.inr ⟨exists_error_of_ne_ok hnone, exists_error_of_ne_ok hnone',
      mt (exists_file hfound) hnone, mt (exists_file hfound') hnone'⟩

open GrammarServer.Derivation in
/-- How a rule with two alternatives is derived, with a bar between them and a line break after
it. -/
def choice (a colon b c : Mark) (bar ending : Derivation) : Derivation :=
  let alternative (m : Mark) (s : String) : Derivation :=
    ofParts .aliasing [ofValue .nonterminal .ruleName m s]
  ofItems
    (ofRule a "a" [] [] colon (ofParts .expansions [ofParts .alternatives [
      ofParts .alternatives [alternative b "b"], bar, alternative c "c"]]))
    [ending]

/-- A rule on one line and the same rule on two lines are laid out in the same way. -/
theorem Layout.ofStatements_eq_of_alike_choice :
    ∃ d d' file file', Parse.strict "a:b|c\n" = .ok d ∧
      Parse.strict "a :  b\n   | c\n\n\n" = .ok d' ∧
      d.tree.build = .ok file ∧ d'.tree.build = .ok file' ∧
      Layout.ofStatements "  " file.statements = .ok "a: b\n  | c" ∧
      Layout.ofStatements "  " file'.statements = .ok "a: b\n  | c" := by
  let d := choice ⟨0, 1, 1⟩ ⟨1, 1, 2⟩ ⟨2, 1, 3⟩ ⟨4, 1, 5⟩ (Derivation.ofWord .bar ⟨3, 1, 4⟩ "|")
    (Derivation.ofWord .newline ⟨5, 1, 6⟩ "\n")
  let d' := choice ⟨0, 1, 1⟩ ⟨2, 1, 3⟩ ⟨5, 1, 6⟩ ⟨12, 2, 6⟩
    (Derivation.ofWord .newlineBar ⟨6, 1, 7⟩ "\n   |")
    (Derivation.ofWord .newline ⟨13, 2, 7⟩ "\n\n\n")
  have hparse : Parse.strict "a:b|c\n" = .ok d :=
    Parse.strict_of_settled (by decide) rfl (by decide) (by decide +kernel)
  have hparse' : Parse.strict "a :  b\n   | c\n\n\n" = .ok d' :=
    Parse.strict_of_settled (by decide) rfl (by decide) (by decide +kernel)
  have hread : d.tree.build.toOption.any (fun file =>
      (Layout.ofStatements "  " file.statements).toOption == some "a: b\n  | c") = true := by
    decide +kernel
  obtain ⟨file, hfile, hread⟩ := (Option.any_eq_true _ _).mp hread
  have hbuild := eq_ok_of_toOption hfile
  have hlayout := eq_ok_of_toOption (beq_iff_eq.mp hread)
  obtain ⟨file₁, file', text, hbuild₁, hbuild', _, htext, htext'⟩ :=
    (Layout.ofStatements_eq_of_alike hparse hparse' rfl rfl (by decide +kernel) "  ").resolve_right
      fun h => h.2.2.1 (by decide)
  obtain rfl := Except.ok.inj (hbuild₁.symm.trans hbuild)
  obtain rfl := Except.ok.inj (htext.symm.trans hlayout)
  exact ⟨d, d', file₁, file', hparse, hparse', hbuild, hbuild', hlayout, htext'⟩

end GrammarServer
