import GrammarServer.Proofs.Node.Extents
import GrammarServer.Proofs.Parse.Complete
import GrammarServer.Proofs.Symbol.Catalog
import GrammarServer.Proofs.Typed.OfDerivation
import GrammarServer.Proofs.Typed.Symbols

/-!
# Ranges of symbols lie inside one another

In a file that comes from a source, every name lies inside the statement in which it stands. So the
range of a definition, which is that of its statement or of an alias in it, holds the name that is
defined and the ranges of the children, and that of a statement holds all references in it.
-/
namespace GrammarServer

/-! ## Ranges -/

namespace Range

theorem containsPosition_iff (r : Range) (p : Position) : r.containsPosition p = true ↔
    NotAfter r.start.line r.start.column p.line p.column ∧
      NotAfter p.line p.column r.stop.line r.stop.column := by
  unfold NotAfter
  simp only [containsPosition, Bool.and_eq_true, Bool.not_eq_true', Bool.or_eq_false_iff,
    Bool.and_eq_false_imp, decide_eq_false_iff_not, beq_iff_eq]
  omega

theorem contains_iff (r other : Range) : r.contains other = true ↔
    r.containsPosition other.start = true ∧ r.containsPosition other.stop = true :=
  Bool.and_eq_true_iff

/-- What covers an extent has the extent's range in its own. -/
theorem contains_ofExtent {outer : Option Extent} {e : Extent} (h : Extent.Covers outer e) :
    (ofExtent outer).contains (ofExtent (some e)) = true := by
  cases outer with
  | none => exact h.elim
  | some o =>
    obtain ⟨hstart, hproper, hstop⟩ := h
    have hend := hstart.trans hproper
    have hbegin := NotAfter.trans hproper hstop
    rw [contains_iff, containsPosition_iff, containsPosition_iff]
    simp only [ofExtent]
    unfold NotAfter at *
    omega

/-- What covers a token has the range of the name in it in its own. -/
theorem contains_token {outer : Option Extent} {e : Extent} (h : Extent.Covers outer e)
    {t : Token} (ht : t.StandsIn e) (hline : '\n' ∉ t.text.toList) :
    (ofExtent outer).contains (t.range true) = true := by
  cases outer with
  | none => exact h.elim
  | some o =>
    obtain ⟨hstart, _, hstop⟩ := h
    obtain ⟨hcounted, hcolumn⟩ := ht.counted
    obtain ⟨hend, hwidth⟩ := ht.width hline
    have hsigns : t.withoutSigns.length ≤ t.text.length := by
      rw [Token.withoutSigns, ← String.length_toList]
      exact (List.dropWhile_sublist _).length_le
    have hposition : t.position true =
        ⟨e.line - 1, e.column - 1 + (t.text.length - t.withoutSigns.length)⟩ := by
      have hne : (e.line == 0) = false := by rw [beq_eq_false_iff_ne]; omega
      have hne' : (e.column == 0) = false := by rw [beq_eq_false_iff_ne]; omega
      simp [Token.position, ht.line, ht.column, hne, hne']
    rw [contains_iff, containsPosition_iff, containsPosition_iff]
    simp only [ofExtent, Token.range, hposition, if_true]
    unfold NotAfter at *
    omega

end Range

/-- The name that is defined and the children lie inside the range of a definition, and the
children are nested themselves. -/
inductive Definition.IsNested : Definition → Prop
  | intro {d : Definition} : d.range.contains d.selection = true →
      (∀ c ∈ d.children.getD [], d.range.contains c.range = true) →
      (∀ c ∈ d.children.getD [], IsNested c) → IsNested d

namespace Typed

open Terminal
open Node (Nested nested_iff nested_part parts)

variable {outer : Option Extent}

/-! ## Names in statements -/

theorem isRuleChar_of_mem {w : List Char} (h : IsRun isUnderscore isSmall isRuleChar w) :
    ∀ c ∈ w, isRuleChar c = true := by
  obtain ⟨c, tl, rfl⟩ := List.exists_cons_of_ne_nil h.ne_nil
  refine List.forall_mem_cons.mpr ⟨?_, h.2⟩
  rcases h.1 with hc | ⟨hc, _⟩
  · exact isRuleChar_of_isSmall c hc
  · have hunderscore : (c == '_') = true := hc
    rw [isRuleChar, hunderscore]
    rfl

theorem isTerminalChar_of_mem {w : List Char} (h : IsRun isUnderscore isLarge isTerminalChar w) :
    ∀ c ∈ w, isTerminalChar c = true := by
  obtain ⟨c, tl, rfl⟩ := List.exists_cons_of_ne_nil h.ne_nil
  refine List.forall_mem_cons.mpr ⟨?_, h.2⟩
  rcases h.1 with hc | ⟨hc, _⟩
  · exact isTerminalChar_of_isLarge c hc
  · have hunderscore : (c == '_') = true := hc
    rw [isTerminalChar, hunderscore]
    rfl

/-- A name does not go on in another line. -/
theorem Name.newline_not_mem (x : Name) : '\n' ∉ x.lexeme.text := by
  intro h
  cases x with
  | rule x => exact absurd (isRuleChar_of_mem x.spells _ h) (by decide)
  | terminal x => exact absurd (isTerminalChar_of_mem x.spells _ h) (by decide)

theorem Name.withoutSigns_token (x : Name) : x.lexeme.token.withoutSigns = x.lexeme.text := by
  have hsign : ∀ c ∈ x.lexeme.text, ¬ (c == '?' || c == '!') = true := by
    intro c hc
    rw [Bool.or_eq_true, beq_iff_eq, beq_iff_eq]
    rintro (rfl | rfl)
    all_goals
      cases x with
      | rule x => exact absurd (isRuleChar_of_mem x.spells _ hc) (by decide)
      | terminal x => exact absurd (isTerminalChar_of_mem x.spells _ hc) (by decide)
  rw [Token.withoutSigns, Lexeme.token, String.toList_ofList]
  cases htext : x.lexeme.text with
  | nil => rfl
  | cons c cs => exact List.dropWhile_cons_of_neg (hsign c (by simp [htext]))

theorem Name.node_eq (x : Name) : x.node = .token x.lexeme.token := by
  cases x <;> rfl

theorem Name.contains_range (x : Name) (h : Nested (Extent.Covers outer) x.node) :
    (Range.ofExtent outer).contains (x.lexeme.token.range true) = true := by
  rw [x.node_eq] at h
  obtain ⟨e, hstands, he⟩ := (nested_iff.mp h).1.token _ rfl nofun
  apply Range.contains_token he hstands
  rw [Lexeme.token, String.toList_ofList]
  exact x.newline_not_mem

mutual

theorem Value.nested_uses : ∀ v : Value, Nested (Extent.Covers outer) v.node →
    ∀ x ∈ v.uses, Nested (Extent.Covers outer) x.node
  | .name x, h => fun y hy => List.mem_singleton.mp hy ▸ h
  | .string _, _ | .regexp _, _ | .range .., _ => nofun
  | .usage _ rule arguments, h => by
    refine List.forall_mem_cons.mpr ⟨h.of_mem_parts List.mem_cons_self, ?_⟩
    exact Values.nested_uses arguments fun m hm => h.of_mem_parts (List.mem_cons_of_mem _ hm)

theorem Values.nested_uses : ∀ vs : Values, (∀ m ∈ vs.nodes, Nested (Extent.Covers outer) m) →
    ∀ x ∈ vs.uses, Nested (Extent.Covers outer) x.node
  | .one v, h => Value.nested_uses v (h _ List.mem_cons_self)
  | .cons v rest, h => by
    obtain ⟨hv, hrest⟩ := List.forall_mem_cons.mp h
    exact List.forall_mem_append.mpr ⟨Value.nested_uses v hv, Values.nested_uses rest hrest⟩

theorem Atom.nested_uses : ∀ a : Atom, Nested (Extent.Covers outer) a.node →
    ∀ x ∈ a.uses, Nested (Extent.Covers outer) x.node
  | .value v, h => Value.nested_uses v h
  | .group _, _ => nofun
  | .maybe _ body, h => Alternatives.nested_uses body fun _ hm => h.of_mem_parts hm

theorem Expr.nested_uses : ∀ x : Expr, Nested (Extent.Covers outer) x.node →
    ∀ y ∈ x.uses, Nested (Extent.Covers outer) y.node
  | .mk _ atom _, h => Atom.nested_uses atom (h.of_mem_parts List.mem_cons_self)

theorem Exprs.nested_uses : ∀ xs : Exprs, (∀ m ∈ xs.nodes, Nested (Extent.Covers outer) m) →
    ∀ y ∈ xs.uses, Nested (Extent.Covers outer) y.node
  | .nil, _ => nofun
  | .cons x rest, h => by
    obtain ⟨hx, hrest⟩ := List.forall_mem_cons.mp h
    exact List.forall_mem_append.mpr ⟨Expr.nested_uses x hx, Exprs.nested_uses rest hrest⟩

theorem Alternative.nested_uses : ∀ a : Alternative, Nested (Extent.Covers outer) a.resolved →
    ∀ y ∈ a.uses, Nested (Extent.Covers outer) y.node
  | .plain _ body, h =>
    Exprs.nested_uses body fun _ hm => h.of_mem_parts (List.mem_cons_of_mem _ hm)
  | .named _ _ body name, h => by
    have hbody := Exprs.nested_uses body fun _ hm => h.of_mem_parts (List.mem_cons_of_mem _ hm)
    refine List.forall_mem_append.mpr ⟨hbody, ?_⟩
    exact List.forall_mem_singleton.mpr (h.of_mem_parts List.mem_cons_self)

theorem Alternatives.nested_uses : ∀ as : Alternatives,
    (∀ m ∈ as.resolved, Nested (Extent.Covers outer) m) →
    ∀ y ∈ as.uses, Nested (Extent.Covers outer) y.node
  | .one a, h => Alternative.nested_uses a (h _ List.mem_cons_self)
  | .cons a rest, h => by
    obtain ⟨ha, hrest⟩ := List.forall_mem_cons.mp h
    exact List.forall_mem_append.mpr
      ⟨Alternative.nested_uses a ha, Alternatives.nested_uses rest hrest⟩

end

theorem Definition.nested_uses (d : Definition) (h : Nested (Extent.Covers outer) d.node) :
    ∀ x ∈ d.uses, Nested (Extent.Covers outer) x.node := by
  cases d with
  | rule e signs name parameters priority body =>
    have hname : Nested (Extent.Covers outer) name.node :=
      h.of_mem_parts (by simp [Definition.node, parts])
    have hlist : Nested (Extent.Covers outer) (.list (parameters.map Word.node)) :=
      h.of_mem_parts (by simp [Definition.node, parts])
    have hbody : ∀ m ∈ body.resolved, Nested (Extent.Covers outer) m := fun m hm =>
      h.of_mem_parts (by simp [Definition.node, parts, hm])
    refine List.forall_mem_append.mpr ⟨List.forall_mem_cons.mpr ⟨hname, ?_⟩, body.nested_uses hbody⟩
    intro x hx
    obtain ⟨y, hy, rfl⟩ := List.mem_map.mp hx
    exact hlist.of_mem_parts (List.mem_map_of_mem hy)
  | term e name priority body =>
    have hname : Nested (Extent.Covers outer) name.node := h.of_mem_parts List.mem_cons_self
    have hbody : ∀ m ∈ body.resolved, Nested (Extent.Covers outer) m := fun m hm =>
      h.of_mem_parts (by simp [Definition.node, parts, hm])
    exact List.forall_mem_cons.mpr ⟨hname, body.nested_uses hbody⟩

theorem nested_names (xs : List Name)
    (h : Nested (Extent.Covers outer) (.list (xs.map Name.node))) :
    ∀ x ∈ xs, Nested (Extent.Covers outer) x.node :=
  fun _ hx => h.of_mem_parts (List.mem_map_of_mem hx)

theorem Source.nested_uses {e : Option Extent} (source : Source)
    (h : Nested (Extent.Covers outer) (source.node e)) :
    ∀ x ∈ source.uses, Nested (Extent.Covers outer) x.node := by
  cases source with
  | whole path => exact nested_names [path.last] (h.of_mem_parts (by simp [Source.node, parts]))
  | renamed path name =>
    have hlast := nested_names [path.last] (h.of_mem_parts (by simp [Source.node, parts]))
    have hname : Nested (Extent.Covers outer) name.node :=
      h.of_mem_parts (by simp [Source.node, parts])
    exact List.forall_mem_cons.mpr
      ⟨hlast _ List.mem_cons_self, List.forall_mem_singleton.mpr hname⟩
  | listed path first more =>
    exact nested_names (first :: more) (h.of_mem_parts (by simp [Source.node, parts]))

/-- All names used in a statement stand where it stands. -/
theorem Statement.nested_uses (s : Statement) (h : Nested (Extent.Covers outer) s.node) :
    ∀ x ∈ s.uses, Nested (Extent.Covers outer) x.node := by
  cases s with
  | definition d => exact d.nested_uses h
  | override e d => exact d.nested_uses (h.of_mem_parts List.mem_cons_self)
  | extend e d => exact d.nested_uses (h.of_mem_parts List.mem_cons_self)
  | ignore e body => exact body.nested_uses fun m hm => h.of_mem_parts hm
  | declare e first more =>
    exact fun x hx => h.of_mem_parts (List.mem_map_of_mem (f := Name.node) hx)
  | imports e source => exact source.nested_uses h
  | comment e x => nofun

/-- A statement lies inside its own extent. -/
theorem Statement.nested_self (s : Statement) (h : Nested (Extent.Covers outer) s.node) :
    Nested (Extent.Covers s.node.extent) s.node := by
  obtain ⟨hallowed, hparts⟩ := nested_iff.mp h
  have hkind : (∀ P, s.node.room P = Extent.Covers s.node.extent) ∧ s.node.isToken = false := by
    cases s
    case definition d => cases d <;> exact ⟨fun _ => rfl, rfl⟩
    case imports e source => cases source <;> exact ⟨fun _ => rfl, rfl⟩
    all_goals exact ⟨fun _ => rfl, rfl⟩
  obtain ⟨hroom, htoken⟩ := hkind
  rw [hroom] at hparts
  refine nested_part (hroom _) rfl htoken ?_ hparts
  intro x hx
  rw [hx]
  exact Extent.covers_self (hallowed.part x hx).isProper

/-! ## Definitions in statements -/

theorem isNested_of_childless {d : GrammarServer.Definition}
    (hselection : d.range.contains d.selection = true) (hchildren : d.children = some []) :
    d.IsNested := by
  refine .intro hselection ?_ ?_ <;> rw [hchildren] <;> nofun

/-- What has a name in it covers some text. -/
theorem Name.exists_extent (x : Name) (h : Nested (Extent.Covers outer) x.node) :
    ∃ e, outer = some e := by
  rw [x.node_eq] at h
  obtain ⟨e, _, he⟩ := (nested_iff.mp h).1.token _ rfl nofun
  cases outer with
  | none => exact he.elim
  | some o => exact ⟨o, rfl⟩

/-- What has a name in it contains its own range. -/
theorem Name.contains_self (x : Name) (h : ∀ e, outer = some e → Extent.Covers outer e)
    (hx : Nested (Extent.Covers outer) x.node) :
    (Range.ofExtent outer).contains (.ofExtent outer) = true := by
  obtain ⟨e, rfl⟩ := x.exists_extent hx
  exact Range.contains_ofExtent (h e rfl)

/-- An alias stands in the expansion that it names. -/
theorem Alternatives.nested_aliases : ∀ as : Alternatives,
    (∀ m ∈ as.resolved, Nested (Extent.Covers outer) m) → ∀ a ∈ as.aliases,
      Nested (Extent.Covers a.1) a.2.node ∧ ∀ e, a.1 = some e → Extent.Covers outer e
  | .one (.plain ..), _ => nofun
  | .one (.named e inner body name), h => by
    obtain ⟨hallowed, hparts⟩ := nested_iff.mp (h _ List.mem_cons_self)
    exact List.forall_mem_singleton.mpr ⟨hparts _ List.mem_cons_self, hallowed.part⟩
  | .cons (.plain ..) rest, h =>
    nested_aliases rest (List.forall_mem_cons.mp h).2
  | .cons (.named e inner body name) rest, h => by
    obtain ⟨hallowed, hparts⟩ := nested_iff.mp (h _ List.mem_cons_self)
    exact List.forall_mem_cons.mpr ⟨⟨hparts _ List.mem_cons_self, hallowed.part⟩,
      nested_aliases rest (List.forall_mem_cons.mp h).2⟩

namespace Definition

variable {d : Definition} (h : Nested (Extent.Covers d.node.extent) d.node)

include h

theorem isNested_main : d.main.IsNested := by
  have huses := d.nested_uses h
  cases d with
  | rule e signs name parameters priority body =>
    have hname := huses (.rule name) List.mem_cons_self
    have hself := (Name.rule name).contains_self (nested_iff.mp h).1.part hname
    have hparameter : ∀ x ∈ parameters, Nested (Extent.Covers e) x.node := fun x hx =>
      huses (.rule x) (by simp [Definition.uses, hx])
    refine .intro ((Name.rule name).contains_range hname) ?_ ?_
    · intro c hc
      obtain ⟨x, hx, rfl⟩ := List.mem_map.mp hc
      exact hself
    · intro c hc
      obtain ⟨x, hx, rfl⟩ := List.mem_map.mp hc
      exact isNested_of_childless ((Name.rule x).contains_range (hparameter x hx)) rfl
  | term e name priority body =>
    have hname := huses (.terminal name) List.mem_cons_self
    exact isNested_of_childless ((Name.terminal name).contains_range hname) rfl

theorem nested_body : ∀ m ∈ d.body.resolved, Nested (Extent.Covers d.node.extent) m := by
  intro m hm
  apply h.of_mem_parts
  cases d <;> simp only [Definition.body] at hm <;> simp [Definition.node, parts, hm]

/-- An alias is nested, and lies inside the definition that it stands in. -/
theorem isNested_alias : ∀ a ∈ d.body.aliases, (d.aliasDefinition a).IsNested ∧
    d.main.range.contains (d.aliasDefinition a).range = true := by
  intro a ha
  obtain ⟨hname, hcovers⟩ := d.body.nested_aliases (nested_body h) a ha
  obtain ⟨e, he⟩ := (Name.rule a.2).exists_extent hname
  have hrange : d.main.range = .ofExtent d.node.extent := by cases d <;> rfl
  refine ⟨isNested_of_childless ((Name.rule a.2).contains_range hname) rfl, ?_⟩
  rw [hrange, aliasDefinition, he]
  exact Range.contains_ofExtent (hcovers e he)

end Definition

theorem Name.isNested_directed {x : Name} {e : Option Extent}
    (h : Nested (Extent.Covers e) x.node) (directive : Directive) (statement : Node) :
    (x.directed directive statement (.ofExtent e)).IsNested :=
  isNested_of_childless (x.contains_range h) rfl

/-- The definitions of a statement that lies inside its own extent are nested. -/
theorem Statement.isNested_definitions {s : Statement}
    (h : Nested (Extent.Covers s.node.extent) s.node) :
    ∀ d ∈ s.definitions, d.IsNested ∧ ∀ name, d.container = some name →
      ∃ o ∈ s.definitions, o.name = name ∧ o.container = none ∧
        o.range.contains d.range = true := by
  have huses := s.nested_uses h
  refine s.forall_mem_definitions ?_ ?_ ?_
  · rintro d rfl
    refine ⟨⟨Definition.isNested_main h, by cases d <;> nofun⟩, ?_⟩
    intro a ha
    obtain ⟨hnested, hrange⟩ := Definition.isNested_alias h a ha
    refine ⟨hnested, ?_⟩
    rintro name ⟨⟩
    exact ⟨d.main, List.mem_cons_self, by cases d <;> rfl, by cases d <;> rfl, hrange⟩
  · exact fun directive x hx => ⟨Name.isNested_directed (huses x hx) _ _, nofun⟩
  · rintro e path name rfl
    have hlast := huses path.last List.mem_cons_self
    have hname := huses name (List.mem_cons_of_mem _ List.mem_cons_self)
    have hself := name.contains_self (nested_iff.mp h).1.part hname
    refine List.forall_mem_singleton.mpr ⟨.intro (name.contains_range hname) ?_ ?_, nofun⟩
    · exact List.forall_mem_singleton.mpr hself
    · exact List.forall_mem_singleton.mpr
        (isNested_of_childless (path.last.contains_range hlast) rfl)

/-! ## Files -/

/-- The file that is built from a source has typed statements that tell what the derivation tells,
each inside its own extent and each before the next. -/
theorem exists_conveyed_statements {source : String} {d : Derivation} {file : Node}
    (h : (Parse.recovering source).result = .ok d) (hbuild : d.tree.build = .ok file) :
    ∃ ss : List Statement, file.statements = ss.map Statement.node ∧ Conveys d ss ∧
      (∀ s ∈ ss, Nested (Extent.Covers s.node.extent) s.node) ∧
      ss.Pairwise fun s s' => Derivation.Before s.node s'.node := by
  obtain ⟨hvalid, hstart, _⟩ := Parse.valid_of_recovering h
  have hordered := Parse.ordered_of_recovering h
  obtain ⟨e, ss, rfl, _, hconveys⟩ :=
    exists_statements_conveyed hvalid hstart (isSpelled_of_recovering h) hbuild
  have hbuilds := (Derivation.build_tree_eq_ok hstart).mp hbuild
  have hfile := d.nested_of_builds hbuilds hordered hordered.covers_span (by rintro _ ⟨⟩) _
    List.mem_cons_self
  refine ⟨ss, rfl, hconveys, ?_, ?_⟩
  · intro s hs
    exact s.nested_self (hfile.of_mem_parts (List.mem_map_of_mem hs))
  · cases d with
    | leaf x => cases hstart
    | node q ds =>
      obtain ⟨_, hspell, _⟩ := hvalid
      have hleft : q.left = .start := Symbol.phrase.inj hstart
      obtain ⟨parts, n, hparts, hn, hfile⟩ := (Derivation.builds_node (c := .form .file) hspell
        (by rw [hleft]; rfl) (by rw [hleft]; rintro ⟨⟩) (by rw [hleft]; rfl)).mp hbuilds
      have hpairwise := Derivation.pairwise_of_buildsAll ds hparts hordered
      obtain rfl := Except.ok.inj hn
      obtain ⟨_, hstatements⟩ := Node.file.inj (List.cons.inj hfile).1
      have hnodes := hpairwise.sublist (List.filter_sublist (p := Node.isPart))
      rw [← hstatements] at hnodes
      exact List.pairwise_map.mp hnodes

theorem exists_placed_statements {source : String} {d : Derivation} {file : Node}
    (h : (Parse.recovering source).result = .ok d) (hbuild : d.tree.build = .ok file) :
    ∃ ss : List Statement, file.statements = ss.map Statement.node ∧
      (∀ s ∈ ss, Nested (Extent.Covers s.node.extent) s.node) ∧
      ss.Pairwise fun s s' => Derivation.Before s.node s'.node := by
  obtain ⟨ss, hss, _, hnested, hpairwise⟩ := exists_conveyed_statements h hbuild
  exact ⟨ss, hss, hnested, hpairwise⟩

end Typed

/-- In the range of a definition lie its name, its children, nested in the same way, and the aliases
in it; in the range of a statement lie its references. -/
theorem SymbolTable.ranges_nest {source : String} {d : Derivation} {file : Node}
    (hparse : Parse.strict source = .ok d ∨ (Parse.recovering source).result = .ok d)
    (hbuild : d.tree.build = .ok file) :
    ∃ defined collected, empty.collectDefinitions file.statements = .ok defined ∧
      defined.collectReferences file.statements = .ok collected ∧
      (∀ x ∈ collected.definitions.values, x.IsNested ∧ ∀ name, x.container = some name →
        ∃ y ∈ collected.definitions.values, y.name = name ∧ y.container = none ∧
          y.node = x.node ∧ y.range.contains x.range = true) ∧
      ∀ r ∈ collected.references.values, r.node ∈ file.statements ∧
        (∃ rs, Node.references .absent r.node = .ok rs ∧ r ∈ rs) ∧
        (Range.ofExtent r.node.extent).contains r.range = true := by
  have hrecovering : (Parse.recovering source).result = .ok d :=
    hparse.elim Parse.recovering_of_strict id
  obtain ⟨ss, hss, hnested, _⟩ := Typed.exists_placed_statements hrecovering hbuild
  rw [hss]
  refine ⟨_, _, Typed.collectDefinitions_nodes ss, Typed.collectReferences_nodes ss _ rfl, ?_, ?_⟩
  · intro x hx
    obtain ⟨s, hs, hxs⟩ := List.mem_flatMap.mp ((Catalog.mem_values_group _ _).mp hx)
    obtain ⟨hx, hcontainer⟩ := Typed.Statement.isNested_definitions (hnested s hs) x hxs
    refine ⟨hx, ?_⟩
    intro name hname
    obtain ⟨y, hys, hy, hitself, hrange⟩ := hcontainer name hname
    have hvalue := (Catalog.mem_values_group Definition.name _).mpr
      (List.mem_flatMap.mpr ⟨s, hs, hys⟩)
    refine ⟨y, hvalue, hy, hitself, ?_, hrange⟩
    rw [s.node_definitions y hys, s.node_definitions x hxs]
  · intro r hr
    obtain ⟨s, hs, hrs⟩ := List.mem_flatMap.mp ((Catalog.mem_values_group _ _).mp hr)
    obtain ⟨x, hx, rfl⟩ := List.mem_map.mp hrs
    exact ⟨List.mem_map_of_mem hs, ⟨_, s.references_node, hrs⟩,
      x.contains_range (s.nested_uses (hnested s hs) x hx)⟩

open GrammarServer.Derivation in
/-- The derivation of `a{b}: b -> c`, a template whose parameter and alias are definitions too. -/
def namedTemplate : Derivation :=
  ofItems
    (ofRule ⟨0, 1, 1⟩ "a" (ofParameter ⟨1, 1, 2⟩ ⟨2, 1, 3⟩ "b" ⟨3, 1, 4⟩) [] ⟨4, 1, 5⟩
      (ofNamed (ofValue .nonterminal .ruleName ⟨6, 1, 7⟩ "b") ⟨8, 1, 9⟩ ⟨11, 1, 12⟩ "c"))
    []

theorem SymbolTable.ranges_nest_namedTemplate :
    Parse.strict "a\x7bb\x7d: b -> c" = .ok namedTemplate ∧ ∃ file defined collected,
      namedTemplate.tree.build = .ok file ∧
      empty.collectDefinitions file.statements = .ok defined ∧
      defined.collectReferences file.statements = .ok collected ∧
      (∀ x ∈ collected.definitions.values, x.IsNested) ∧
      ∀ r ∈ collected.references.values,
        (Range.ofExtent r.node.extent).contains r.range = true := by
  have hparse : Parse.strict "a\x7bb\x7d: b -> c" = .ok namedTemplate :=
    Parse.strict_of_settled (by decide) rfl (by decide) (by decide +kernel)
  obtain ⟨file, hbuild⟩ : ∃ file, namedTemplate.tree.build = .ok file := by
    have hbuilt : namedTemplate.tree.build.isOk = true := by decide +kernel
    cases hbuild : namedTemplate.tree.build with
    | ok file => exact ⟨file, rfl⟩
    | error fault =>
      rw [hbuild] at hbuilt
      cases hbuilt
  obtain ⟨defined, collected, hdefined, hcollected, hdefinitions, hreferences⟩ :=
    ranges_nest (Or.inl hparse) hbuild
  exact ⟨hparse, file, defined, collected, hbuild, hdefined, hcollected,
    fun x hx => (hdefinitions x hx).1, fun r hr => (hreferences r hr).2.2⟩

end GrammarServer
