import GrammarServer.Proofs.Symbol.Checked
import GrammarServer.Proofs.Symbol.Nesting

/-!
# Names without a definition

A name that no definition has is reported where it is used, except in rules. There the check asks
whether the use lies inside the first definition of the rule's name. In the rule that is this
definition every use does, so nothing is reported in it; in a later rule of the same name no use
does, and it is only asked whether the first one has a parameter of the name used.
-/
namespace GrammarServer

def Reference.parameters (r : Reference) : List String :=
  match r.node with
  | .rule _ _ _ (.list parameters) _ _ => parameters.map Node.toText
  | _ => []

/-- The names that the import in which a name is used gives another name. -/
def Reference.sources (r : Reference) : List String :=
  match r.node with
  | .imports _ _ (.list symbols) given => if given.isPresent then symbols.map Node.toText else []
  | _ => []

/-- The rule in which a name is used is the first definition of its own name, or the first
definition of that name has a child of the name used. -/
def Reference.IsHidden (t : SymbolTable) (r : Reference) : Prop :=
  ∃ e modifiers name parameters priority expansions first rest,
    r.node = .rule e modifiers name parameters priority expansions ∧
    t.get? name.toText = some (first :: rest) ∧
    (first.node = r.node ∨ ∃ c ∈ first.children.getD [], c.name = r.name)

/-! ## Ranges apart from one another -/

namespace Range

theorem contains_trans {a b c : Range} (h : a.contains b = true) (h' : b.contains c = true) :
    a.contains c = true := by
  simp only [contains_iff, containsPosition_iff] at *
  obtain ⟨⟨hstart, _⟩, _, hstop⟩ := h
  obtain ⟨⟨hfirst, hfirst'⟩, hlast, hlast'⟩ := h'
  exact ⟨⟨hstart.trans hfirst, hfirst'.trans hstop⟩, hstart.trans hlast, hlast'.trans hstop⟩

/-- What is not empty does not lie in two extents of which one ends before the other starts. -/
theorem not_contains_of_precedes {o : Option Extent} {f : Extent}
    (h : ∀ e, o = some e → e.Precedes f) {r : Range} (hline : r.stop.line = r.start.line)
    (hcolumn : r.start.column < r.stop.column) (hf : (ofExtent (some f)).contains r = true) :
    (ofExtent o).contains r = false := by
  rw [← Bool.not_eq_true]
  intro hcontains
  simp only [contains_iff, containsPosition_iff] at hcontains hf
  cases o with
  | none =>
    simp only [ofExtent, zero, NotAfter] at hcontains
    omega
  | some e =>
    have hprecedes := h e rfl
    simp only [ofExtent, Extent.Precedes, NotAfter] at hcontains hf hprecedes
    omega

end Range

namespace Typed

open Terminal
open Node (Nested)

theorem Name.width_pos (x : Name) : 0 < x.lexeme.token.withoutSigns.length := by
  rw [x.withoutSigns_token, List.length_pos_iff]
  cases x <;> exact Word.text_ne_nil _

/-- All definitions of a statement lie inside its extent. -/
theorem Statement.contains_definitions {s : Statement}
    (h : Nested (Extent.Covers s.node.extent) s.node) :
    ∀ d ∈ s.definitions, (Range.ofExtent s.node.extent).contains d.range = true := by
  have huses := s.nested_uses h
  have hself : ∀ x ∈ s.uses,
      (Range.ofExtent s.node.extent).contains (.ofExtent s.node.extent) = true := fun x hx =>
    x.contains_self (Node.nested_iff.mp h).1.part (huses x hx)
  refine s.forall_mem_definitions ?_ ?_ ?_
  · rintro d rfl
    have hrange : d.main.range = .ofExtent d.node.extent := by cases d <;> rfl
    obtain ⟨x, hx⟩ : ∃ x, x ∈ d.uses := by cases d <;> exact ⟨_, List.mem_cons_self⟩
    have hmain : (Range.ofExtent d.node.extent).contains d.main.range = true := by
      rw [hrange]
      exact hself x hx
    exact ⟨hmain, fun a ha => Range.contains_trans hmain (Definition.isNested_alias h a ha).2⟩
  · exact fun _ x hx => hself x hx
  · rintro e path name rfl
    exact List.forall_mem_singleton.mpr (hself name (List.mem_cons_of_mem _ List.mem_cons_self))

/-- Only rules and imports under another name have a name of their own. -/
theorem Statement.owner_cases (s : Statement) {r : Reference} (hr : r.node = s.node)
    {owner : String} (h : r.owner = some owner) :
    (∃ e signs name parameters priority body,
      s = .definition (.rule e signs name parameters priority body) ∧
        owner = String.ofList name.text) ∨
    ∃ e path name, s = .imports e (.renamed path name) ∧ owner = String.ofList name.text := by
  rw [Reference.owner, hr] at h
  cases s with
  | definition d =>
    cases d with
    | rule e signs name parameters priority body =>
      exact Or.inl ⟨e, signs, name, parameters, priority, body, rfl, (Option.some.inj h).symm⟩
    | term e name priority body => cases h
  | override | extend | ignore | comment | declare => cases h
  | imports e source =>
    cases source with
    | whole path => cases h
    | listed path first more => cases h
    | renamed path name =>
      simp only [Statement.node, Source.node, name.isPresent_node, if_true, name.toText_node,
        Option.some.injEq] at h
      exact Or.inr ⟨e, path, name, rfl, h.symm⟩

/-- A statement that has a name of its own defines it first, over its whole extent. -/
theorem Statement.exists_owner (s : Statement) {r : Reference} (hr : r.node = s.node)
    {owner : String} (h : r.owner = some owner) : ∃ main rest, s.definitions = main :: rest ∧
      main.name = owner ∧ main.range = .ofExtent s.node.extent := by
  rcases s.owner_cases hr h with ⟨e, signs, name, parameters, priority, body, rfl, rfl⟩ |
    ⟨e, path, name, rfl, rfl⟩
  · exact ⟨_, _, rfl, rfl, rfl⟩
  · exact ⟨_, _, rfl, rfl, rfl⟩

section

variable {ss : List Statement} (hnested : ∀ s ∈ ss, Nested (Extent.Covers s.node.extent) s.node)
  (hpairwise : ss.Pairwise fun s s' => Derivation.Before s.node s'.node)

include hnested hpairwise

/-- The first definition under the name of a statement holds the uses in the statement exactly if
it is the statement's own. -/
theorem contains_first_iff {s : Statement} (hs : s ∈ ss) {x : Name} (hx : x ∈ s.uses)
    {owner : String} (howner : (x.lexeme.token.reference s.node).owner = some owner)
    {first : GrammarServer.Definition}
    (hfirst : (ss.flatMap Statement.definitions).find? (·.name == owner) = some first) :
    first.range.contains (x.lexeme.token.range true) = true ↔ first.node = s.node := by
  have huse := s.nested_uses (hnested s hs) x hx
  have hrange := x.contains_range huse
  obtain ⟨before, after, rfl⟩ := List.append_of_mem hs
  obtain ⟨main, rest, hmain, hname, hwhole⟩ := s.exists_owner rfl howner
  -- Either the statements before this one define its name, or it is the first to do so itself.
  rw [List.flatMap_append, List.flatMap_cons, List.find?_append] at hfirst
  cases hbefore : (before.flatMap Statement.definitions).find? (·.name == owner) with
  | none =>
    rw [hbefore, hmain, List.cons_append, List.find?_cons_of_pos (by simp [hname])] at hfirst
    obtain rfl : main = first := Option.some.inj hfirst
    rw [hwhole]
    exact iff_of_true hrange (s.node_definitions main (by simp [hmain]))
  | some d =>
    rw [hbefore] at hfirst
    obtain rfl : d = first := Option.some.inj hfirst
    obtain ⟨s', hs', hd⟩ := List.mem_flatMap.mp (List.mem_of_find?_eq_some hbefore)
    have hwithin := Statement.contains_definitions (hnested s' (by simp [hs'])) d hd
    have hnode := s'.node_definitions d hd
    have hprecedes : Derivation.Before s'.node s.node :=
      (List.pairwise_append.mp hpairwise).2.2 s' hs' s List.mem_cons_self
    obtain ⟨f, hf⟩ := x.exists_extent huse
    -- A name is not empty, so it cannot stand at the border of the two statements and in both.
    have hwidth := x.width_pos
    have hapart : (Range.ofExtent s'.node.extent).contains (x.lexeme.token.range true) = false := by
      apply Range.not_contains_of_precedes (fun e he => hprecedes e f he hf) rfl
      · simp only [Token.range, if_true]
        omega
      · rw [← hf]
        exact hrange
    refine iff_of_false ?_ ?_
    · intro hcontains
      rw [Range.contains_trans hwithin hcontains] at hapart
      cases hapart
    · intro hsame
      rw [← hnode, hsame, hrange] at hapart
      cases hapart

/-- A use is known in its statement exactly if the first definition under the statement's name is
the statement's own, or has a child of the name used. -/
theorem isLocal_iff {s : Statement} (hs : s ∈ ss) {x : Name} (hx : x ∈ s.uses) {r : Reference}
    (hr : r = x.lexeme.token.reference s.node) :
    Check.isLocal (ss.flatMap Statement.definitions) r.name r = true ↔
      ∃ owner first, r.owner = some owner ∧
        (ss.flatMap Statement.definitions).find? (·.name == owner) = some first ∧
        (first.node = r.node ∨ ∃ c ∈ first.children.getD [], c.name = r.name) := by
  simp only [Check.isLocal, Option.any_eq_true, Option.bind_eq_some_iff, Bool.or_eq_true,
    List.any_eq_true, beq_iff_eq]
  constructor
  · rintro ⟨first, ⟨owner, howner, hfirst⟩, hlocal⟩
    refine ⟨owner, first, howner, hfirst, hlocal.imp_left ?_⟩
    subst hr
    exact (contains_first_iff hnested hpairwise hs hx howner hfirst).mp
  · rintro ⟨owner, first, howner, hfirst, hlocal⟩
    refine ⟨first, ⟨owner, howner, hfirst⟩, hlocal.imp_left ?_⟩
    subst hr
    exact (contains_first_iff hnested hpairwise hs hx howner hfirst).mpr

end

/-- Only in a rule is a name used that the statement neither defines nor imports under another
name, if the statement has a name of its own. -/
theorem Statement.exists_rule (s : Statement) {x : Name} (hx : x ∈ s.uses) {r : Reference}
    (hr : r = x.lexeme.token.reference s.node) (hundefined : ∀ d ∈ s.definitions, d.name ≠ r.name)
    (hsource : r.name ∉ r.sources) {owner : String} (howner : r.owner = some owner) :
    ∃ e modifiers name parameters priority expansions,
      r.node = .rule e modifiers name parameters priority expansions ∧ name.toText = owner := by
  have hname : r.name = String.ofList x.text := hr ▸ x.reference_name s.node
  have hnode : r.node = s.node := hr ▸ rfl
  rcases s.owner_cases hnode howner with ⟨e, signs, name, parameters, priority, body, rfl, rfl⟩ |
    ⟨e, path, name, rfl, rfl⟩
  · exact ⟨_, _, _, _, _, _, hnode, rfl⟩
  · exfalso
    rcases List.mem_cons.mp hx with rfl | hx
    · apply hsource
      simp only [Reference.sources, hnode, Statement.node, Source.node, name.isPresent_node,
        if_true, List.map_cons, List.map_nil, Name.toText_node, hname]
      exact List.mem_singleton_self _
    · obtain rfl := List.mem_singleton.mp hx
      exact hundefined _ List.mem_cons_self hname.symm

/-- A use of a name that is neither defined nor imported under another name is known in its
statement exactly if it is hidden. -/
theorem isLocal_iff_isHidden {ss : List Statement}
    (hnested : ∀ s ∈ ss, Nested (Extent.Covers s.node.extent) s.node)
    (hpairwise : ss.Pairwise fun s s' => Derivation.Before s.node s'.node)
    {s : Statement} (hs : s ∈ ss) {x : Name} (hx : x ∈ s.uses) {r : Reference}
    (hr : r = x.lexeme.token.reference s.node)
    (hundefined : ∀ d ∈ ss.flatMap Statement.definitions, d.name ≠ r.name)
    (hsource : r.name ∉ r.sources) :
    Check.isLocal (ss.flatMap Statement.definitions) r.name r = true ↔ r.IsHidden (table ss) := by
  rw [isLocal_iff hnested hpairwise hs hx hr]
  constructor
  · rintro ⟨owner, first, howner, hfirst, hlocal⟩
    have hstatement : ∀ d ∈ s.definitions, d.name ≠ r.name := fun d hd =>
      hundefined d (List.mem_flatMap.mpr ⟨s, hs, hd⟩)
    obtain ⟨e, modifiers, name, parameters, priority, expansions, hnode, rfl⟩ :=
      s.exists_rule hx hr hstatement hsource howner
    obtain ⟨rest, hrest⟩ := (Catalog.exists_get?_group_iff _ _ _ _).mpr hfirst
    exact ⟨e, modifiers, name, parameters, priority, expansions, first, rest, hnode, hrest, hlocal⟩
  · rintro ⟨e, modifiers, name, parameters, priority, expansions, first, rest, hnode, hrest, hlocal⟩
    have howner : r.owner = some name.toText := by rw [Reference.owner, hnode]
    exact ⟨_, first, howner, (Catalog.exists_get?_group_iff _ _ _ _).mp ⟨rest, hrest⟩, hlocal⟩

end Typed

/-- A use of a name without a definition, other than the name that an import replaces, is recorded
as an error exactly if the rule in which it stands does not hide it. -/
theorem SymbolTable.undefined_recorded_iff {source : String} {d : Derivation} {file : Node}
    (hparse : Parse.strict source = .ok d ∨ (Parse.recovering source).result = .ok d)
    (hbuild : d.tree.build = .ok file) :
    ∃ defined collected checked, empty.collectDefinitions file.statements = .ok defined ∧
      defined.collectReferences file.statements = .ok collected ∧
      collected.validateReferences = .ok checked ∧
      ∀ r ∈ collected.references.values,
        (∀ x ∈ collected.definitions.values, x.name ≠ r.name) → r.name ∉ r.sources →
        ∀ e, (e, r) ∈ checked.referenceErrors ↔
          e = ⟨.undefinedReference, r.name, r.position⟩ ∧ ¬ r.IsHidden collected := by
  have hrecovering : (Parse.recovering source).result = .ok d :=
    hparse.elim Parse.recovering_of_strict id
  obtain ⟨ss, hss, hnested, hpairwise⟩ := Typed.exists_placed_statements hrecovering hbuild
  rw [hss]
  refine ⟨_, _, _, Typed.collectDefinitions_nodes ss, Typed.collectReferences_nodes ss _ rfl,
    validateReferences_eq_ok rfl (Typed.isNamed_flatMap ss), ?_⟩
  intro r hr hundefined hsource e
  have hdefinitions : ∀ d ∈ ss.flatMap Typed.Statement.definitions, d.name ≠ r.name :=
    fun d hd => hundefined d ((Catalog.mem_values_group _ _).mpr hd)
  have hmem := (Catalog.mem_values_group _ _).mp hr
  obtain ⟨s, hs, hrs⟩ := List.mem_flatMap.mp hmem
  obtain ⟨x, hx, hrx⟩ := List.mem_map.mp hrs
  have hhidden := Typed.isLocal_iff_isHidden hnested hpairwise hs hx hrx.symm hdefinitions hsource
  refine (Check.mem_undefinedUses_group _ _ e r).trans ?_
  rw [← Bool.not_eq_true, hhidden]
  exact ⟨fun ⟨_, _, hlocal, he⟩ => ⟨he, hlocal⟩,
    fun ⟨he, hlocal⟩ => ⟨hmem, hdefinitions, hlocal, he⟩⟩

def SymbolTable.ofDerivation (d : Derivation) : Except Fault (SymbolTable × SymbolTable) := do
  let file ← d.tree.build
  let defined ← empty.collectDefinitions file.statements
  let collected ← defined.collectReferences file.statements
  let checked ← collected.validateReferences
  return (collected, checked)

theorem SymbolTable.exists_of_ofDerivation {d : Derivation}
    {view : SymbolTable × SymbolTable → Bool} (h : (ofDerivation d).toOption.any view = true) :
    ∃ file defined collected checked, d.tree.build = .ok file ∧
      empty.collectDefinitions file.statements = .ok defined ∧
      defined.collectReferences file.statements = .ok collected ∧
      collected.validateReferences = .ok checked ∧ view (collected, checked) = true := by
  obtain ⟨p, hp, hview⟩ := (Option.any_eq_true _ _).mp h
  rw [ofDerivation] at hp
  obtain ⟨file, hbuild, hp⟩ := Typed.exists_of_toOption_bind hp
  obtain ⟨defined, hdefined, hp⟩ := Typed.exists_of_toOption_bind hp
  obtain ⟨collected, hcollected, hp⟩ := Typed.exists_of_toOption_bind hp
  obtain ⟨checked, hchecked, hp⟩ := Typed.exists_of_toOption_bind hp
  obtain rfl : (collected, checked) = p := Option.some.inj hp
  exact ⟨file, defined, collected, checked, hbuild, hdefined, hcollected, hchecked, hview⟩

open GrammarServer.Derivation in
/-- The derivation of `A: B`, a terminal that uses another. -/
def terminalUse : Derivation :=
  ofItems
    (ofParts .term [ofWord .terminalName ⟨0, 1, 1⟩ "A", ofWord .colon ⟨1, 1, 2⟩ ":",
      ofAlternative [ofValue .terminal .terminalName ⟨3, 1, 4⟩ "B"]])
    []

/-- A name that is used in a terminal is reported. -/
theorem SymbolTable.undefined_recorded_iff_terminalUse :
    Parse.strict "A: B" = .ok terminalUse ∧ ∃ file defined collected checked,
      terminalUse.tree.build = .ok file ∧
      empty.collectDefinitions file.statements = .ok defined ∧
      defined.collectReferences file.statements = .ok collected ∧
      collected.validateReferences = .ok checked ∧
      ∃ r ∈ collected.references.values,
        (⟨.undefinedReference, "B", ⟨0, 3⟩⟩, r) ∈ checked.referenceErrors := by
  have hparse : Parse.strict "A: B" = .ok terminalUse :=
    Parse.strict_of_settled (by decide) rfl (by decide) (by decide +kernel)
  have hview : (ofDerivation terminalUse).toOption.any (fun p =>
      p.1.definitions.values.all (·.name != "B") && p.1.references.values.any fun r =>
        r.name == "B" && r.position == ⟨0, 3⟩ && r.owner.isNone && r.sources.isEmpty) = true := by
    decide +kernel
  obtain ⟨file, _, _, _, hbuild, hdefined, hcollected, _, hview⟩ := exists_of_ofDerivation hview
  obtain ⟨defined, collected, checked, hdefined', hcollected', hchecked, hrecorded⟩ :=
    undefined_recorded_iff (Or.inl hparse) hbuild
  obtain rfl := Except.ok.inj (hdefined.symm.trans hdefined')
  obtain rfl := Except.ok.inj (hcollected.symm.trans hcollected')
  simp only [Bool.and_eq_true, List.all_eq_true, List.any_eq_true, bne_iff_ne, beq_iff_eq,
    Option.isNone_iff_eq_none, List.isEmpty_iff] at hview
  obtain ⟨hundefined, r, hr, ⟨⟨hname, hposition⟩, howner⟩, hsources⟩ := hview
  refine ⟨hparse, file, _, _, checked, hbuild, hdefined, hcollected, hchecked, r, hr, ?_⟩
  refine (hrecorded r hr (hname ▸ hundefined) (by simp [hsources]) _).mpr ⟨?_, ?_⟩
  · rw [hname, hposition]
  · rintro ⟨e, modifiers, name, parameters, priority, expansions, first, rest, hnode, _⟩
    rw [Reference.owner, hnode] at howner
    cases howner

open GrammarServer.Derivation in
/-- The derivation of `a: missing` with the end of its line. -/
def ruleUse : Derivation :=
  ofItems
    (ofRule ⟨0, 1, 1⟩ "a" [] [] ⟨1, 1, 2⟩
      (ofAlternative [ofValue .nonterminal .ruleName ⟨3, 1, 4⟩ "missing"]))
    [ofWord .newline ⟨10, 1, 11⟩ "\n"]

/-- A name that is used in a rule is not reported, although nothing defines it. -/
theorem SymbolTable.unreported_ruleUse :
    Parse.strict "a: missing\n" = .ok ruleUse ∧ ∃ file defined collected checked,
      ruleUse.tree.build = .ok file ∧
      empty.collectDefinitions file.statements = .ok defined ∧
      defined.collectReferences file.statements = .ok collected ∧
      collected.validateReferences = .ok checked ∧ checked.referenceErrors = [] ∧
      ∃ r ∈ collected.references.values, r.name = "missing" ∧
        (∀ x ∈ collected.definitions.values, x.name ≠ r.name) ∧
        r.name ∉ r.parameters ∧ r.name ∉ r.sources := by
  have hview : (ofDerivation ruleUse).toOption.any (fun p =>
      p.2.referenceErrors.isEmpty && p.1.definitions.values.all (·.name != "missing") &&
        p.1.references.values.any fun r =>
          r.name == "missing" && r.parameters.isEmpty && r.sources.isEmpty) = true := by
    decide +kernel
  obtain ⟨file, defined, collected, checked, hbuild, hdefined, hcollected, hchecked, hview⟩ :=
    exists_of_ofDerivation hview
  simp only [Bool.and_eq_true, List.all_eq_true, List.any_eq_true, bne_iff_ne, beq_iff_eq,
    List.isEmpty_iff] at hview
  obtain ⟨⟨hnone, hundefined⟩, r, hr, ⟨hname, hparameters⟩, hsources⟩ := hview
  refine ⟨Parse.strict_of_settled (by decide) rfl (by decide) (by decide +kernel), file, defined,
    collected, checked, hbuild, hdefined, hcollected, hchecked, hnone, r, hr, hname,
    hname ▸ hundefined, by simp [hparameters], by simp [hsources]⟩

end GrammarServer
