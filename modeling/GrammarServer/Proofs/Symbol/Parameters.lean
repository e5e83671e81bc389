import GrammarServer.Proofs.Symbol.Lookup

/-!
# Parameters of templates

A rule may declare parameters, and they may be used inside it without a definition. The check of the
references knows them by the first definition under the rule's name. A rule that overrides or
extends another has no name there, and a rule that is not the first of its name is not looked at, so
the parameters of both can be reported where they are declared and where they are used.
-/
namespace GrammarServer

/-- The parameters that a statement declares: those of a rule, which may stand under a directive. -/
def Node.declaredParameters : Node → List String
  | .rule _ _ _ (.list parameters) _ _
  | .override _ (.rule _ _ _ (.list parameters) _ _)
  | .extend _ (.rule _ _ _ (.list parameters) _ _) => parameters.map toText
  | _ => []

/-- The rule in which a name is used stands under a directive, or the first definition of the rule's
name is another statement's and has no child of the name used. -/
def Reference.IsOverlooked (t : SymbolTable) (r : Reference) : Prop :=
  (∃ e rule, r.node = .override e rule ∨ r.node = .extend e rule) ∨
    ∃ e modifiers name parameters priority expansions first rest,
      r.node = .rule e modifiers name parameters priority expansions ∧
      t.get? name.toText = some (first :: rest) ∧
      first.node ≠ r.node ∧ ∀ c ∈ first.children.getD [], c.name ≠ r.name

namespace Typed

open Node (Nested)

/-- A statement that declares parameters is a rule or stands under a directive, and then it has no
name of its own. -/
theorem Statement.declaring_cases (s : Statement) {r : Reference} (hr : r.node = s.node)
    (h : r.node.declaredParameters ≠ []) :
    ((∃ e rule, r.node = .override e rule ∨ r.node = .extend e rule) ∧ r.owner = none) ∨
      ∃ e modifiers name parameters priority expansions,
        r.node = .rule e modifiers name parameters priority expansions ∧
        r.owner = some name.toText := by
  unfold Reference.owner
  rw [hr] at h ⊢
  cases s with
  | definition d =>
    cases d with
    | rule e signs name parameters priority body => exact Or.inr ⟨_, _, _, _, _, _, rfl, rfl⟩
    | term e name priority body => exact absurd rfl h
  | override e d => exact Or.inl ⟨⟨_, _, Or.inl rfl⟩, rfl⟩
  | extend e d => exact Or.inl ⟨⟨_, _, Or.inr rfl⟩, rfl⟩
  | ignore | declare | comment => exact absurd rfl h
  | imports e source => cases source <;> exact absurd rfl h

/-- A parameter is not known in the rule that declares it exactly if it is overlooked. -/
theorem isLocal_eq_false_iff {ss : List Statement}
    (hnested : ∀ s ∈ ss, Nested (Extent.Covers s.node.extent) s.node)
    (hpairwise : ss.Pairwise fun s s' => Derivation.Before s.node s'.node)
    {r : Reference} (hr : r ∈ ss.flatMap fun s => referencesAt s.node s.uses)
    (hparameter : r.name ∈ r.node.declaredParameters) :
    Check.isLocal (ss.flatMap Statement.definitions) r.name r = false ↔
      r.IsOverlooked (table ss) := by
  obtain ⟨s, hs, hrs⟩ := List.mem_flatMap.mp hr
  obtain ⟨x, hx, hrx⟩ := List.mem_map.mp hrs
  have hnode : r.node = s.node := hrx ▸ rfl
  rw [← Bool.not_eq_true, isLocal_iff hnested hpairwise hs hx hrx.symm]
  rcases s.declaring_cases hnode (List.ne_nil_of_mem hparameter) with ⟨hdirective, hnone⟩ |
    ⟨e, modifiers, name, parameters, priority, expansions, hrule, howner⟩
  · refine iff_of_true ?_ (Or.inl hdirective)
    rintro ⟨owner, first, howner, _⟩
    rw [hnone] at howner
    cases howner
  · obtain ⟨first, rest, hrest, hfirst⟩ := exists_first_of_owner hr howner
    have hlocal : (∃ owner first, r.owner = some owner ∧
        (ss.flatMap Statement.definitions).find? (·.name == owner) = some first ∧
        (first.node = r.node ∨ ∃ c ∈ first.children.getD [], c.name = r.name)) ↔
          first.node = r.node ∨ ∃ c ∈ first.children.getD [], c.name = r.name := by
      refine ⟨?_, fun h => ⟨_, first, howner, hfirst, h⟩⟩
      rintro ⟨owner', first', howner', hfirst', h⟩
      obtain rfl := Option.some.inj (howner.symm.trans howner')
      obtain rfl := Option.some.inj (hfirst.symm.trans hfirst')
      exact h
    rw [hlocal, not_or]
    constructor
    · rintro ⟨hother, hchildless⟩
      exact Or.inr ⟨e, modifiers, name, parameters, priority, expansions, first, rest, hrule, hrest,
        hother, fun c hc hname => hchildless ⟨c, hc, hname⟩⟩
    · rintro (⟨e', rule, h | h⟩ | ⟨e', modifiers', name', parameters', priority', expansions',
        first', rest', hrule', hrest', hother, hchildless⟩)
      · cases hrule.symm.trans h
      · cases hrule.symm.trans h
      · cases hrule.symm.trans hrule'
        obtain ⟨rfl, _⟩ := List.cons.inj (Option.some.inj (hrest.symm.trans hrest'))
        refine ⟨hother, ?_⟩
        rintro ⟨c, hc, hname⟩
        exact hchildless c hc hname

end Typed

/-- The use of a parameter in its own rule is recorded as an error exactly if nothing is defined
under its name and the rule is overlooked. -/
theorem SymbolTable.parameter_recorded_iff {source : String} {d : Derivation} {file : Node}
    (hparse : Parse.strict source = .ok d ∨ (Parse.recovering source).result = .ok d)
    (hbuild : d.tree.build = .ok file) :
    ∃ defined collected checked, empty.collectDefinitions file.statements = .ok defined ∧
      defined.collectReferences file.statements = .ok collected ∧
      collected.validateReferences = .ok checked ∧
      ∀ r ∈ collected.references.values, r.name ∈ r.node.declaredParameters → ∀ e,
        (e, r) ∈ checked.referenceErrors ↔
          e = ⟨.undefinedReference, r.name, r.position⟩ ∧
            (∀ x ∈ collected.definitions.values, x.name ≠ r.name) ∧ r.IsOverlooked collected := by
  have hrecovering : (Parse.recovering source).result = .ok d :=
    hparse.elim Parse.recovering_of_strict id
  obtain ⟨ss, hss, hnested, hpairwise⟩ := Typed.exists_placed_statements hrecovering hbuild
  rw [hss]
  refine ⟨_, Typed.table ss, _, Typed.collectDefinitions_nodes ss,
    Typed.collectReferences_nodes ss _ rfl,
    validateReferences_eq_ok rfl (Typed.isNamed_flatMap ss), ?_⟩
  intro r hr hparameter e
  have hmem := (Catalog.mem_values_group _ _).mp hr
  have hvalues (x : Definition) : x ∈ (Typed.table ss).definitions.values ↔
      x ∈ ss.flatMap Typed.Statement.definitions := Catalog.mem_values_group _ _
  simp only [hvalues]
  rw [← Typed.isLocal_eq_false_iff hnested hpairwise hmem hparameter]
  refine (Check.mem_undefinedUses_group _ _ e r).trans ?_
  constructor
  · rintro ⟨_, hundefined, hlocal, he⟩
    exact ⟨he, hundefined, hlocal⟩
  · rintro ⟨he, hundefined, hlocal⟩
    exact ⟨hmem, hundefined, hlocal, he⟩

/-- The parameter of a template that is the only rule of its name is not reported. -/
theorem SymbolTable.parameter_recorded_iff_namedTemplate :
    Parse.strict "a\x7bb\x7d: b -> c" = .ok namedTemplate ∧ ∃ file defined collected checked,
      namedTemplate.tree.build = .ok file ∧
      empty.collectDefinitions file.statements = .ok defined ∧
      defined.collectReferences file.statements = .ok collected ∧
      collected.validateReferences = .ok checked ∧
      ∃ r ∈ collected.references.values, r.name = "b" ∧ r.name ∈ r.node.declaredParameters ∧
        ∀ e, (e, r) ∉ checked.referenceErrors := by
  have hparse : Parse.strict "a\x7bb\x7d: b -> c" = .ok namedTemplate :=
    Parse.strict_of_settled (by decide) rfl (by decide) (by decide +kernel)
  have hview : (ofDerivation namedTemplate).toOption.any (fun p =>
      p.1.references.values.any fun r =>
        r.name == "b" && r.node.declaredParameters.contains r.name &&
          r.owner.any fun owner => (p.1.get? owner).any fun ds => ds.head?.any fun x =>
            (x.children.getD []).any (·.name == r.name)) = true := by
    decide +kernel
  obtain ⟨file, _, _, _, hbuild, hdefined, hcollected, _, hview⟩ := exists_of_ofDerivation hview
  obtain ⟨defined, collected, checked, hdefined', hcollected', hchecked, hrecorded⟩ :=
    parameter_recorded_iff (Or.inl hparse) hbuild
  obtain rfl := Except.ok.inj (hdefined.symm.trans hdefined')
  obtain rfl := Except.ok.inj (hcollected.symm.trans hcollected')
  simp only [Bool.and_eq_true, List.any_eq_true, Option.any_eq_true, beq_iff_eq,
    List.contains_iff_mem] at hview
  obtain ⟨r, hr, ⟨hname, hparameter⟩, owner, howner, ds, hds, first, hfirst, c, hc, hchild⟩ := hview
  refine ⟨hparse, file, _, _, checked, hbuild, hdefined, hcollected, hchecked, r, hr, hname,
    hparameter, fun e he => ?_⟩
  rcases ((hrecorded r hr hparameter e).mp he).2.2 with ⟨e', rule, h | h⟩ |
    ⟨e', modifiers, name, parameters, priority, expansions, first', rest, hrule, hrest, _,
      hchildless⟩
  · rw [Reference.owner, h] at howner
    cases howner
  · rw [Reference.owner, h] at howner
    cases howner
  · rw [Reference.owner, hrule] at howner
    obtain rfl := Option.some.inj howner
    rw [hds] at hrest
    obtain rfl := Option.some.inj hrest
    obtain rfl := Option.some.inj hfirst
    exact hchildless c hc hchild

open GrammarServer.Derivation in
/-- The derivation of `a: "y"` and, on the next line, `%override a{x}: x`. -/
def overriddenTemplate : Derivation :=
  ofItems
    (ofRule ⟨0, 1, 1⟩ "a" [] [] ⟨1, 1, 2⟩
      (ofAlternative [ofValue .literal .string ⟨3, 1, 4⟩ "\"y\""]))
    [ofWord .newline ⟨6, 1, 7⟩ "\n",
      ofParts .override [
        ofWord .overrideWord ⟨7, 2, 1⟩ "%override",
        ofRule ⟨17, 2, 11⟩ "a" (ofParameter ⟨18, 2, 12⟩ ⟨19, 2, 13⟩ "x" ⟨20, 2, 14⟩) [] ⟨21, 2, 15⟩
          (ofAlternative [ofValue .nonterminal .ruleName ⟨23, 2, 17⟩ "x"])],
      ofWord .newline ⟨24, 2, 18⟩ "\n"]

/-- The parameter of a template that overrides a rule is reported, where it is declared and where it
is used. -/
theorem SymbolTable.reported_overriddenTemplate :
    Parse.strict "a: \"y\"\n%override a\x7bx\x7d: x\n" = .ok overriddenTemplate ∧
    ∃ file defined collected checked, overriddenTemplate.tree.build = .ok file ∧
      empty.collectDefinitions file.statements = .ok defined ∧
      defined.collectReferences file.statements = .ok collected ∧
      collected.validateReferences = .ok checked ∧
      checked.referenceErrors.map Prod.fst =
        [⟨.undefinedReference, "x", ⟨1, 12⟩⟩, ⟨.undefinedReference, "x", ⟨1, 16⟩⟩] ∧
      ∀ p ∈ checked.referenceErrors, p.2.name ∈ p.2.node.declaredParameters := by
  have hview : (ofDerivation overriddenTemplate).toOption.any (fun p =>
      p.2.referenceErrors.map Prod.fst ==
        [⟨.undefinedReference, "x", ⟨1, 12⟩⟩, ⟨.undefinedReference, "x", ⟨1, 16⟩⟩] &&
      p.2.referenceErrors.all fun q => q.2.node.declaredParameters.contains q.2.name) = true := by
    decide +kernel
  obtain ⟨file, defined, collected, checked, hbuild, hdefined, hcollected, hchecked, hview⟩ :=
    exists_of_ofDerivation hview
  simp only [Bool.and_eq_true, List.all_eq_true, beq_iff_eq, List.contains_iff_mem] at hview
  exact ⟨Parse.strict_of_settled (by decide) rfl (by decide) (by decide +kernel), file, defined,
    collected, checked, hbuild, hdefined, hcollected, hchecked, hview⟩

end GrammarServer
