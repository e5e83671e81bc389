import GrammarServer.Proofs.Symbol.Undefined

/-!
# Where a name leads to

A name that is defined leads to the first of its definitions. Any other name leads to a statement
that has a name of its own, a rule or an import under another name: to the first definition under
the name of the statement in which it is first used. Nobody asks whether that definition has
anything to do with the name.
-/
namespace GrammarServer

/-- The definition is of this name, or has a child of this name. -/
def Definition.IsAbout (name : String) (d : Definition) : Prop :=
  d.name = name ∨ ∃ children, d.childCatalog = some children ∧ children.contains name = true

theorem Catalog.getD_get?_group {α : Type} (name : α → String) (items : List α) (key : String) :
    ((group name items).get? key).getD [] = items.filter (name · == key) := by
  rw [get?_group]
  split
  case isTrue h => exact h.symm
  case isFalse => rfl

/-- If a search gives something exactly where a test is passed, it stops where the test is first
passed. -/
theorem findSome?_eq_find?_bind {α β : Type} {f : α → Option β} {p : α → Bool} {as : List α}
    (h : ∀ a ∈ as, (f a).isSome = p a) : as.findSome? f = (as.find? p).bind f := by
  induction as with
  | nil => rfl
  | cons a as ih =>
    obtain ⟨ha, has⟩ := List.forall_mem_cons.mp h
    cases hp : p a with
    | false =>
      have hnone : f a = none := by simpa [hp] using ha
      rw [List.findSome?_cons, hnone, List.find?_cons_of_neg (by simp [hp])]
      exact ih has
    | true =>
      obtain ⟨b, hb⟩ := Option.isSome_iff_exists.mp (ha.trans hp)
      rw [List.findSome?_cons, hb, List.find?_cons_of_pos hp, Option.bind_some, hb]

/-- The first item of a name is also the first of that name when the items are listed by names. -/
theorem Catalog.find?_values_group {α : Type} (name : α → String) (items : List α) (key : String) :
    (group name items).values.find? (name · == key) = items.find? (name · == key) := by
  have hentries : ∀ entry ∈ (group name items).entries,
      (entry.2.find? (name · == key)).isSome = (entry.1 == key) := by
    intro entry hentry
    obtain ⟨hitems, hne⟩ := (mem_entries_group name items).mp hentry
    have hnamed : ∀ a ∈ entry.2, name a = entry.1 := by
      rw [hitems]
      exact fun a ha => eq_of_beq (List.mem_filter.mp ha).2
    obtain ⟨a, ha⟩ := List.exists_mem_of_ne_nil _ hne
    rw [Bool.eq_iff_iff, List.find?_isSome, beq_iff_eq]
    constructor
    · rintro ⟨b, hb, hkey⟩
      exact (hnamed b hb).symm.trans (eq_of_beq hkey)
    · rintro rfl
      exact ⟨a, ha, beq_iff_eq.mpr (hnamed a ha)⟩
  rw [values, List.find?_flatMap, findSome?_eq_find?_bind hentries]
  cases hfind : (group name items).entries.find? (·.1 == key) with
  | none =>
    rw [Option.bind_none, eq_comm, List.find?_eq_none]
    intro a ha hkey
    obtain ⟨entry, hentry, hmem⟩ := List.mem_flatMap.mp ((mem_values_group name items).mpr ha)
    have hpassed := hentries entry hentry
    rw [List.find?_isSome.mpr ⟨a, hmem, hkey⟩] at hpassed
    exact List.find?_eq_none.mp hfind entry hentry hpassed.symm
  | some entry =>
    obtain ⟨hitems, _⟩ := (mem_entries_group name items).mp (List.mem_of_find?_eq_some hfind)
    have hkey : entry.1 = key := by simpa using List.find?_some hfind
    rw [Option.bind_some, hitems, hkey, ← List.head?_filter, ← List.head?_filter,
      List.filter_filter]
    simp only [Bool.and_self]

namespace SymbolTable

/-- The first use of a name in a statement that has a name of its own. -/
def leadingUse (t : SymbolTable) (name : String) : Option Reference :=
  ((t.references.get? name).getD []).find? (·.owner.isSome)

section

variable {t : SymbolTable} {ds : List Definition} {rs : List Reference}

theorem head?_get? (hds : t.definitions = .group Definition.name ds) (name : String) :
    (t.get? name).bind List.head? = ds.find? (·.name == name) := by
  rw [get?, hds, Catalog.get?_group, ← List.head?_filter]
  cases ds.filter (·.name == name) <;> rfl

theorem definitionAround_group (hds : t.definitions = .group Definition.name ds)
    (hnames : ∀ d ∈ ds, d.name ≠ "") (r : Reference) :
    t.definitionAround r = r.owner.bind fun owner => ds.find? (·.name == owner) := by
  simp only [← head?_get? hds]
  unfold definitionAround Reference.owner
  cases r.node
  case rule e modifiers name parameters priority expansions =>
    dsimp only [Option.bind_some]
    rcases t.get? name.toText with _ | _ | ⟨d, rest⟩ <;> rfl
  case imports e path symbols given =>
    dsimp only [Option.bind_some]
    cases given.isPresent with
    | true =>
      simp only [if_true, Option.bind_some]
      rcases t.get? given.toText with _ | _ | ⟨d, rest⟩ <;> rfl
    | false =>
      -- nothing is listed under the empty name
      have hnone : t.get? "" = none := by
        rw [get?, hds, Catalog.get?_group, if_pos]
        exact List.filter_eq_nil_iff.mpr fun d hd => by simpa using hnames d hd
      simp only [Bool.false_eq_true, if_false, hnone]
      rfl
  all_goals rfl

/-- A lookup falls back on the statement in which the name is first used. -/
theorem definition?_group (hds : t.definitions = .group Definition.name ds)
    (hnames : ∀ d ∈ ds, d.name ≠ "") (hrs : t.references = .group Reference.name rs)
    (howners : ∀ r ∈ rs, ∀ owner, r.owner = some owner → ∃ d ∈ ds, d.name = owner)
    (name : String) :
    t.definition? name =
      (ds.find? (·.name == name)).or ((t.leadingUse name).bind fun r =>
        r.owner.bind fun owner => ds.find? (·.name == owner)) := by
  have haround : ∀ r ∈ rs.filter (·.name == name),
      (t.definitionAround r).isSome = r.owner.isSome := by
    intro r hr
    rw [definitionAround_group hds hnames]
    cases howner : r.owner with
    | none => rfl
    | some owner =>
      obtain ⟨d, hd, hname⟩ := howners r (List.mem_of_mem_filter hr) owner howner
      rw [Option.bind_some, Option.isSome_some, List.find?_isSome]
      exact ⟨d, hd, by simpa using hname⟩
  have hfirst := head?_get? hds name
  rw [leadingUse, hrs, Catalog.getD_get?_group, ← funext (definitionAround_group hds hnames),
    ← findSome?_eq_find?_bind haround, ← hfirst]
  unfold definition?
  rw [hrs, Catalog.getD_get?_group]
  rcases t.get? name with _ | _ | ⟨d, rest⟩ <;> rfl

end

end SymbolTable

namespace Typed

/-- A statement that has a name of its own is found under it. -/
theorem exists_definition_of_owner {ss : List Statement} :
    ∀ r ∈ ss.flatMap fun s => referencesAt s.node s.uses, ∀ owner, r.owner = some owner →
      ∃ d ∈ ss.flatMap Statement.definitions, d.name = owner := by
  intro r hr owner howner
  obtain ⟨s, hs, hrs⟩ := List.mem_flatMap.mp hr
  obtain ⟨x, _, rfl⟩ := List.mem_map.mp hrs
  obtain ⟨main, rest, hmain, hname, _⟩ := s.exists_owner rfl howner
  exact ⟨main, List.mem_flatMap.mpr ⟨s, hs, hmain ▸ List.mem_cons_self⟩, hname⟩

/-- A statement that has a name of its own has a first definition under it. -/
theorem exists_first_of_owner {ss : List Statement} {r : Reference}
    (hr : r ∈ ss.flatMap fun s => referencesAt s.node s.uses) {owner : String}
    (howner : r.owner = some owner) : ∃ first rest,
      (table ss).get? owner = some (first :: rest) ∧
      (ss.flatMap Statement.definitions).find? (·.name == owner) = some first := by
  obtain ⟨d, hd, hname⟩ := exists_definition_of_owner r hr owner howner
  have hfound : ((ss.flatMap Statement.definitions).find? (·.name == owner)).isSome = true :=
    List.find?_isSome.mpr ⟨d, hd, by simpa using hname⟩
  obtain ⟨first, hfirst⟩ := Option.isSome_iff_exists.mp hfound
  obtain ⟨rest, hrest⟩ := (Catalog.exists_get?_group_iff _ _ _ _).mpr hfirst
  exact ⟨first, rest, hrest, hfirst⟩

theorem leadingUse_eq_some {ss : List Statement} {name : String} {r : Reference}
    (h : (table ss).leadingUse name = some r) :
    r ∈ (ss.flatMap fun s => referencesAt s.node s.uses) ∧ ∃ owner, r.owner = some owner := by
  rw [SymbolTable.leadingUse, table, Catalog.getD_get?_group] at h
  have hsome : r.owner.isSome = true := List.find?_some (p := (Reference.owner · |>.isSome)) h
  exact ⟨List.mem_of_mem_filter (List.mem_of_find?_eq_some h), Option.isSome_iff_exists.mp hsome⟩

/-- What a lookup gives: a definition of the name; or, if there is none, nothing, or the first
definition of the statement in which the name is first used. -/
theorem definition?_cases (ss : List Statement) (name : String) :
    (∃ x ∈ (table ss).definitions.values, x.name = name ∧
      (table ss).definition? name = some x) ∨
    (∀ x ∈ (table ss).definitions.values, x.name ≠ name) ∧
      ((table ss).leadingUse name = none ∧ (table ss).definition? name = none ∨
        ∃ r owner, ∃ first ∈ (table ss).definitions.values, ∃ rest,
          (table ss).leadingUse name = some r ∧ r.owner = some owner ∧
          (table ss).get? owner = some (first :: rest) ∧
          (table ss).definition? name = some first) := by
  have hlookup := SymbolTable.definition?_group (t := table ss) rfl
    (fun d hd => (isNamed_flatMap ss d hd).name_ne) rfl exists_definition_of_owner name
  have hvalues (x : GrammarServer.Definition) : x ∈ (table ss).definitions.values ↔
      x ∈ ss.flatMap Statement.definitions := Catalog.mem_values_group _ _
  cases hfind : (ss.flatMap Statement.definitions).find? (·.name == name) with
  | some x =>
    rw [hfind, Option.some_or] at hlookup
    have hname : x.name = name := by simpa using List.find?_some hfind
    exact Or.inl ⟨x, (hvalues x).mpr (List.mem_of_find?_eq_some hfind), hname, hlookup⟩
  | none =>
    rw [hfind, Option.none_or] at hlookup
    refine Or.inr ⟨fun x hx hname => ?_, ?_⟩
    · exact List.find?_eq_none.mp hfind x ((hvalues x).mp hx) (by simpa using hname)
    cases huse : (table ss).leadingUse name with
    | none =>
      rw [huse, Option.bind_none] at hlookup
      exact Or.inl ⟨rfl, hlookup⟩
    | some r =>
      obtain ⟨hr, owner, howner⟩ := leadingUse_eq_some huse
      obtain ⟨first, rest, hrest, hfirst⟩ := exists_first_of_owner hr howner
      rw [huse, Option.bind_some, howner, Option.bind_some, hfirst] at hlookup
      exact Or.inr ⟨r, owner, first, (hvalues first).mpr (List.mem_of_find?_eq_some hfirst), rest,
        rfl, howner, hrest, hlookup⟩

end Typed

/-- Looking up a name leads to what is about it exactly if the name is defined, or else the
definition around its first use has it as a child. -/
theorem SymbolTable.lookup_isAbout_iff {source : String} {d : Derivation} {file : Node}
    (hparse : Parse.strict source = .ok d ∨ (Parse.recovering source).result = .ok d)
    (hbuild : d.tree.build = .ok file) :
    ∃ defined collected, empty.collectDefinitions file.statements = .ok defined ∧
      defined.collectReferences file.statements = .ok collected ∧
      ∀ name,
        ((∀ x, collected.definition? name = some x → x.IsAbout name) ∧
          ((∀ x ∈ collected.definitions.values, ¬ x.IsAbout name) →
            collected.definition? name = none)) ↔
        (∃ x ∈ collected.definitions.values, x.name = name) ∨
          ∀ r, collected.leadingUse name = some r → ∃ owner first rest, r.owner = some owner ∧
            collected.get? owner = some (first :: rest) ∧ first.IsAbout name := by
  have hrecovering : (Parse.recovering source).result = .ok d :=
    hparse.elim Parse.recovering_of_strict id
  obtain ⟨_, ss, rfl, _⟩ := Typed.exists_statements_of_recovering hrecovering hbuild
  refine ⟨_, Typed.table ss, Typed.collectDefinitions_nodes ss,
    Typed.collectReferences_nodes ss _ rfl, fun name => ?_⟩
  obtain ⟨x, hmem, hname, hlookup⟩ | ⟨hundefined, ⟨hunused, hlookup⟩ |
    ⟨r, owner, first, hmem, rest, huse, howner, hrest, hlookup⟩⟩ := Typed.definition?_cases ss name
  · refine iff_of_true ⟨?_, fun h => absurd (Or.inl hname) (h x hmem)⟩ (Or.inl ⟨x, hmem, hname⟩)
    intro y hy
    obtain rfl : x = y := Option.some.inj (hlookup.symm.trans hy)
    exact Or.inl hname
  · exact iff_of_true ⟨by simp [hlookup], fun _ => hlookup⟩ (Or.inr (by simp [hunused]))
  · rw [or_iff_right (by simpa using hundefined), huse]
    constructor
    · rintro ⟨habout, _⟩ _ ⟨⟩
      exact ⟨owner, first, rest, howner, hrest, habout first hlookup⟩
    · intro hleads
      obtain ⟨owner', first', rest', howner', hrest', habout⟩ := hleads r rfl
      obtain rfl := Option.some.inj (howner.symm.trans howner')
      obtain ⟨rfl, _⟩ := List.cons.inj (Option.some.inj (hrest.symm.trans hrest'))
      refine ⟨fun x hx => ?_, fun h => absurd habout (h first hmem)⟩
      obtain rfl : first = x := Option.some.inj (hlookup.symm.trans hx)
      exact habout

/-- A parameter of a template is not defined, and leads to the template. -/
theorem SymbolTable.lookup_isAbout_iff_namedTemplate :
    Parse.strict "a\x7bb\x7d: b -> c" = .ok namedTemplate ∧ ∃ file defined collected,
      namedTemplate.tree.build = .ok file ∧
      empty.collectDefinitions file.statements = .ok defined ∧
      defined.collectReferences file.statements = .ok collected ∧
      ∃ x, collected.definition? "b" = some x ∧ x.name = "a" ∧ x.IsAbout "b" := by
  have hparse : Parse.strict "a\x7bb\x7d: b -> c" = .ok namedTemplate :=
    Parse.strict_of_settled (by decide) rfl (by decide) (by decide +kernel)
  have hview : (ofDerivation namedTemplate).toOption.any (fun p =>
      (p.1.definition? "b").any (·.name == "a") && (p.1.leadingUse "b").all (fun r =>
        r.owner == some "a") && (p.1.get? "a").any fun ds =>
          ds.head?.any fun x => x.childCatalog.any (·.contains "b")) = true := by
    decide +kernel
  obtain ⟨file, _, _, _, hbuild, hdefined, hcollected, _, hview⟩ := exists_of_ofDerivation hview
  obtain ⟨defined, collected, hdefined', hcollected', hlookup⟩ :=
    lookup_isAbout_iff (Or.inl hparse) hbuild
  obtain rfl := Except.ok.inj (hdefined.symm.trans hdefined')
  obtain rfl := Except.ok.inj (hcollected.symm.trans hcollected')
  simp only [Bool.and_eq_true, Option.any_eq_true, Option.all_eq_true, beq_iff_eq] at hview
  obtain ⟨⟨⟨x, hx, hname⟩, howner⟩, ds, hds, first, hfirst, habout⟩ := hview
  have hleads := (hlookup "b").mpr (Or.inr fun r hr => ⟨"a", first, ds.tail, howner r hr, by
    rw [hds, List.cons_head?_tail hfirst], Or.inr habout⟩)
  exact ⟨hparse, file, _, _, hbuild, hdefined, hcollected, x, hx, hname, hleads.1 x hx⟩

/-- A name that is only used in a rule leads to the rule, which has nothing to do with it. -/
theorem SymbolTable.strayLookup_ruleUse :
    Parse.strict "a: missing\n" = .ok ruleUse ∧ ∃ file defined collected,
      ruleUse.tree.build = .ok file ∧
      empty.collectDefinitions file.statements = .ok defined ∧
      defined.collectReferences file.statements = .ok collected ∧
      (∀ x ∈ collected.definitions.values, ¬ x.IsAbout "missing") ∧
      ∃ x, collected.definition? "missing" = some x ∧ x.name = "a" := by
  have hview : (ofDerivation ruleUse).toOption.any (fun p =>
      p.1.definitions.values.all (fun x => x.name != "missing" &&
        x.childCatalog.all fun children => !children.contains "missing") &&
      (p.1.definition? "missing").any (·.name == "a")) = true := by
    decide +kernel
  obtain ⟨file, defined, collected, _, hbuild, hdefined, hcollected, _, hview⟩ :=
    exists_of_ofDerivation hview
  simp only [Bool.and_eq_true, List.all_eq_true, Option.any_eq_true, Option.all_eq_true,
    bne_iff_ne, beq_iff_eq, Bool.not_eq_true'] at hview
  obtain ⟨hnone, x, hx, hname⟩ := hview
  refine ⟨Parse.strict_of_settled (by decide) rfl (by decide) (by decide +kernel), file, defined,
    collected, hbuild, hdefined, hcollected, ?_, x, hx, hname⟩
  rintro y hy (hsame | ⟨children, hchildren, hcontains⟩)
  · exact (hnone y hy).1 hsame
  · rw [(hnone y hy).2 children hchildren] at hcontains
    cases hcontains

end GrammarServer
