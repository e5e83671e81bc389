import GrammarServer.Proofs.Symbol.Runs
import GrammarServer.Proofs.Symbol.Undefined

/-!
# Kept listings

A table lists all its definitions and all its references, and keeps each of the two lists once it
is not empty. Such a list is never given up, so what is collected later is missing from it. Both
lists are kept in the same way, and what a run makes of one is proved once for both.
-/
namespace GrammarServer.SymbolTable

section

variable {α : Type} {collected : Operation → List α} {listing op : Operation}
  {ops : List Operation} {as : List α}

/-- Nothing is collected after a listing that found something, be it among the symbols that were
there from the start. -/
def SettledFrom (as : List α) (collected : Operation → List α) (listing : Operation)
    (ops : List Operation) : Prop :=
  ∀ before after, ops = before ++ listing :: after →
    as ++ before.flatMap collected = [] ∨ after.flatMap collected = []

def Settled (collected : Operation → List α) (listing : Operation) (ops : List Operation) : Prop :=
  SettledFrom [] collected listing ops

theorem settledFrom_nil : SettledFrom as collected listing [] := by
  intro before after h
  cases before <;> cases h

theorem settledFrom_listing_cons (has : as ≠ []) :
    SettledFrom as collected listing (listing :: ops) ↔ ops.flatMap collected = [] := by
  constructor
  · intro h
    refine (h [] ops rfl).resolve_left ?_
    rwa [List.flatMap_nil, List.append_nil]
  · intro hnone before after h
    refine Or.inr ?_
    cases before with
    | nil =>
      obtain ⟨_, rfl⟩ := List.cons.inj h
      exact hnone
    | cons _ before =>
      have hops : ops = before ++ listing :: after := (List.cons.inj h).2
      rw [hops, List.flatMap_append, List.append_eq_nil_iff, List.flatMap_cons,
        List.append_eq_nil_iff] at hnone
      exact hnone.2.2

theorem settledFrom_cons (h : op = listing → as = []) :
    SettledFrom as collected listing (op :: ops) ↔
      SettledFrom (as ++ collected op) collected listing ops := by
  constructor
  · intro hsettled before after hops
    rw [List.append_assoc, ← List.flatMap_cons]
    exact hsettled (op :: before) after (congrArg (op :: ·) hops)
  · intro hsettled before after hops
    cases before with
    | nil => exact Or.inl (List.append_eq_nil_iff.mpr ⟨h (List.cons.inj hops).1, rfl⟩)
    | cons _ before =>
      obtain ⟨rfl, hrest⟩ := List.cons.inj hops
      rw [List.flatMap_cons, ← List.append_assoc]
      exact hsettled before after hrest

end

/-- A list of what a table holds that is kept once it is not empty. -/
structure Listing (α β : Type) where
  collected : Operation → List α
  /-- The operation that makes the list. -/
  listing : Operation
  Holds : SymbolTable → List α → Prop
  kept : SymbolTable → List β
  /-- The list as it is made from the symbols. -/
  view : List α → List β
  answer : SymbolTable → List β
  collected_listing : collected listing = []
  holds_empty : Holds empty []
  kept_empty : kept empty = []
  holds_of_apply : ∀ {t t' : SymbolTable} {op : Operation} {as : List α},
    t.apply op = .ok t' → Holds t as → Holds t' (as ++ collected op)
  kept_of_listing : ∀ {t t' : SymbolTable} {as : List α},
    t.apply listing = .ok t' → Holds t as → kept t = [] → kept t' = view as
  kept_of_apply : ∀ {t t' : SymbolTable} {op : Operation},
    t.apply op = .ok t' → op ≠ listing ∨ kept t ≠ [] → kept t' = kept t
  answer_of_nil : ∀ {t : SymbolTable} {as : List α}, Holds t as → kept t = [] → answer t = view as
  answer_of_ne_nil : ∀ {t : SymbolTable}, kept t ≠ [] → answer t = kept t
  view_eq_nil : ∀ {as : List α}, view as = [] ↔ as = []

namespace Listing

variable {α β : Type} (l : Listing α β)

theorem kept_of_run {ops : List Operation} : ∀ {t t' : SymbolTable}, t.run ops = .ok t' →
    l.kept t ≠ [] → l.kept t' = l.kept t := by
  induction ops with
  | nil =>
    intro t t' hrun _
    obtain rfl := pure_eq_ok.mp hrun
    rfl
  | cons op ops ih =>
    intro t t' hrun hkept
    obtain ⟨next, hnext, hrest⟩ := run_cons_eq_ok.mp hrun
    have hnext := l.kept_of_apply hnext (Or.inr hkept)
    rw [ih hrest (hnext ▸ hkept), hnext]

/-- After a run the list shows the symbols that were there when it was first made from some. These
are all that there are exactly if none was collected since. -/
theorem exists_seen {ops : List Operation} : ∀ {t t' : SymbolTable} {as : List α},
    l.Holds t as → l.kept t = [] → t.run ops = .ok t' →
      ∃ seen later, as ++ ops.flatMap l.collected = seen ++ later ∧ l.answer t' = l.view seen ∧
        (later = [] ↔ SettledFrom as l.collected l.listing ops) := by
  induction ops with
  | nil =>
    intro t t' as hholds hkept hrun
    obtain rfl := pure_eq_ok.mp hrun
    exact ⟨as, [], rfl, l.answer_of_nil hholds hkept, iff_of_true rfl settledFrom_nil⟩
  | cons op ops ih =>
    intro t t' as hholds hkept hrun
    obtain ⟨next, hnext, hrest⟩ := run_cons_eq_ok.mp hrun
    rw [List.flatMap_cons]
    by_cases hlists : op = l.listing ∧ as ≠ []
    · -- the list is made here and stays
      obtain ⟨rfl, has⟩ := hlists
      have hview := l.kept_of_listing hnext hholds hkept
      have hne : l.kept next ≠ [] := fun h => has (l.view_eq_nil.mp (hview.symm.trans h))
      have hkept' := l.kept_of_run hrest hne
      rw [l.collected_listing, List.nil_append]
      refine ⟨as, ops.flatMap l.collected, rfl, ?_, (settledFrom_listing_cons has).symm⟩
      rw [l.answer_of_ne_nil (hkept' ▸ hne), hkept', hview]
    · have hfirst : op = l.listing → as = [] :=
        fun hop => Decidable.of_not_not fun has => hlists ⟨hop, has⟩
      have hempty : l.kept next = [] := by
        by_cases hop : op = l.listing
        · obtain rfl := hop
          rw [l.kept_of_listing hnext hholds hkept, l.view_eq_nil, hfirst rfl]
        · rw [l.kept_of_apply hnext (Or.inl hop), hkept]
      obtain ⟨seen, later, hseen, hanswer, hlater⟩ :=
        ih (l.holds_of_apply hnext hholds) hempty hrest
      rw [List.append_assoc] at hseen
      exact ⟨seen, later, hseen, hanswer, hlater.trans (settledFrom_cons hfirst).symm⟩

theorem exists_seen_of_empty {ops : List Operation} {t : SymbolTable}
    (hrun : empty.run ops = .ok t) : ∃ seen later, ops.flatMap l.collected = seen ++ later ∧
      l.answer t = l.view seen ∧ (later = [] ↔ Settled l.collected l.listing ops) :=
  l.exists_seen l.holds_empty l.kept_empty hrun

end Listing

/-! ## The two listings -/

/-- Only the operation that makes a list changes it, as long as it is empty. -/
theorem listings_of_apply {t t' : SymbolTable} {op : Operation} (h : t.apply op = .ok t') :
    (op ≠ .listReferences ∨ t.listedReferences ≠ [] →
      t'.listedReferences = t.listedReferences) ∧
    (op ≠ .listDefinitions ∨ t.listedDefinitions ≠ [] →
      t'.listedDefinitions = t.listedDefinitions) := by
  cases op
  case listReferences =>
    obtain rfl := pure_eq_ok.mp h
    unfold allReferences
    split
    case isTrue hempty =>
      exact ⟨fun hop => hop.elim (absurd rfl) (absurd (List.isEmpty_iff.mp hempty)), fun _ => rfl⟩
    case isFalse => exact ⟨fun _ => rfl, fun _ => rfl⟩
  case listDefinitions =>
    obtain rfl := pure_eq_ok.mp h
    unfold allDefinitions
    split
    case isTrue hempty =>
      exact ⟨fun _ => rfl, fun hop => hop.elim (absurd rfl) (absurd (List.isEmpty_iff.mp hempty))⟩
    case isFalse => exact ⟨fun _ => rfl, fun _ => rfl⟩
  case collectDefinitions | collectReferences | validateReferences =>
    obtain ⟨_, _, h⟩ := bind_eq_ok.mp h
    obtain rfl := pure_eq_ok.mp h
    exact ⟨fun _ => rfl, fun _ => rfl⟩
  all_goals
    obtain rfl := pure_eq_ok.mp h
    exact ⟨fun _ => rfl, fun _ => rfl⟩

def referenceListing : Listing Reference Reference where
  collected := Operation.references
  listing := .listReferences
  Holds t rs := t.references = .group Reference.name rs
  kept := listedReferences
  view rs := (Catalog.group Reference.name rs).values
  answer t := t.allReferences.1
  collected_listing := rfl
  holds_empty := rfl
  kept_empty := rfl
  holds_of_apply := by
    intro t t' op rs h hrs
    rw [(catalogs_of_apply h).2, hrs]
    exact List.foldl_append.symm
  kept_of_listing := by
    intro t t' rs h hrs hkept
    obtain rfl := pure_eq_ok.mp h
    rw [allReferences, hkept, hrs]
    rfl
  kept_of_apply h := (listings_of_apply h).1
  answer_of_nil := by
    intro t rs hrs hkept
    rw [allReferences, hkept, hrs]
    rfl
  answer_of_ne_nil := by
    intro t hkept
    rw [allReferences, if_neg (hkept ∘ List.isEmpty_iff.mp)]
  view_eq_nil := Catalog.values_group_eq_nil

/-- All definitions, then the children of the rules, as they are listed when no list is kept. -/
def definitionListing : Listing Definition Listed where
  collected := Operation.definitions
  listing := .listDefinitions
  Holds t ds := t.definitions = .group Definition.name ds
  kept := listedDefinitions
  view ds := (allDefinitions { definitions := .group Definition.name ds }).1
  answer t := t.allDefinitions.1
  collected_listing := rfl
  holds_empty := rfl
  kept_empty := rfl
  holds_of_apply := by
    intro t t' op ds h hds
    rw [(catalogs_of_apply h).1, hds]
    exact List.foldl_append.symm
  kept_of_listing := by
    intro t t' ds h hds hkept
    obtain rfl := pure_eq_ok.mp h
    rw [allDefinitions, hkept, ruleChildren, definitionsOfKind, hds]
    rfl
  kept_of_apply h := (listings_of_apply h).2
  answer_of_nil := by
    intro t ds hds hkept
    rw [allDefinitions, hkept, ruleChildren, definitionsOfKind, hds]
    rfl
  answer_of_ne_nil := by
    intro t hkept
    rw [allDefinitions, if_neg (hkept ∘ List.isEmpty_iff.mp)]
  view_eq_nil := by
    intro ds
    refine ⟨fun h => ?_, fun h => h ▸ rfl⟩
    exact Catalog.values_group_eq_nil.mp (List.map_eq_nil_iff.mp (List.append_eq_nil_iff.mp h).1)

/-! ## What is listed -/

/-- Lists definitions once each, and then the children of the rules among them, each list of them
under the name that they have. -/
def ListsByName (listed : List Listed) (ds : List Definition) : Prop :=
  ∃ (tops : List Definition) (children : List (String × List Definition)),
    listed = tops.map .definition ++ children.map (fun entry => .children entry.1 entry.2) ∧
      tops.Perm ds ∧ (children.flatMap (·.2)).Perm (ds.flatMap Definition.checkedChildren) ∧
      ∀ entry ∈ children, entry.2 ≠ [] ∧ ∀ child ∈ entry.2, child.name = entry.1

/-- Lists definitions once each, and then each template parameter of theirs. -/
def ListsEach (listed : List Listed) (ds : List Definition) : Prop :=
  ∃ tops parameters : List Definition, listed = (tops ++ parameters).map .definition ∧
    tops.Perm ds ∧ parameters.Perm (ds.flatMap Definition.parameters)

theorem listsByName_view (ds : List Definition) :
    ListsByName (definitionListing.view ds) ds := by
  refine ⟨_, _, rfl, Catalog.values_group_perm _ _, ?_, fun entry hentry => ?_⟩
  · refine (ruleChildren_flatMap_perm rfl _).trans (List.Perm.flatMap_left ds fun d _ => ?_)
    exact Catalog.values_group_perm Definition.name d.checkedChildren
  · rw [ruleChildren_eq] at hentry
    obtain ⟨d, _, hentry⟩ := List.mem_flatMap.mp hentry
    obtain ⟨hnamed, hne⟩ := (Catalog.mem_entries_group _ _).mp hentry
    refine ⟨hne, fun child hchild => ?_⟩
    rw [hnamed] at hchild
    exact eq_of_beq (List.mem_filter.mp hchild).2

section

variable {listed : List Listed} {seen later : List Definition}

def asDefinition : Listed → Option Definition
  | .definition d => some d
  | .children _ _ => none

theorem filterMap_asDefinition (tops : List Definition) :
    (tops.map Listed.definition).filterMap asDefinition = tops := by
  rw [List.filterMap_map]
  exact List.filterMap_some

theorem ListsByName.perm {ds : List Definition} (h : ListsByName listed ds) :
    (listed.filterMap asDefinition).Perm ds := by
  obtain ⟨tops, children, rfl, htops, _⟩ := h
  have hnone : (children.map fun entry => Listed.children entry.1 entry.2).filterMap asDefinition =
      [] := by
    rw [List.filterMap_map]
    exact List.filterMap_eq_nil_iff.mpr fun _ _ => rfl
  rwa [List.filterMap_append, filterMap_asDefinition, hnone, List.append_nil]

theorem eq_nil_of_perm_append {α : Type} {as bs : List α} (h : as.Perm (as ++ bs)) : bs = [] := by
  have hlength := h.length_eq
  rw [List.length_append] at hlength
  exact List.eq_nil_of_length_eq_zero (by omega)

theorem listsByName_append_iff (h : ListsByName listed seen) :
    ListsByName listed (seen ++ later) ↔ later = [] := by
  refine ⟨fun hall => eq_nil_of_perm_append (h.perm.symm.trans hall.perm), fun hlater => ?_⟩
  rwa [hlater, List.append_nil]

/-- The parameters are missing as entries of their own, so each of them is listed only if there is
none. -/
theorem listsEach_append_iff (h : ListsByName listed seen)
    (hparameters : ∀ d ∈ seen ++ later, d.checkedChildren = [] → d.parameters = []) :
    ListsEach listed (seen ++ later) ↔
      later = [] ∧ ∀ d ∈ seen ++ later, d.checkedChildren = [] := by
  constructor
  · rintro ⟨tops, parameters, rfl, htops, _⟩
    have hperm := h.perm
    rw [filterMap_asDefinition] at hperm
    have hlater : later = [] := by
      have hlength := hperm.length_eq
      have htops := htops.length_eq
      rw [List.length_append] at hlength htops
      exact List.eq_nil_of_length_eq_zero (by omega)
    obtain ⟨tops', children, hlisted, _, hchildren, _⟩ := h
    -- An entry for the children of a definition is not an entry for a definition.
    have hnone : children = [] := by
      refine List.eq_nil_iff_forall_not_mem.mpr fun entry hentry => ?_
      have hmem : Listed.children entry.1 entry.2 ∈ (tops ++ parameters).map .definition :=
        hlisted ▸ List.mem_append_right _ (List.mem_map_of_mem hentry)
      obtain ⟨d, _, hd⟩ := List.mem_map.mp hmem
      cases hd
    rw [hnone] at hchildren
    rw [hlater, List.append_nil]
    exact ⟨rfl, List.flatMap_eq_nil_iff.mp (List.nil_perm.mp hchildren)⟩
  · rintro ⟨rfl, hnone⟩
    rw [List.append_nil] at hnone hparameters ⊢
    obtain ⟨tops, children, rfl, htops, hchildren, hne⟩ := h
    rw [List.flatMap_eq_nil_iff.mpr hnone] at hchildren
    have hflat := List.flatMap_eq_nil_iff.mp (List.perm_nil.mp hchildren)
    have hchildren : children = [] := by
      refine List.eq_nil_iff_forall_not_mem.mpr fun entry hentry => ?_
      exact (hne entry hentry).1 (hflat entry hentry)
    have hnone' : seen.flatMap Definition.parameters = [] :=
      List.flatMap_eq_nil_iff.mpr fun d hd => hparameters d hd (hnone d hd)
    rw [hchildren]
    refine ⟨tops, [], ?_, htops, hnone' ▸ List.Perm.refl []⟩
    rw [List.append_nil, List.map_nil, List.append_nil]

end

theorem parameters_eq_nil_of_checkedChildren {statement : Node} {ds : List Definition}
    (h : statement.definitions = .ok ds) :
    ∀ d ∈ ds, d.checkedChildren = [] → d.parameters = [] := by
  refine Node.forall_mem_definitions h ?_ ?_ ?_
  · exact fun d hd _ => (Definition.parts_of_childless hd).1
  · rintro e path symbols name rfl d added _ hnode _
    rw [Definition.parameters, hnode]
  · intro d added _ hkind hnone
    rw [Definition.checkedChildren, hkind] at hnone
    have hchildren : d.children.getD [] = [] := hnone
    rw [Definition.parameters, hchildren]
    split <;> rfl

/-- A listing shows every symbol exactly if none was collected after a listing that found some, and
shows each template parameter by itself only where no rule has children. -/
theorem listings_current_iff {ops : List Operation} (hops : ∀ op ∈ ops, op.Reads) :
    ∃ t, empty.run ops = .ok t ∧
      (∃ seen, seen <+: ops.flatMap Operation.references ∧ t.allReferences.1.Perm seen) ∧
      (t.allReferences.1.Perm (ops.flatMap Operation.references) ↔
        Settled Operation.references .listReferences ops) ∧
      (∃ seen, seen <+: ops.flatMap Operation.definitions ∧
        ListsByName t.allDefinitions.1 seen) ∧
      (ListsByName t.allDefinitions.1 (ops.flatMap Operation.definitions) ↔
        Settled Operation.definitions .listDefinitions ops) ∧
      (ListsEach t.allDefinitions.1 (ops.flatMap Operation.definitions) ↔
        Settled Operation.definitions .listDefinitions ops ∧
          ∀ d ∈ ops.flatMap Operation.definitions, d.checkedChildren = []) := by
  obtain ⟨t, hrun⟩ := exists_run hops (t := empty) rfl (List.forall_mem_nil _)
  refine ⟨t, hrun, ?_⟩
  rw [← and_assoc]
  constructor
  · obtain ⟨seen, later, hseen, hanswer, hlater⟩ := referenceListing.exists_seen_of_empty hrun
    have hperm : t.allReferences.1.Perm seen :=
      List.Perm.trans (.of_eq hanswer) (Catalog.values_group_perm _ _)
    have hseen : ops.flatMap Operation.references = seen ++ later := hseen
    rw [hseen]
    refine ⟨⟨seen, List.prefix_append seen later, hperm⟩, Iff.trans ⟨fun h => ?_, fun h => ?_⟩
      hlater⟩
    · exact eq_nil_of_perm_append (hperm.symm.trans h)
    · rwa [h, List.append_nil]
  · obtain ⟨seen, later, hseen, hanswer, hlater⟩ := definitionListing.exists_seen_of_empty hrun
    have hlists : ListsByName t.allDefinitions.1 seen :=
      (show t.allDefinitions.1 = definitionListing.view seen from hanswer) ▸ listsByName_view seen
    have hseen : ops.flatMap Operation.definitions = seen ++ later := hseen
    have hparameters : ∀ d ∈ ops.flatMap Operation.definitions,
        d.checkedChildren = [] → d.parameters = [] := by
      intro d hd
      obtain ⟨op, _, hd⟩ := List.mem_flatMap.mp hd
      exact op.forall_mem_definitions parameters_eq_nil_of_checkedChildren d hd
    rw [hseen] at hparameters ⊢
    refine ⟨⟨seen, List.prefix_append seen later, hlists⟩,
      (listsByName_append_iff hlists).trans hlater, ?_⟩
    exact (listsEach_append_iff hlists hparameters).trans (and_congr_left' hlater)

def relisted (statements : List Node) : List Operation :=
  [.listDefinitions, .collectDefinitions statements, .listDefinitions]

theorem settled_relisted (statements : List Node) :
    Settled Operation.definitions .listDefinitions (relisted statements) := by
  intro before after h
  rcases before with _ | ⟨_, _ | ⟨_, _ | ⟨_, before⟩⟩⟩
  · exact Or.inl rfl
  · cases h
  · obtain rfl : [] = after := (List.cons.inj (List.cons.inj (List.cons.inj h).2).2).2
    exact Or.inr rfl
  · simp [relisted] at h

/-- An empty listing is not kept. The parameters of the template stand under their name only. -/
theorem listings_current_iff_relisted : ∃ file t, foldedTemplate.tree.build = .ok file ∧
    empty.run (relisted file.statements) = .ok t ∧
    ListsByName t.allDefinitions.1 ((relisted file.statements).flatMap Operation.definitions) ∧
    ¬ ListsEach t.allDefinitions.1
      ((relisted file.statements).flatMap Operation.definitions) := by
  have hview : foldedTemplate.tree.build.toOption.any (fun file =>
      ((relisted file.statements).flatMap Operation.definitions).any
        (!·.checkedChildren.isEmpty)) = true := by
    decide +kernel
  obtain ⟨file, hfile, hview⟩ := (Option.any_eq_true _ _).mp hview
  obtain ⟨d, hd, hchildren⟩ := List.any_eq_true.mp hview
  have hbuild : foldedTemplate.tree.build = .ok file := Typed.eq_ok_of_toOption hfile
  have hops : ∀ op ∈ relisted file.statements, op.Reads := by
    simp [relisted, Operation.Reads, isRead_foldedTemplate hbuild]
  obtain ⟨t, hrun, _, _, _, hbyName, heach⟩ := listings_current_iff hops
  refine ⟨file, t, hbuild, hrun, hbyName.mpr (settled_relisted _), fun h => ?_⟩
  rw [(heach.mp h).2 d hd] at hchildren
  cases hchildren

/-- The definition of a second source is missing from a listing that was made after the first. -/
theorem stale_listing : Parse.strict "A: B" = .ok terminalUse ∧
    Parse.strict "a: missing\n" = .ok ruleUse ∧
    ∃ first second t, terminalUse.tree.build = .ok first ∧ ruleUse.tree.build = .ok second ∧
      empty.run [.collectDefinitions first.statements, .listDefinitions,
        .collectDefinitions second.statements] = .ok t ∧
      t.definitions.values.map Definition.name = ["A", "a"] ∧
      (t.allDefinitions.1.filterMap asDefinition).map Definition.name = ["A"] ∧
      ¬ ListsEach t.allDefinitions.1 t.definitions.values := by
  have hview : (do
      let first ← terminalUse.tree.build
      let second ← ruleUse.tree.build
      empty.run [.collectDefinitions first.statements, .listDefinitions,
        .collectDefinitions second.statements]).toOption.any (fun t : SymbolTable =>
        t.definitions.values.map Definition.name == ["A", "a"] &&
          (t.allDefinitions.1.filterMap asDefinition).map Definition.name == ["A"]) = true := by
    decide +kernel
  obtain ⟨t, ht, hview⟩ := (Option.any_eq_true _ _).mp hview
  obtain ⟨first, hfirst, ht⟩ := Typed.exists_of_toOption_bind ht
  obtain ⟨second, hsecond, ht⟩ := Typed.exists_of_toOption_bind ht
  obtain ⟨hcollected, hlisted⟩ := Bool.and_eq_true_iff.mp hview
  have hcollected := eq_of_beq hcollected
  have hlisted := eq_of_beq hlisted
  refine ⟨Parse.strict_of_settled (by decide) rfl (by decide) (by decide +kernel),
    Parse.strict_of_settled (by decide) rfl (by decide) (by decide +kernel), first, second, t,
    hfirst, hsecond, Typed.eq_ok_of_toOption ht, hcollected, hlisted, ?_⟩
  rintro ⟨tops, parameters, hall, htops, _⟩
  have hnames := congrArg List.length hlisted
  have hcount := htops.length_eq.trans
    ((List.length_map Definition.name).symm.trans (congrArg List.length hcollected))
  rw [hall, filterMap_asDefinition, List.length_map, List.length_append, hcount] at hnames
  have hnone : 2 + parameters.length = 1 := hnames
  omega

end GrammarServer.SymbolTable
