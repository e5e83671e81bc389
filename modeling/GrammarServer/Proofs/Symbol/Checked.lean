import GrammarServer.Proofs.Symbol.Catalog
import GrammarServer.Proofs.Typed.Symbols

/-!
# What the checks on symbols find

On the symbols of typed statements the checks go through. Every error they record is about a name
that is not empty, and a use of a name that no definition has is recorded unless the name is known
in the statement around it.
-/
namespace GrammarServer

/-- The name under which the statement of a reference stands: that of a rule, or the one given to
an import. -/
def Reference.owner (r : Reference) : Option String :=
  match r.node with
  | .rule _ _ name _ _ _ => some name.toText
  | .imports _ _ _ given => if given.isPresent then some given.toText else none
  | _ => none

structure Definition.IsNamed (d : Definition) : Prop where
  name_ne : d.name ≠ ""
  named_children : ∃ cs, d.children = some cs ∧ ∀ c ∈ cs, c.name ≠ ""

theorem Definition.IsNamed.isSome_children {d : Definition} (h : d.IsNamed) :
    d.children.isSome = true := by
  obtain ⟨cs, hcs, _⟩ := h.named_children
  rw [hcs, Option.isSome_some]

structure SymbolError.IsNamed (e : SymbolError) : Prop where
  cause_ne : e.cause ≠ .general
  name_ne : e.name ≠ ""

theorem SymbolError.IsNamed.width_pos {e : SymbolError} (h : e.IsNamed) : 0 < e.width := by
  have hlength : 0 < e.name.length := by
    rw [Nat.pos_iff_ne_zero]
    exact fun hzero => h.name_ne (String.length_eq_zero_iff.mp hzero)
  have hcause := h.cause_ne
  unfold width
  split
  · contradiction
  · exact hlength

namespace Check

/-! ## Errors in definitions -/

theorem isNamed_single (name : String) {ds : List Definition} (h : ∀ d ∈ ds, d.name ≠ "") :
    ∀ e ∈ single name ds, e.1.IsNamed := by
  cases ds with
  | nil =>
    refine List.forall_mem_singleton.mpr ⟨nofun, ?_⟩
    simp
  | cons first others =>
    intro e he
    obtain ⟨d, hd, rfl⟩ := List.mem_map.mp he
    exact ⟨nofun, h d (List.mem_cons_of_mem _ hd)⟩

theorem isNamed_shadowed {d : Definition} (h : d.name ≠ "") (c : Definitions) :
    ∀ e ∈ shadowed d c, e.1.IsNamed := by
  unfold shadowed
  split
  · exact List.forall_mem_singleton.mpr ⟨nofun, h⟩
  · nofun

/-! ## Uses of names -/

section

variable {ds : List Definition}

/-- Whether a name that a reference uses is known in the statement around it: the first definition
under the statement's name holds the place of the reference, or has a child of that name. -/
def isLocal (ds : List Definition) (name : String) (r : Reference) : Bool :=
  (r.owner.bind fun owner => ds.find? (·.name == owner)).any fun d =>
    d.range.contains r.range || (d.children.getD []).any (·.name == name)

theorem firstUnder_group (ds : List Definition) (name : String) :
    firstUnder (.group Definition.name ds) name = .ok (ds.find? (·.name == name)) := by
  rw [firstUnder, Catalog.get?_group, ← List.head?_filter]
  cases ds.filter (·.name == name) <;> rfl

theorem belongsTo_eq_ok {o : Option Definition} (h : ∀ d ∈ o, d.children.isSome = true)
    (name : String) (range : Range) : belongsTo name range o = .ok (o.any fun d =>
      d.range.contains range || (d.children.getD []).any (·.name == name)) := by
  cases o with
  | none => rfl
  | some d =>
    obtain ⟨cs, hcs⟩ := Option.isSome_iff_exists.mp (h d rfl)
    simp [belongsTo, Definition.childCatalog, hcs, Catalog.contains_group_eq_any]

theorem inLocalScope_group (h : ∀ d ∈ ds, d.children.isSome = true) (name : String)
    (r : Reference) :
    inLocalScope name r (.group Definition.name ds) = .ok (isLocal ds name r) := by
  have hunder : ∀ owner, (firstUnder (.group Definition.name ds) owner >>= belongsTo name r.range) =
      .ok ((ds.find? (·.name == owner)).any fun d =>
        d.range.contains r.range || (d.children.getD []).any (·.name == name)) := by
    intro owner
    rw [firstUnder_group]
    exact belongsTo_eq_ok (fun d hd => h d (List.mem_of_find?_eq_some hd)) name r.range
  unfold inLocalScope isLocal Reference.owner
  cases r.node
  case rule e modifiers ruleName parameters priority expansions => exact hunder _
  case imports e path symbols given =>
    dsimp only
    cases given.isPresent with
    | true => exact hunder _
    | false => rfl
  all_goals rfl

def undefinedUses (ds : List Definition) (name : String) (rs : List Reference) :
    List (SymbolError × Reference) :=
  if ds.any (·.name == name) then []
  else rs.filterMap fun r =>
    if isLocal ds name r then none else some (⟨.undefinedReference, name, r.position⟩, r)

theorem undefined_group (h : ∀ d ∈ ds, d.children.isSome = true) (name : String)
    (rs : List Reference) :
    undefined name rs (.group Definition.name ds) = .ok (undefinedUses ds name rs) := by
  have hstep : ∀ r ∈ rs, (do
      return (← undefinedReference name (.group Definition.name ds) r).map (·, r)) =
      Except.ok (if isLocal ds name r then none
        else some (⟨.undefinedReference, name, r.position⟩, r)) := by
    intro r _
    rw [undefinedReference, inLocalScope_group h]
    cases isLocal ds name r <;> rfl
  rw [undefined, undefinedUses, Catalog.contains_group_eq_any]
  cases ds.any (·.name == name) with
  | true => rfl
  | false =>
    rw [if_neg Bool.false_ne_true, if_neg Bool.false_ne_true, mapM_eq_ok hstep]
    exact congrArg Except.ok List.filterMap_map

/-- All references are gone through, each under its own name. -/
theorem mem_undefinedUses_group (ds : List Definition) (rs : List Reference) (e : SymbolError)
    (r : Reference) :
    (e, r) ∈ (Catalog.group Reference.name rs).entries.flatMap
        (fun entry => undefinedUses ds entry.1 entry.2) ↔
      r ∈ rs ∧ (∀ d ∈ ds, d.name ≠ r.name) ∧ isLocal ds r.name r = false ∧
        e = ⟨.undefinedReference, r.name, r.position⟩ := by
  have huses : ∀ name uses, (e, r) ∈ undefinedUses ds name uses ↔
      (∀ d ∈ ds, d.name ≠ name) ∧ r ∈ uses ∧ isLocal ds name r = false ∧
        e = ⟨.undefinedReference, name, r.position⟩ := by
    intro name uses
    unfold undefinedUses
    split
    · rename_i hany
      simp only [List.any_eq_true, beq_iff_eq] at hany
      obtain ⟨d, hd, hname⟩ := hany
      exact iff_of_false (by simp) fun hundefined => hundefined.1 d hd hname
    · rename_i hany
      simp only [List.any_eq_true, beq_iff_eq, not_exists, not_and] at hany
      grind
  rw [List.mem_flatMap]
  constructor
  · rintro ⟨⟨name, uses⟩, hentry, hmem⟩
    obtain ⟨rfl, _⟩ := (Catalog.mem_entries_group _ _).mp hentry
    obtain ⟨hundefined, hused, hlocal, rfl⟩ := (huses _ _).mp hmem
    obtain ⟨hr, hname⟩ := List.mem_filter.mp hused
    rw [beq_iff_eq] at hname
    subst hname
    exact ⟨hr, hundefined, hlocal, rfl⟩
  · rintro ⟨hr, hundefined, hlocal, he⟩
    have hmem : r ∈ rs.filter (·.name == r.name) := List.mem_filter.mpr ⟨hr, by simp⟩
    exact ⟨(r.name, _), (Catalog.mem_entries_group _ _).mpr ⟨rfl, List.ne_nil_of_mem hmem⟩,
      (huses _ _).mpr ⟨hundefined, hmem, hlocal, he⟩⟩

end

end Check

/-! ## Tables -/

namespace SymbolTable

variable {t : SymbolTable} {ds : List Definition}

theorem isNamed_definitionErrors (hds : t.definitions = .group Definition.name ds)
    (h : ∀ d ∈ ds, d.IsNamed) (hold : ∀ e ∈ t.definitionErrors, e.1.IsNamed) :
    ∀ e ∈ t.validateDefinitions.definitionErrors, e.1.IsNamed := by
  have hchildren : ∀ x ∈ t.ruleChildren, ∀ c ∈ x.2, c.name ≠ "" := by
    rintro ⟨name, cs⟩ hx c hc
    obtain ⟨d, hd, hx⟩ := List.mem_flatMap.mp hx
    rw [definitionsOfKind, hds] at hd
    have hmem : d ∈ ds := (Catalog.mem_values_group _ _).mp (List.mem_of_mem_filter hd)
    obtain ⟨all, hall, hnamed⟩ := (h d hmem).named_children
    simp only [Definition.childCatalog, hall, Option.map_some] at hx
    obtain ⟨rfl, _⟩ := (Catalog.mem_entries_group _ _).mp hx
    exact hnamed c (List.mem_of_mem_filter hc)
  simp only [validateDefinitions, List.forall_mem_append, List.forall_mem_flatMap]
  refine ⟨⟨hold, ?_⟩, ?_⟩
  · rintro ⟨name, xs⟩ hentry
    rw [hds] at hentry
    obtain ⟨rfl, _⟩ := (Catalog.mem_entries_group _ _).mp hentry
    exact Check.isNamed_single name fun d hd => (h d (List.mem_of_mem_filter hd)).name_ne
  · intro x hx
    refine ⟨Check.isNamed_single x.1 (hchildren x hx), ?_⟩
    exact fun c hc => Check.isNamed_shadowed (hchildren x hx c hc) _

/-- References are checked without fail if there is a place for the children of each definition. -/
theorem validateReferences_group (hds : t.definitions = .group Definition.name ds)
    (h : ∀ d ∈ ds, d.children.isSome = true) :
    t.validateReferences = .ok { t with
      referenceErrors := t.referenceErrors ++
        t.references.entries.flatMap fun entry => Check.undefinedUses ds entry.1 entry.2 } := by
  have hstep : ∀ entry ∈ t.references.entries,
      Check.undefined entry.1 entry.2 t.definitions =
        .ok (Check.undefinedUses ds entry.1 entry.2) := by
    intro entry _
    rw [hds, Check.undefined_group h]
  rw [validateReferences, mapM_eq_ok hstep, List.flatMap_def]
  rfl

theorem validateReferences_eq_ok (hds : t.definitions = .group Definition.name ds)
    (h : ∀ d ∈ ds, d.IsNamed) :
    t.validateReferences = .ok { t with
      referenceErrors := t.referenceErrors ++
        t.references.entries.flatMap fun entry => Check.undefinedUses ds entry.1 entry.2 } :=
  validateReferences_group hds fun d hd => (h d hd).isSome_children

end SymbolTable

namespace Typed

theorem Word.toText_ne {t : Terminal} (x : Word t) : String.ofList x.text ≠ "" :=
  beq_eq_false_iff_ne.mp x.token_text_ne

theorem Name.toText_ne (x : Name) : String.ofList x.text ≠ "" := by
  cases x <;> exact Word.toText_ne _

theorem Name.reference_name (x : Name) (about : Node) :
    (x.lexeme.token.reference about).name = String.ofList x.text := by
  cases x <;> rfl

theorem isNamed_of_childless {d : GrammarServer.Definition} (hname : d.name ≠ "")
    (hchildren : d.children = some []) : d.IsNamed :=
  ⟨hname, [], hchildren, nofun⟩

theorem Definition.isNamed_main (d : Definition) : d.main.IsNamed := by
  cases d with
  | rule e signs name parameters priority body =>
    refine ⟨name.toText_ne, _, rfl, ?_⟩
    intro c hc
    obtain ⟨x, _, rfl⟩ := List.mem_map.mp hc
    exact x.toText_ne
  | term e name priority body => exact isNamed_of_childless name.toText_ne rfl

theorem Statement.isNamed_definitions (s : Statement) : ∀ d ∈ s.definitions, d.IsNamed := by
  refine s.forall_mem_definitions ?_ ?_ ?_
  · rintro d rfl
    exact ⟨d.isNamed_main, fun a _ => isNamed_of_childless a.2.toText_ne rfl⟩
  · exact fun directive x _ => isNamed_of_childless x.toText_ne rfl
  · rintro e path name rfl
    refine List.forall_mem_singleton.mpr ⟨name.toText_ne, _, rfl, ?_⟩
    exact List.forall_mem_singleton.mpr path.last.toText_ne

theorem isNamed_flatMap (ss : List Statement) :
    ∀ d ∈ ss.flatMap Statement.definitions, d.IsNamed :=
  List.forall_mem_flatMap.mpr fun s _ => s.isNamed_definitions

/-- Symbols are collected from statements and checked without fail. -/
theorem exists_checked (ss : List Statement) : ∃ defined collected checked,
    SymbolTable.empty.collectDefinitions (ss.map Statement.node) = .ok defined ∧
    defined.validateDefinitions.collectReferences (ss.map Statement.node) = .ok collected ∧
    collected.validateReferences = .ok checked ∧
    checked.definitionErrors = defined.validateDefinitions.definitionErrors ∧
    (∀ e ∈ checked.definitionErrors, e.1.IsNamed) ∧
    ∀ e ∈ checked.referenceErrors, e.1.IsNamed := by
  have hnamed := isNamed_flatMap ss
  refine ⟨_, _, _, collectDefinitions_nodes ss, collectReferences_nodes ss _ rfl,
    SymbolTable.validateReferences_eq_ok rfl hnamed, rfl, ?_, ?_⟩
  · exact SymbolTable.isNamed_definitionErrors rfl hnamed nofun
  · rintro ⟨e, r⟩ he
    obtain ⟨hr, _, _, rfl⟩ := (Check.mem_undefinedUses_group _ _ e r).mp he
    obtain ⟨s, _, hr⟩ := List.mem_flatMap.mp hr
    obtain ⟨x, _, rfl⟩ := List.mem_map.mp hr
    exact ⟨nofun, x.reference_name s.node ▸ x.toText_ne⟩

end Typed

end GrammarServer
