import GrammarServer.Proofs.Document.Formatted
import GrammarServer.Proofs.Document.Usages
import GrammarServer.Proofs.Document.Words
import GrammarServer.Proofs.Symbol.Lookup

/-!
# The views of a document

The outline, the completions, the place of a definition and the text that is shown over a word all
come from the definitions of a document, each in a way of its own: one list of all of them, the
first under a name, or all under a name. For the document of any source they agree, and none of them
fails.
-/
namespace GrammarServer

theorem exists_mapM_map {α β γ : Type} {f : α → Except Fault β} {g : β → γ} {k : α → γ}
    {as : List α} (h : ∀ a ∈ as, ∃ b, f a = .ok b ∧ g b = k a) :
    ∃ bs, as.mapM f = .ok bs ∧ bs.map g = as.map k := by
  induction as with
  | nil => exact ⟨[], rfl, rfl⟩
  | cons a as ih =>
    obtain ⟨⟨b, hb, hgb⟩, has⟩ := List.forall_mem_cons.mp h
    obtain ⟨bs, hbs, hgbs⟩ := ih has
    rw [List.mapM_cons, hb, hbs, List.map_cons, ← hgb, ← hgbs]
    exact ⟨b :: bs, rfl, rfl⟩

def Outline.range : Outline → Range
  | entry _ _ range _ _ => range

namespace Definition

theorem name_outline (d : Definition) : d.outline.name = d.name := by
  cases d
  rw [outline]
  rfl

theorem range_outline (d : Definition) : d.outline.range = d.range := by
  cases d
  rw [outline]
  rfl

structure IsPresentable (d : Definition) : Prop where
  completion : ∃ c, d.completion = .ok c ∧ c.label = d.name
  documentation : ∃ text, d.documentation = .ok text

end Definition

namespace Typed

theorem Statement.exists_origin (s : Statement) : ∀ d ∈ s.definitions,
    ∃ text, d.origin = .ok text := by
  cases s with
  | definition d =>
    refine List.forall_mem_cons.mpr ⟨?_, List.forall_mem_map.mpr fun a _ => ⟨_, rfl⟩⟩
    cases d <;> exact ⟨_, rfl⟩
  | override | extend | ignore | comment => exact List.forall_mem_nil _
  | declare e first more => exact List.forall_mem_map.mpr fun x _ => ⟨_, rfl⟩
  | imports e source =>
    intro d hd
    rw [GrammarServer.Definition.origin, Statement.node_definitions _ d hd]
    cases source <;> split <;> exact ⟨_, rfl⟩

theorem Statement.exists_kind (s : Statement) :
    ∀ d ∈ s.definitions, ∃ kind, d.kind = some kind := by
  refine s.forall_mem_definitions ?_ (fun _ _ _ => ⟨_, rfl⟩) ?_
  · rintro d rfl
    exact ⟨by cases d <;> exact ⟨_, rfl⟩, fun _ _ => ⟨_, rfl⟩⟩
  · rintro e path name rfl
    exact List.forall_mem_singleton.mpr ⟨_, rfl⟩

theorem Statement.isPresentable (s : Statement) : ∀ d ∈ s.definitions, d.IsPresentable := by
  intro d hd
  obtain ⟨kind, hkind⟩ := s.exists_kind d hd
  constructor
  · rw [GrammarServer.Definition.completion, hkind]
    exact ⟨_, rfl, rfl⟩
  · rw [GrammarServer.Definition.documentation, GrammarServer.Definition.quotation,
      s.node_definitions d hd]
    refine exists_bind ?_ fun _ => exists_bind (s.exists_origin d hd) fun _ => ⟨_, rfl⟩
    split
    · exact exists_bind (s.hasLayout _) fun _ => ⟨_, rfl⟩
    · exact ⟨_, rfl⟩

end Typed

namespace SymbolTable

variable {t : SymbolTable} {ds : List Definition} {name : String}

theorem exists_get?_of_find? (hds : t.definitions = .group Definition.name ds) {first : Definition}
    (h : ds.find? (·.name == name) = some first) : ∃ rest, t.get? name = some (first :: rest) := by
  rw [← head?_get? hds] at h
  obtain ⟨under, hunder, hfirst⟩ := Option.bind_eq_some_iff.mp h
  obtain ⟨rest, rfl⟩ := List.head?_eq_some_iff.mp hfirst
  exact ⟨rest, hunder⟩

theorem get?_of_find?_eq_none (hds : t.definitions = .group Definition.name ds)
    (h : ds.find? (·.name == name) = none) : t.get? name = none := by
  rw [get?, hds, Catalog.get?_group, if_pos]
  exact List.filter_eq_nil_iff.mpr (List.find?_eq_none.mp h)

theorem definition?_of_find? (hds : t.definitions = .group Definition.name ds) {first : Definition}
    (h : ds.find? (·.name == name) = some first) : t.definition? name = some first := by
  obtain ⟨rest, hrest⟩ := exists_get?_of_find? hds h
  rw [definition?, hrest]

end SymbolTable

namespace Document

/-- A place outside the text has no word, so every place can be looked up. -/
theorem exists_wordAt (d : Document) (line column : Nat) :
    ∃ word, d.wordAt line column = .ok word := by
  rcases Nat.lt_or_ge line d.lines.length with hline | hline
  · have hto : (line : Int) < d.lines.length := by omega
    obtain ⟨text, htext, _⟩ := exists_line (by omega) hto
    rcases Nat.lt_or_ge column text.length with hcolumn | hcolumn
    · rcases wordAt_cases htext hto hcolumn with ⟨_, hnone⟩ | ⟨_, _, _, _, _, hfound⟩
      · exact ⟨_, hnone⟩
      · exact ⟨_, hfound⟩
    · have houtside : (column : Int) ≥ text.toList.length := by
        rw [String.length_toList]
        omega
      simp only [wordAt, if_neg (Int.not_le.mpr hto), htext, Typed.ok_bind, if_pos houtside]
      exact ⟨none, rfl⟩
  · have houtside : (line : Int) ≥ d.lines.length := by omega
    rw [wordAt, if_pos houtside]
    exact ⟨none, rfl⟩

section

variable {d : Document} {ds : List Definition}

theorem map_name_outline (d : Document) :
    d.outline.map Outline.name = d.table.definitions.values.map Definition.name := by
  rw [outline, List.map_map]
  exact List.map_congr_left fun x _ => x.name_outline

theorem mem_map_name_outline (hds : d.table.definitions = .group Definition.name ds)
    {name : String} : name ∈ d.outline.map Outline.name ↔ ∃ x ∈ ds, x.name = name := by
  rw [map_name_outline, List.mem_map, hds]
  simp only [Catalog.mem_values_group]

theorem exists_find?_of_mem (hds : d.table.definitions = .group Definition.name ds) {name : String}
    (h : name ∈ d.outline.map Outline.name) :
    ∃ first ∈ ds, ds.find? (·.name == name) = some first := by
  obtain ⟨x, hx, hname⟩ := (mem_map_name_outline hds).mp h
  have hsome : (ds.find? (·.name == name)).isSome = true :=
    List.find?_isSome.mpr ⟨x, hx, beq_iff_eq.mpr hname⟩
  obtain ⟨first, hfirst⟩ := Option.isSome_iff_exists.mp hsome
  exact ⟨first, List.mem_of_find?_eq_some hfirst, hfirst⟩

theorem find?_eq_none_of_not_mem (hds : d.table.definitions = .group Definition.name ds)
    {name : String} (h : name ∉ d.outline.map Outline.name) :
    ds.find? (·.name == name) = none := by
  refine List.find?_eq_none.mpr fun x hx hname => h ?_
  exact (mem_map_name_outline hds).mpr ⟨x, hx, eq_of_beq hname⟩

theorem exists_completions (hds : d.table.definitions = .group Definition.name ds)
    (h : ∀ x ∈ ds, x.IsPresentable) : ∃ found, d.completions = .ok found ∧
      found.map Completion.label = d.outline.map Outline.name ++ keywords := by
  have hshown : ∀ x ∈ d.table.definitions.values, ∃ c, x.completion = .ok c ∧ c.label = x.name := by
    rw [hds]
    exact fun x hx => (h x ((Catalog.mem_values_group _ _).mp hx)).completion
  obtain ⟨found, hfound, hlabels⟩ := exists_mapM_map hshown
  rw [completions, hfound, map_name_outline, ← hlabels]
  exact ⟨_, rfl, List.map_append⟩

theorem find?_outline (hds : d.table.definitions = .group Definition.name ds) (name : String) :
    d.outline.find? (·.name == name) = (ds.find? (·.name == name)).map Definition.outline := by
  rw [outline, List.find?_map, ← Catalog.find?_values_group, ← hds]
  congr 2
  exact funext fun x => congrArg (· == name) x.name_outline

theorem definitionLocation_of_find? (hds : d.table.definitions = .group Definition.name ds)
    {name : String} {first : Definition} (h : ds.find? (·.name == name) = some first) :
    d.definitionLocation name = some ⟨d.uri, first.range⟩ := by
  rw [definitionLocation, SymbolTable.definition?_of_find? hds h]
  rfl

theorem hover_of_wordAt_none {line column : Int} (hword : d.wordAt line column = .ok none) :
    d.hover line column = .ok none := by
  rw [hover, hword]
  rfl

theorem hover_of_find? (hds : d.table.definitions = .group Definition.name ds)
    {line column start stop : Int} {name contents : String}
    (hword : d.wordAt line column = .ok (some (name, start, stop))) {first : Definition}
    (hfirst : ds.find? (·.name == name) = some first)
    (hcontents : first.documentation = .ok contents) :
    d.hover line column = .ok (some ⟨contents, ⟨⟨line, start⟩, ⟨line, stop⟩⟩⟩) := by
  obtain ⟨rest, hrest⟩ := SymbolTable.exists_get?_of_find? hds hfirst
  simp only [hover, hword, Typed.ok_bind, hrest, Definition.hover, hcontents]
  rfl

theorem hover_of_find?_eq_none (hds : d.table.definitions = .group Definition.name ds)
    {line column start stop : Int} {name : String}
    (hword : d.wordAt line column = .ok (some (name, start, stop)))
    (hnone : ds.find? (·.name == name) = none) : d.hover line column = .ok none := by
  simp only [hover, hword, Typed.ok_bind, SymbolTable.get?_of_find?_eq_none hds hnone]
  rfl

end

/-- Completions, definitions and texts over words are those of the outline: its names in their
order, the first entry of each, and something over a word exactly if it is one of them. -/
theorem views_agree (load : Loader) (uri source : String) :
    let d := ofText load uri source
    (∃ found, d.completions = .ok found ∧ found.map Completion.label =
      d.outline.map Outline.name ++ ["import", "ignore", "override", "extend", "declare"]) ∧
    (∀ name ∈ d.outline.map Outline.name, ∃ first,
      d.outline.find? (·.name == name) = some first ∧
        d.definitionLocation name = some ⟨uri, first.range⟩) ∧
    ∀ line column : Nat,
      d.wordAt line column = .ok none ∧ d.hover line column = .ok none ∨
      ∃ name start stop, d.wordAt line column = .ok (some (name, start, stop)) ∧
        (name ∉ d.outline.map Outline.name → d.hover line column = .ok none) ∧
        (name ∈ d.outline.map Outline.name → ∃ first contents,
          d.table.definition? name = some first ∧ first.documentation = .ok contents ∧
            d.hover line column = .ok (some ⟨contents, ⟨⟨line, start⟩, ⟨line, stop⟩⟩⟩)) := by
  intro d
  obtain ⟨ss, hholds⟩ := exists_holds load uri source
  have hds : d.table.definitions =
      .group Definition.name (ss.flatMap Typed.Statement.definitions) := hholds.definitions_eq
  have hpresentable : ∀ x ∈ ss.flatMap Typed.Statement.definitions, x.IsPresentable := by
    intro x hx
    obtain ⟨s, _, hxs⟩ := List.mem_flatMap.mp hx
    exact s.isPresentable x hxs
  refine ⟨exists_completions hds hpresentable, ?_, ?_⟩
  · intro name hname
    obtain ⟨first, _, hfirst⟩ := exists_find?_of_mem hds hname
    rw [find?_outline hds, hfirst, definitionLocation_of_find? hds hfirst, ← first.range_outline,
      hholds.uri_eq]
    exact ⟨first.outline, rfl, rfl⟩
  · intro line column
    obtain ⟨word, hword⟩ := exists_wordAt d line column
    rcases word with _ | ⟨name, start, stop⟩
    · exact Or.inl ⟨hword, hover_of_wordAt_none hword⟩
    · refine Or.inr ⟨name, start, stop, hword, fun hname => ?_, fun hname => ?_⟩
      · exact hover_of_find?_eq_none hds hword (find?_eq_none_of_not_mem hds hname)
      · obtain ⟨first, hmem, hfirst⟩ := exists_find?_of_mem hds hname
        obtain ⟨contents, hcontents⟩ := (hpresentable first hmem).documentation
        exact ⟨first, contents, SymbolTable.definition?_of_find? hds hfirst, hcontents,
          hover_of_find? hds hword hfirst hcontents⟩

/-- The names and ranges in the outline of two rules of one name. -/
theorem outline_ruleTwice :
    (ofText .idle "u" "a.1: B\na: B").outline.map (fun entry => (entry.name, entry.range)) =
      [("a", ⟨⟨0, 0⟩, ⟨0, 6⟩⟩), ("a", ⟨⟨1, 0⟩, ⟨1, 4⟩⟩)] := by
  have hparse : Parse.recovering "a.1: B\na: B" = ⟨[], .ok ruleTwice⟩ :=
    Parse.recovering_of_settled (by decide) rfl (by decide) (by decide +kernel)
  have hresult : (Parse.recovering "a.1: B\na: B").result = .ok ruleTwice := by rw [hparse]
  have hview : (do
      let file ← ruleTwice.tree.build
      let defined ← SymbolTable.empty.collectDefinitions file.statements
      let collected ← defined.validateDefinitions.collectReferences file.statements
      let checked ← collected.validateReferences
      return checked.definitions.values.map fun x : Definition => (x.name, x.range)).toOption =
        some [("a", ⟨⟨0, 0⟩, ⟨0, 6⟩⟩), ("a", ⟨⟨1, 0⟩, ⟨1, 4⟩⟩)] := by
    decide +kernel
  obtain ⟨file, hbuild, hview⟩ := Typed.exists_of_toOption_bind hview
  obtain ⟨defined, collected, checked, hdefined, hcollected, hchecked, hkept, _⟩ :=
    exists_checked_file hresult hbuild
  rw [hdefined, Typed.ok_bind, hcollected, Typed.ok_bind, hchecked, Typed.ok_bind] at hview
  rw [ofText_of_file .idle "u" hresult hbuild hdefined hcollected hchecked hkept, outline,
    List.map_map, ← Option.some.inj hview]
  exact List.map_congr_left fun x _ => Prod.ext x.name_outline x.range_outline

/-- Both rules of one name lead to the first, also from the place of the second. -/
theorem views_agree_ruleTwice :
    (ofText .idle "u" "a.1: B\na: B").definitionLocation "a" = some ⟨"u", ⟨⟨0, 0⟩, ⟨0, 6⟩⟩⟩ ∧
    ∃ contents, (ofText .idle "u" "a.1: B\na: B").hover 1 1 =
      .ok (some ⟨contents, ⟨⟨1, 0⟩, ⟨1, 1⟩⟩⟩) := by
  obtain ⟨_, hlocations, hhovers⟩ := views_agree .idle "u" "a.1: B\na: B"
  have hentries := outline_ruleTwice
  have hname : "a" ∈ (ofText .idle "u" "a.1: B\na: B").outline.map Outline.name := by
    have hnames := congrArg (List.map Prod.fst) hentries
    rw [List.map_map] at hnames
    exact hnames ▸ List.mem_cons_self
  constructor
  · obtain ⟨first, hfirst, hlocation⟩ := hlocations "a" hname
    have hpair := congrArg (List.find? (·.1 == "a")) hentries
    rw [List.find?_map] at hpair
    have hsame := Option.some.inj ((congrArg (Option.map _) hfirst).symm.trans hpair)
    rw [hlocation, (Prod.mk.inj hsame).2]
  · have hword : (ofText .idle "u" "a.1: B\na: B").wordAt 1 1 = .ok (some ("a", 0, 1)) := by
      rw [wordAt_ofText]
      rfl
    rcases hhovers 1 1 with ⟨hnone, _⟩ | ⟨name, start, stop, hfound, _, hshown⟩
    · cases hword.symm.trans hnone
    · cases hword.symm.trans hfound
      obtain ⟨first, contents, _, _, hhover⟩ := hshown hname
      exact ⟨contents, hhover⟩

end Document

end GrammarServer
