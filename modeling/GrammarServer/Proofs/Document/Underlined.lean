import GrammarServer.Proofs.Document.ErrorPlaces
import GrammarServer.Proofs.Symbol.Doubled

/-!
# What the errors in symbols underline

An error in a symbol has the place of a name, and its diagnostic has a range of its own: the place
is moved into the text and the width of the error is added. In a source that breaks its lines
plainly the place lies in the text, so that it is not moved, and the range is the one that the
symbol has for its name.
-/
namespace GrammarServer

/-- A text whose line breaks are plain has only plain ones in front of any other character. -/
theorem Text.breaksPlainly_of_append {c : Char} (hc : c ≠ '\n') (rest before : List Char) :
    breaksPlainly (before ++ c :: rest) = true → breaksPlainly before = true := by
  induction before using breaksPlainly.induct with
  | case1 => exact fun _ => rfl
  | case2 cs ih => exact ih
  | case3 d cs hpair ih =>
    rcases pair_across hpair (c :: rest) with ⟨_, _, ds, hds⟩ | hpair'
    · exact absurd (List.cons.inj hds).1 hc
    · rw [List.cons_append, breaksPlainly_cons hpair', breaksPlainly_cons hpair, Bool.and_eq_true,
        Bool.and_eq_true]
      exact And.imp_right ih

/-- A range that some lines show a name under, and that is as long as the name. -/
structure Range.Underlines (lines : List String) (r : Range) (name : String) : Prop where
  along_eq : Range.along r.start name = r
  showsIn : r.ShowsIn lines name

theorem Definition.Selects.of_mem {P : Range → String → Prop} {ds : List Definition}
    (h : ∀ d ∈ ds, d.Selects P) {x : Definition} (hx : x ∈ ds ∨ ∃ y ∈ ds, x ∈ y.children.getD []) :
    P x.selection x.name := by
  have hself : ∀ {d : Definition}, d.Selects P → P d.selection d.name := by
    rintro d ⟨hselection, _⟩
    exact hselection
  rcases hx with hx | ⟨y, hy, hxy⟩
  · exact hself (h x hx)
  · obtain ⟨_, hchildren⟩ := h y hy
    exact hself (hchildren x hxy)

/-- The error is about a name, starts where a range does and is as long as the name; its diagnostic
has this range, and the lines show the name under it. -/
structure SymbolError.Underlines (lines : List String) (r : Range) (name : String)
    (e : SymbolError) : Prop where
  name_eq : e.name = name
  position_eq : e.position = r.start
  width_eq : e.width = name.length
  range_eq : ((Problem.ofSymbolError e).diagnostic lines (some .error)).range = r
  showsIn : r.ShowsIn lines name

/-- A problem that lies in the text is not moved. -/
theorem Problem.range_diagnostic {p : Problem} {lines : List String} {r : Range} {name : String}
    (h : r.Underlines lines name) (hline : p.line = r.start.line)
    (hcolumn : p.column = r.start.column)
    (hwidth : p.width = name.length) (severity : Option Severity) :
    (p.diagnostic lines severity).range = r := by
  obtain ⟨halong, line, first, last, text, htext, hstart, hstop, hlast, _⟩ := h
  rw [← halong, Range.along, hstart] at hstop
  have hlast' : ((first : Int) + name.length) = last := congrArg Position.column hstop
  obtain ⟨hlt, _⟩ := List.getElem?_eq_some_iff.mp htext
  rw [hstart] at hline hcolumn
  have hclamped : min (max 0 (line : Int)) (max 0 ((lines.length : Int) - 1)) = line := by omega
  have hfound : lines.getD (line : Int).toNat "" = text := by
    rw [Int.toNat_natCast, List.getD_eq_getElem?_getD, htext, Option.getD_some]
  have hkept : min (max 0 (first : Int)) text.length = first := by omega
  rw [← halong, Range.along, hstart]
  simp only [diagnostic, hline, hcolumn, hwidth, hclamped, hfound, hkept]

theorem SymbolError.underlines {lines : List String} {r : Range} {name : String}
    (h : r.Underlines lines name) {cause : Cause} (hcause : cause ≠ .general) :
    (SymbolError.mk cause name r.start).Underlines lines r name := by
  have hwidth : (SymbolError.mk cause name r.start).width = name.length := by
    cases cause with
    | general => exact absurd rfl hcause
    | notFound | shadowed | multiple | undefinedReference => rfl
  refine ⟨rfl, rfl, hwidth, ?_, h.showsIn⟩
  exact Problem.range_diagnostic h rfl rfl (congrArg Nat.cast hwidth) _

/-- In a source that breaks its lines plainly, the range of a name underlines it. -/
theorem Typed.Name.underlines_range {source : String}
    (hplain : Text.breaksPlainly source.toList = true) (x : Name) (h : x.lexeme.OccursIn source) :
    x.Relates (Range.Underlines (Text.lines source)) := by
  obtain ⟨before, after, hsource, _, hrange, _, hshows⟩ := x.points_range h
  have htext : (String.ofList x.lexeme.text).toList = x.lexeme.text := String.toList_ofList
  have hwidth := x.width_pos
  rw [x.withoutSigns_token] at hwidth
  obtain ⟨c, cs, hcs⟩ := List.exists_cons_of_ne_nil (List.ne_nil_of_length_pos hwidth)
  have hc : c ≠ '\n' := by
    rintro rfl
    exact x.newline_not_mem (hcs ▸ List.mem_cons_self)
  rw [htext, hcs] at hsource
  have hbefore : Text.breaksPlainly before = true := by
    rw [hsource] at hplain
    exact Text.breaksPlainly_of_append hc _ before hplain
  refine ⟨?_, hshows hbefore⟩
  rw [hrange]
  rfl

namespace Document

/-- Behind plain line breaks, the diagnostic of an error in a definition has the selection of that
definition or of a child, and that of one in a reference its range; the name stands there. -/
theorem symbol_errors_underline (load : Loader) (uri : String) {source : String}
    (hplain : Text.breaksPlainly source.toList = true) :
    let d := ofText load uri source
    (∃ failures, (∀ p ∈ failures, p.IsFailure) ∧ d.diagnostics =
      (parseProblems source ++ symbolProblems d.table ++ failures).map
        (Problem.diagnostic d.lines (some .error))) ∧
    (∀ e ∈ d.table.definitionErrors, ∃ x, e.2 = some x ∧
      (x ∈ d.table.definitions.values ∨
        ∃ y ∈ d.table.definitions.values, x ∈ y.children.getD []) ∧
      e.1.Underlines d.lines x.selection x.name) ∧
    ∀ e ∈ d.table.referenceErrors, e.2 ∈ d.table.references.values ∧
      e.1.Underlines d.lines e.2.range e.2.name := by
  intro d
  obtain ⟨ss, failures, hreports⟩ := exists_reports load uri source
  have hunderlined : ∀ s ∈ ss, ∀ x ∈ s.uses, x.Relates (Range.Underlines d.lines) := by
    intro s hs x hx
    rw [hreports.lines_eq]
    apply x.underlines_range hplain
    apply occursIn_of_mem_readUses
    rw [hreports.uses_eq]
    exact List.mem_map_of_mem (List.mem_flatMap.mpr ⟨s, hs, hx⟩)
  have hselects : ∀ x ∈ ss.flatMap Typed.Statement.definitions,
      x.Selects (Range.Underlines d.lines) := by
    intro x hx
    obtain ⟨s, hs, hxs⟩ := List.mem_flatMap.mp hx
    exact Typed.Statement.selects_definitions (hunderlined s hs) x hxs
  have htable : d.table = Typed.checkedTable ss := hreports.table_eq
  refine ⟨⟨failures, hreports.isFailure, hreports.diagnostics_eq⟩, ?_, ?_⟩
  · rw [htable]
    intro e he
    obtain ⟨cause, x, rfl, hcause, hx⟩ :=
      SymbolTable.exists_recordedAs (t := Typed.table ss) rfl rfl e he
    have hvalues (y : Definition) : y ∈ (Typed.checkedTable ss).definitions.values ↔
        y ∈ ss.flatMap Typed.Statement.definitions := Catalog.mem_values_group _ _
    have hselected := Definition.Selects.of_mem hselects hx
    have hnamed : cause ≠ .general := by rcases hcause with rfl | rfl <;> nofun
    simp only [hvalues]
    exact ⟨x, rfl, hx, SymbolError.underlines hselected hnamed⟩
  · rw [htable]
    rintro ⟨e, r⟩ he
    obtain ⟨hr, _, _, rfl⟩ := (Check.mem_undefinedUses_group _ _ e r).mp he
    refine ⟨(Catalog.mem_values_group _ _).mpr hr, ?_⟩
    obtain ⟨s, hs, hrs⟩ := List.mem_flatMap.mp hr
    obtain ⟨x, hx, rfl⟩ := List.mem_map.mp hrs
    exact SymbolError.underlines (hunderlined s hs x hx) nofun

/-- A template goes on in a second line, and a rule stands behind a carriage return. -/
theorem symbol_errors_underline_foldedTemplate :
    Text.breaksPlainly "a\x7bx, \\\n x\x7d: B -> a\r\na: B".toList = true ∧
    let d := ofText .idle "u" "a\x7bx, \\\n x\x7d: B -> a\r\na: B"
    (∃ e ∈ d.table.definitionErrors, e.1.position = ⟨1, 1⟩ ∧ ∃ x, e.2 = some x ∧ x.name = "x" ∧
      e.1.Underlines d.lines x.selection x.name) ∧
    ∃ e ∈ d.table.referenceErrors, e.1.position = ⟨2, 3⟩ ∧ e.2.name = "B" ∧
      e.1.Underlines d.lines e.2.range e.2.name := by
  have hplain : Text.breaksPlainly "a\x7bx, \\\n x\x7d: B -> a\r\na: B".toList = true := by decide
  have hparse : Parse.recovering "a\x7bx, \\\n x\x7d: B -> a\r\na: B" = ⟨[], .ok foldedTemplate⟩ :=
    Parse.recovering_of_settled (by decide) rfl (by decide) (by decide +kernel)
  have hview : ((do
      let file ← foldedTemplate.tree.build
      let defined ← SymbolTable.empty.collectDefinitions file.statements
      let collected ← defined.validateDefinitions.collectReferences file.statements
      let checked ← collected.validateReferences
      return (checked.definitionErrors.map Prod.fst, checked.referenceErrors.map Prod.fst) :
        Except Fault (List SymbolError × List SymbolError))).toOption =
      some ([⟨.multiple, "a", ⟨1, 10⟩⟩, ⟨.multiple, "a", ⟨2, 0⟩⟩, ⟨.multiple, "x", ⟨1, 1⟩⟩],
        [⟨.undefinedReference, "B", ⟨2, 3⟩⟩]) := by
    decide +kernel
  have hresult : (Parse.recovering "a\x7bx, \\\n x\x7d: B -> a\r\na: B").result =
      .ok foldedTemplate := by
    rw [hparse]
  obtain ⟨file, hbuild, hview⟩ := Typed.exists_of_toOption_bind hview
  obtain ⟨defined, collected, checked, hdefined, hcollected, hchecked, hkept, _⟩ :=
    exists_checked_file hresult hbuild
  rw [hdefined, Typed.ok_bind, hcollected, Typed.ok_bind, hchecked, Typed.ok_bind] at hview
  obtain ⟨hdefinitions, hreferences⟩ := Prod.mk.inj (Option.some.inj hview)
  have hmultiple : (⟨.multiple, "x", ⟨1, 1⟩⟩ : SymbolError) ∈
      checked.definitionErrors.map Prod.fst := by
    rw [hdefinitions]
    decide
  have hundefined : (⟨.undefinedReference, "B", ⟨2, 3⟩⟩ : SymbolError) ∈
      checked.referenceErrors.map Prod.fst := by
    rw [hreferences]
    decide
  obtain ⟨e, he, hex⟩ := List.mem_map.mp hmultiple
  obtain ⟨f, hf, hfB⟩ := List.mem_map.mp hundefined
  have hdocument := ofText_of_file .idle "u" hresult hbuild hdefined hcollected hchecked hkept
  obtain ⟨_, hunderlined, hunderlined'⟩ := symbol_errors_underline .idle "u" hplain
  rw [hdocument] at hunderlined hunderlined' ⊢
  obtain ⟨x, hx, _, hselection⟩ := hunderlined e he
  obtain ⟨_, hrange⟩ := hunderlined' f hf
  have hname : x.name = "x" := by rw [← hselection.name_eq, hex]
  have hname' : f.2.name = "B" := by rw [← hrange.name_eq, hfB]
  exact ⟨hplain, ⟨e, he, by rw [hex], x, hx, hname, hselection⟩, f, hf, by rw [hfB], hname', hrange⟩

end Document

end GrammarServer
