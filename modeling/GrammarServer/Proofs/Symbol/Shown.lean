import GrammarServer.Proofs.Document.Edit
import GrammarServer.Proofs.Lexeme.Partition
import GrammarServer.Proofs.Parse.Apart
import GrammarServer.Proofs.Symbol.Undefined

/-!
# Symbols show their names

The range of a symbol, looked up among the lines of the source, shows the name of the symbol. The
names that are used follow one another in the text, so no place is used twice, and each of them
lies in one statement only, the one it was collected from.
-/
namespace GrammarServer

/-! ## Lines of a text -/

namespace Text

theorem piecesAt_append_mark (mark : Char) (cs ds : List Char) :
    piecesAt mark (cs ++ mark :: ds) = piecesAt mark cs ++ piecesAt mark ds := by
  induction cs with
  | nil =>
    have hmark : piecesAt mark (mark :: ds) = [] :: piecesAt mark ds := by
      rw [piecesAt, if_pos (beq_self_eq_true mark)]
    exact hmark
  | cons c cs ih =>
    by_cases hc : (c == mark) = true
    · rw [List.cons_append, piecesAt, if_pos hc, ih, piecesAt, if_pos hc]
      rfl
    · have hc' : (c == mark) = false := by simpa using hc
      obtain ⟨piece, rest, hrest, hpieces⟩ := piecesAt_cons hc' cs
      obtain ⟨piece', rest', hrest', hpieces'⟩ := piecesAt_cons hc' (cs ++ mark :: ds)
      rw [ih, hrest] at hrest'
      obtain ⟨rfl, rfl⟩ := List.cons.inj hrest'
      rw [List.cons_append, hpieces', hpieces]
      rfl

theorem length_piecesAt (mark : Char) (cs : List Char) :
    (piecesAt mark cs).length = cs.count mark + 1 := by
  induction cs with
  | nil => rfl
  | cons c cs ih =>
    by_cases hc : (c == mark) = true
    · rw [piecesAt, if_pos hc, List.length_cons, ih, List.count_cons, if_pos hc]
    · have hc' : (c == mark) = false := by simpa using hc
      obtain ⟨piece, rest, hrest, hpieces⟩ := piecesAt_cons hc' cs
      rw [hrest] at ih
      rw [hpieces, List.count_cons, if_neg hc]
      exact ih

theorem head_piecesAt (mark : Char) (cs : List Char) :
    (piecesAt mark cs)[0]? = some (cs.takeWhile (· != mark)) := by
  induction cs with
  | nil => rfl
  | cons c cs ih =>
    by_cases hc : (c == mark) = true
    · rw [piecesAt, if_pos hc, List.takeWhile_cons_of_neg (by simp [bne, hc])]
      rfl
    · have hc' : (c == mark) = false := by simpa using hc
      obtain ⟨piece, rest, hrest, hpieces⟩ := piecesAt_cons hc' cs
      rw [hrest] at ih
      rw [hpieces, List.takeWhile_cons_of_pos (by simp [bne, hc'])]
      exact congrArg _ (congrArg _ (Option.some.inj ih))

/-- The piece in which a place lies runs from the last mark before it to the first one after it. -/
theorem getElem?_piecesAt (mark : Char) (before : List Char) : ∀ rest : List Char,
    (piecesAt mark (before ++ rest))[before.count mark]? =
      some (before.rtakeWhile (· != mark) ++ rest.takeWhile (· != mark)) := by
  induction before using List.reverseRecOn with
  | nil => exact head_piecesAt mark
  | append_singleton before c ih =>
    intro rest
    rw [List.append_assoc, List.singleton_append, List.count_append]
    by_cases hc : c = mark
    · subst hc
      rw [piecesAt_append_mark, List.count_singleton_self, ← length_piecesAt,
        List.getElem?_append_right (Nat.le_refl _), Nat.sub_self, head_piecesAt,
        List.rtakeWhile_concat_neg _ _ _ (by simp)]
      rfl
    · have hne : (c != mark) = true := by simpa using hc
      rw [List.count_singleton, if_neg (by simpa using hc), Nat.add_zero, ih (c :: rest),
        List.takeWhile_cons_of_pos (p := (· != mark)) hne,
        List.rtakeWhile_concat_pos (· != mark) before c hne, List.append_assoc,
        List.singleton_append]

end Text

/-- A range in one line of a text, where the characters from its start to its end are a name. -/
def Range.Shows (source : String) (r : Range) (name : String) : Prop :=
  ∃ (line first last : Nat) (text : String), (Text.splitLines source)[line]? = some text ∧
    r.start = ⟨line, first⟩ ∧ r.stop = ⟨line, last⟩ ∧ last ≤ text.length ∧
    (text.toList.take last).drop first = name.toList

/-- The selection of a definition and its name are related in some way, and so are those of the
children. -/
inductive Definition.Selects (P : Range → String → Prop) : Definition → Prop
  | intro {d : Definition} : P d.selection d.name →
      (∀ c ∈ d.children.getD [], Selects P c) → Selects P d

def Position.Precedes (p q : Position) : Prop :=
  p.line < q.line ∨ p.line = q.line ∧ p.column < q.column

/-! ## Names in a source -/

def Lexeme.position (x : Lexeme) : Position := ⟨x.start.line - 1, x.start.column - 1⟩

/-- A lexeme that stands in a source at its own place. -/
def Lexeme.OccursIn (source : String) (x : Lexeme) : Prop :=
  ∃ before after, source.toList = before ++ (x.text ++ after) ∧ x.start.Behind before

theorem Piece.occursIn_of_mem_ofSource {source : String} {x : Lexeme}
    (h : .lexeme x ∈ Piece.ofSource source) : x.OccursIn source := by
  obtain ⟨before, after, hsource, hbehind, _⟩ := exists_place_of_mem_ofSource h
  exact ⟨before, after, hsource, hbehind⟩

theorem Parse.occursIn_of_recovering {source : String} {d : Derivation}
    (h : (recovering source).result = .ok d) : ∀ x ∈ d.lexemes, x.OccursIn source := by
  obtain ⟨_, _, hsublist⟩ := valid_of_recovering h
  intro x hx
  have hmem := mem_lexemesIn.mp (hsublist.subset hx)
  exact Piece.occursIn_of_mem_ofSource (List.mem_filter.mp hmem).1

namespace Typed

open Node (Nested)

/-- A name has no signs in front, so its token is where the lexeme is. -/
theorem Name.position_token (x : Name) (h : x.lexeme.start.IsCounted) :
    x.lexeme.token.position true = x.lexeme.position := by
  obtain ⟨hline, hcolumn⟩ := h
  have hsigns : (x.lexeme.token.text.length : Int) - x.lexeme.token.withoutSigns.length = 0 := by
    rw [x.withoutSigns_token, Lexeme.token, String.length_ofList]
    omega
  simp only [Token.position, if_true, hsigns]
  simp only [Lexeme.token, beq_iff_eq]
  rw [if_neg (by omega), if_neg (by omega), Int.add_zero, Lexeme.position]

theorem Name.shows_range {source : String} (x : Name) (h : x.lexeme.OccursIn source) :
    (x.lexeme.token.range true).Shows source (String.ofList x.lexeme.text) := by
  obtain ⟨before, after, hsource, hbehind⟩ := h
  have hline := Text.getElem?_piecesAt '\n' before (x.lexeme.text ++ after)
  have hname : (x.lexeme.text ++ after).takeWhile (· != '\n') =
      x.lexeme.text ++ after.takeWhile (· != '\n') := by
    apply List.takeWhile_append_of_pos
    intro c hc
    have hne : c ≠ '\n' := fun heq => x.newline_not_mem (heq ▸ hc)
    simpa using hne
  rw [hname, ← hsource] at hline
  have hstart := hbehind.line
  have hcolumn := hbehind.column
  generalize before.rtakeWhile (· != '\n') = first at hline hcolumn
  generalize after.takeWhile (· != '\n') = last at hline
  have hposition : x.lexeme.token.position true = ⟨before.count '\n', first.length⟩ := by
    rw [x.position_token ⟨by omega, by omega⟩, Lexeme.position, Position.mk.injEq]
    omega
  refine ⟨before.count '\n', first.length, first.length + x.lexeme.text.length,
    String.ofList (first ++ (x.lexeme.text ++ last)), ?_, ?_, ?_, ?_, ?_⟩
  · rw [Text.splitLines, List.getElem?_map, hline]
    rfl
  · rw [Token.range, hposition]
  · rw [Token.range, hposition, x.withoutSigns_token]
    rfl
  · rw [String.length_ofList, List.length_append, List.length_append]
    omega
  · rw [String.toList_ofList, ← List.append_assoc, ← List.length_append, List.take_left,
      List.drop_left, String.toList_ofList]

/-- A name ends after it starts, in the same line, so what follows it starts after its start. -/
theorem Name.precedes {x y : Name} (hx : x.lexeme.IsPlaced) (hy : y.lexeme.IsPlaced)
    (h : x.lexeme.extent.Precedes y.lexeme.extent) :
    (x.lexeme.token.position true).Precedes (y.lexeme.token.position true) := by
  obtain ⟨hline, hcolumn⟩ := Mark.after_of_not_mem x.newline_not_mem x.lexeme.start
  rw [← hx.stop] at hline hcolumn
  have hwidth := x.width_pos
  rw [x.withoutSigns_token] at hwidth
  rw [x.position_token hx.counted, y.position_token hy.counted, Position.Precedes]
  simp only [Extent.Precedes, Lexeme.extent, NotAfter] at h
  simp only [Lexeme.position]
  omega

/-! ## Definitions of a statement -/

theorem selects_of_childless {P : Range → String → Prop} {d : GrammarServer.Definition}
    (hselection : P d.selection d.name) (hchildren : d.children = some []) : d.Selects P := by
  refine .intro hselection ?_
  rw [hchildren]
  nofun

theorem Alternatives.aliases_subset_uses (as : Alternatives) :
    ∀ a ∈ as.aliases, Name.rule a.2 ∈ as.uses := by
  induction as with
  | one a => cases a <;> simp [aliases, uses, Alternative.uses]
  | cons a rest ih =>
    intro b hb
    rw [uses, List.mem_append]
    cases a with
    | plain e body => exact Or.inr (ih b hb)
    | named e inner body name =>
      rcases List.mem_cons.mp hb with rfl | hb
      · exact Or.inl (by simp [Alternative.uses])
      · exact Or.inr (ih b hb)

def Name.Relates (P : Range → String → Prop) (x : Name) : Prop :=
  P (x.lexeme.token.range true) (String.ofList x.lexeme.text)

section

variable {P : Range → String → Prop}

theorem Definition.selects_main {d : Definition} (h : ∀ x ∈ d.uses, x.Relates P) :
    d.main.Selects P := by
  cases d with
  | rule e signs name parameters priority body =>
    refine .intro (h (.rule name) List.mem_cons_self) ?_
    intro c hc
    obtain ⟨x, hx, rfl⟩ := List.mem_map.mp hc
    have hused : Name.rule x ∈ (rule e signs name parameters priority body).uses := by
      simp [Definition.uses, hx]
    exact selects_of_childless (h _ hused) rfl
  | term e name priority body =>
    exact selects_of_childless (h (.terminal name) List.mem_cons_self) rfl

theorem Definition.selects_alias {d : Definition} (h : ∀ x ∈ d.uses, x.Relates P) :
    ∀ a ∈ d.body.aliases, (d.aliasDefinition a).Selects P := by
  intro a ha
  have hbody := d.body.aliases_subset_uses a ha
  have hused : Name.rule a.2 ∈ d.uses := by
    cases d <;> simp only [Definition.body] at hbody <;> simp [Definition.uses, hbody]
  exact selects_of_childless (h _ hused) rfl

theorem Name.selects_directed {x : Name} (h : x.Relates P) (directive : Directive)
    (statement : Node) (range : Range) : (x.directed directive statement range).Selects P := by
  refine selects_of_childless ?_ rfl
  cases x <;> exact h

/-- What holds of the names in a statement and their ranges holds of what it defines. -/
theorem Statement.selects_definitions {s : Statement} (h : ∀ x ∈ s.uses, x.Relates P) :
    ∀ d ∈ s.definitions, d.Selects P := by
  refine s.forall_mem_definitions ?_ ?_ ?_
  · rintro d rfl
    exact ⟨Definition.selects_main h, Definition.selects_alias h⟩
  · exact fun directive x hx => Name.selects_directed (h x hx) _ _ _
  · rintro e path name rfl
    have hlast := h path.last List.mem_cons_self
    have hname := h name (List.mem_cons_of_mem _ List.mem_cons_self)
    refine List.forall_mem_singleton.mpr (.intro ?_ (List.forall_mem_singleton.mpr ?_))
    · cases name <;> exact hname
    · refine selects_of_childless ?_ rfl
      cases hpath : path.last <;> rw [hpath] at hlast <;> exact hlast

end

/-! ## Uses in statements -/

section

variable {ss : List Statement} (hnested : ∀ s ∈ ss, Nested (Extent.Covers s.node.extent) s.node)
  (hpairwise : ss.Pairwise fun s s' => Derivation.Before s.node s'.node)

include hnested hpairwise

/-- A name that is used in one statement does not lie in another. -/
theorem contains_use_iff {s s' : Statement} (hs : s ∈ ss) (hs' : s' ∈ ss) {x : Name}
    (hx : x ∈ s.uses) :
    (Range.ofExtent s'.node.extent).contains (x.lexeme.token.range true) = true ↔
      s'.node = s.node := by
  have hself := x.contains_range (s.nested_uses (hnested s hs) x hx)
  obtain ⟨f, hf⟩ := x.exists_extent (s.nested_uses (hnested s hs) x hx)
  have hwidth :
      (x.lexeme.token.range true).start.column < (x.lexeme.token.range true).stop.column := by
    have hpos := x.width_pos
    simp only [Token.range, if_true]
    omega
  constructor
  · intro hcontains
    by_contra hne
    rw [hf] at hself
    have hss : s' ≠ s := fun heq => hne (congrArg _ heq)
    -- The name has a width, so it does not fit on both sides of the border of two statements.
    rcases apart_of_pairwise hpairwise hs' hs hss with hbefore | hafter
    · have hnot := Range.not_contains_of_precedes (o := s'.node.extent) (f := f)
        (fun e he => hbefore e f he hf) rfl hwidth hself
      exact absurd hcontains (by simp [hnot])
    · cases hextent : s'.node.extent with
      | none =>
        have hnot := Range.not_contains_of_precedes (o := none) (f := f) (fun e he => by cases he)
          rfl hwidth hself
        rw [hextent] at hcontains
        exact absurd hcontains (by simp [hnot])
      | some g =>
        rw [hextent] at hcontains
        have hnot := Range.not_contains_of_precedes (o := some f) (f := g)
          (fun e he => hafter e g (hf.trans he) hextent) rfl hwidth hcontains
        exact absurd hself (by simp [hnot])
  · intro heq
    rwa [heq]

end

/-- Names that are used one after another have positions one after another. -/
theorem pairwise_positions {xs : List Name} (h : Lexeme.Ordered (xs.map Name.lexeme)) :
    (xs.map fun x => x.lexeme.token.position true).Pairwise Position.Precedes := by
  have hplaced : ∀ x ∈ xs, x.lexeme.IsPlaced := List.forall_mem_map.mp h.placed
  rw [List.pairwise_map]
  refine (List.pairwise_map.mp h.pairwise).imp_of_mem ?_
  intro x y hx hy hprecedes
  exact Name.precedes (hplaced x hx) (hplaced y hy) hprecedes

theorem positions_referencesAt (ss : List Statement) :
    (ss.map fun s => referencesAt s.node s.uses).flatten.map Reference.position =
      (ss.flatMap Statement.uses).map fun x => x.lexeme.token.position true := by
  induction ss with
  | nil => rfl
  | cons s ss ih =>
    rw [List.map_cons, List.flatten_cons, List.map_append, ih, List.flatMap_cons, List.map_append,
      referencesAt, List.map_map]
    rfl

end Typed

/-- The ranges of references and the selections of definitions show their names in the source.
References follow one another, each in the range of its own statement only. -/
theorem SymbolTable.symbols_show_names {source : String} {d : Derivation} {file : Node}
    (hparse : Parse.strict source = .ok d ∨ (Parse.recovering source).result = .ok d)
    (hbuild : d.tree.build = .ok file) :
    ∃ defined collected lists, empty.collectDefinitions file.statements = .ok defined ∧
      defined.collectReferences file.statements = .ok collected ∧
      file.statements.mapM (Node.references .absent) = .ok lists ∧
      (∀ r, r ∈ collected.references.values ↔ r ∈ lists.flatten) ∧
      (∀ r ∈ collected.references.values,
        r.range.Shows source r.name ∧ r.position = r.range.start) ∧
      (∀ x ∈ collected.definitions.values, x.Selects (Range.Shows source)) ∧
      (lists.flatten.map Reference.position).Pairwise Position.Precedes ∧
      (∀ name rs, collected.references.get? name = some rs →
        (rs.map Reference.position).Pairwise Position.Precedes) ∧
      List.Forall₂ (fun n rs => ∀ r ∈ rs, r.node = n ∧ ∀ m ∈ file.statements,
        (Range.ofExtent m.extent).contains r.range = true ↔ m = n) file.statements lists := by
  have hrecovering : (Parse.recovering source).result = .ok d :=
    hparse.elim Parse.recovering_of_strict id
  obtain ⟨ss, hss, hconveys, hnested, hpairwise⟩ :=
    Typed.exists_conveyed_statements hrecovering hbuild
  have huses := d.uses_sublist
  rw [hconveys.tells.uses] at huses
  have hoccurs : ∀ s ∈ ss, ∀ x ∈ s.uses, x.lexeme.OccursIn source := by
    intro s hs x hx
    apply Parse.occursIn_of_recovering hrecovering
    exact huses.subset (List.mem_map_of_mem (List.mem_flatMap.mpr ⟨s, hs, hx⟩))
  have hpositions := Typed.pairwise_positions
    ((Parse.ordered_of_recovering hrecovering).sublist huses)
  rw [← Typed.positions_referencesAt] at hpositions
  rw [hss]
  refine ⟨_, _, _, Typed.collectDefinitions_nodes ss, Typed.collectReferences_nodes ss _ rfl,
    mapM_map_eq_ok Typed.Statement.references_node ss, ?_, ?_, ?_, hpositions, ?_, ?_⟩
  · intro r
    rw [← List.flatMap_def]
    exact Catalog.mem_values_group _ _
  · intro r hr
    obtain ⟨s, hs, hrs⟩ := List.mem_flatMap.mp ((Catalog.mem_values_group _ _).mp hr)
    obtain ⟨x, hx, rfl⟩ := List.mem_map.mp hrs
    exact ⟨x.shows_range (hoccurs s hs x hx), rfl⟩
  · intro x hx
    obtain ⟨s, hs, hxs⟩ := List.mem_flatMap.mp ((Catalog.mem_values_group _ _).mp hx)
    have hrelates : ∀ y ∈ s.uses, y.Relates (Range.Shows source) :=
      fun y hy => y.shows_range (hoccurs s hs y hy)
    exact Typed.Statement.selects_definitions hrelates x hxs
  · intro name rs hrs
    have hsublist := Catalog.sublist_of_get?_group _ _ hrs
    rw [List.flatMap_def] at hsublist
    exact hpositions.sublist (hsublist.map _)
  · rw [List.forall₂_map_left_iff, List.forall₂_map_right_iff, List.forall₂_same]
    intro s hs r hr
    obtain ⟨x, hx, rfl⟩ := List.mem_map.mp hr
    refine ⟨rfl, List.forall_mem_map.mpr ?_⟩
    intro s' hs'
    exact Typed.contains_use_iff hnested hpairwise hs hs' hx

theorem SymbolTable.symbols_show_names_twoLines :
    Parse.strict "a: b\nC: \"x\"" = .ok twoLines ∧ ∃ file defined collected lists,
      twoLines.tree.build = .ok file ∧
      SymbolTable.collectReferences defined file.statements = .ok collected ∧
      file.statements.mapM (Node.references .absent) = .ok lists ∧
      (∀ r ∈ collected.references.values, r.range.Shows "a: b\nC: \"x\"" r.name) ∧
      (∀ x ∈ collected.definitions.values, x.Selects (Range.Shows "a: b\nC: \"x\"")) ∧
      (lists.flatten.map Reference.position).Pairwise Position.Precedes := by
  have hparse : Parse.strict "a: b\nC: \"x\"" = .ok twoLines :=
    Parse.strict_of_settled (by decide) rfl (by decide) (by decide +kernel)
  have hbuilt : twoLines.tree.build.toOption.isSome = true := by decide +kernel
  obtain ⟨file, hfile⟩ := Option.isSome_iff_exists.mp hbuilt
  have hbuild := Typed.eq_ok_of_toOption hfile
  obtain ⟨defined, collected, lists, _, hcollected, hlists, _, hreferences, hdefinitions,
    hpositions, _⟩ := symbols_show_names (Or.inl hparse) hbuild
  exact ⟨hparse, file, defined, collected, lists, hbuild, hcollected, hlists,
    fun r hr => (hreferences r hr).1, hdefinitions, hpositions⟩

end GrammarServer
