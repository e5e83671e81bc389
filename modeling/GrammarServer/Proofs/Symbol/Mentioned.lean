import GrammarServer.Proofs.Symbol.Shown

/-!
# Which names are collected

A derivation mentions all names that stand in it, except that of the path of an import it mentions
the last one at most. Each of them becomes a reference, unless it stands in a group in parentheses:
what is built from a group is not looked into, so no name in it is ever collected.
-/
namespace GrammarServer

namespace Derivation

def names (d : Derivation) : List Lexeme := d.lexemes.filter fun x => isName x.terminal

mutual

/-- The names that a derivation mentions: all that stand in it, but of an import only the symbols
imported and the new name. -/
def mentions : Derivation → List Lexeme
  | leaf x => names (leaf x)
  | node q ds => if q.left = .imports then namesOfNode .imports (ds.map names) else mentionsOfAll ds

def mentionsOfAll : List Derivation → List Lexeme
  | [] => []
  | d :: ds => mentions d ++ mentionsOfAll ds

end

mutual

def grouped : Derivation → List Lexeme
  | leaf _ => []
  | node q ds =>
    if q.left = .atom ∧ ds.length = 3 then lexemesOfAll ds else groupedOfAll ds

def groupedOfAll : List Derivation → List Lexeme
  | [] => []
  | d :: ds => grouped d ++ groupedOfAll ds

end

theorem flatten_names (ds : List Derivation) :
    (ds.map names).flatten = (lexemesOfAll ds).filter fun x => isName x.terminal := by
  induction ds with
  | nil => rfl
  | cons d ds ih =>
    rw [List.map_cons, List.flatten_cons, ih, names, lexemesOfAll, List.filter_append]

mutual

theorem mentions_sublist : ∀ d : Derivation, d.mentions.Sublist d.lexemes
  | leaf x => List.filter_sublist
  | node q ds => by
    rw [mentions, lexemes]
    split
    · refine (namesOfNode_sublist _ _).trans ?_
      rw [flatten_names]
      exact List.filter_sublist
    · exact mentionsOfAll_sublist ds

theorem mentionsOfAll_sublist : ∀ ds : List Derivation,
    (mentionsOfAll ds).Sublist (lexemesOfAll ds)
  | [] => List.Sublist.refl _
  | d :: ds => (mentions_sublist d).append (mentionsOfAll_sublist ds)

end

mutual

theorem grouped_sublist : ∀ d : Derivation, d.grouped.Sublist d.lexemes
  | leaf _ => List.nil_sublist _
  | node q ds => by
    rw [grouped, lexemes]
    split
    · exact List.Sublist.refl _
    · exact groupedOfAll_sublist ds

theorem groupedOfAll_sublist : ∀ ds : List Derivation,
    (groupedOfAll ds).Sublist (lexemesOfAll ds)
  | [] => List.Sublist.refl _
  | d :: ds => (grouped_sublist d).append (groupedOfAll_sublist ds)

end

/-! ## Imports -/

def isImportPart : Symbol → Bool
  | .terminal _ => true
  | .phrase p =>
    match p with
    | .importPath | .importLib | .importRel | .importArgs | .nameList | .names | .name => true
    | _ => false

theorem isImportPart_right : ∀ q ∈ Production.all,
    q.left = .imports ∨ isImportPart q.left = true → q.right.all isImportPart = true := by
  decide

/-- What is looked up in a phrase that is neither a group nor an import is what is looked up in its
parts. -/
theorem uses_node {q : Production} {ds : List Derivation}
    (hgroup : ¬ (q.left = .atom ∧ ds.length = 3)) (himports : q.left ≠ .imports) :
    (node q ds).uses = (usesOfAll ds).flatten := by
  have hlength : (usesOfAll ds).length = ds.length := by
    clear hgroup
    induction ds with
    | nil => rfl
    | cons d ds ih => rw [usesOfAll, List.length_cons, ih, List.length_cons]
  rw [← hlength] at hgroup
  rw [uses]
  unfold usesOfNode
  split
  case h_1 hleft hparts => exact absurd ⟨hleft, by rw [hparts]; rfl⟩ hgroup
  case h_2 =>
    unfold namesOfNode
    split <;> first | exact absurd ‹q.left = .imports› himports | rfl

theorem uses_group {q : Production} {ds : List Derivation}
    (hgroup : q.left = .atom ∧ ds.length = 3) : (node q ds).uses = [] := by
  obtain ⟨hleft, hlength⟩ := hgroup
  obtain ⟨a, b, c, rfl⟩ := List.length_eq_three.mp hlength
  rw [uses, hleft]
  rfl

mutual

theorem uses_of_isImportPart : ∀ d : Derivation, d.Valid → isImportPart d.symbol = true →
    d.uses = d.names ∧ d.grouped = []
  | leaf x, _, _ => ⟨by simp [uses, names, lexemes, List.filter_singleton], rfl⟩
  | node q ds, ⟨hq, hspell, hvalid⟩, hpart => by
    have hright := isImportPart_right q hq (Or.inr hpart)
    rw [← hspell, List.all_map] at hright
    obtain ⟨huses, hgrouped⟩ := usesOfAll_of_isImportPart ds hvalid hright
    have hleft : ∀ p, isImportPart (.phrase p) = false → q.left ≠ p := by
      rintro p hp rfl
      exact Bool.false_ne_true (hp.symm.trans hpart)
    have hgroup : ¬ (q.left = .atom ∧ ds.length = 3) := fun h => hleft .atom rfl h.1
    rw [uses_node hgroup (hleft .imports rfl), huses, flatten_names, grouped, if_neg hgroup]
    exact ⟨rfl, hgrouped⟩

theorem usesOfAll_of_isImportPart : ∀ ds : List Derivation, AllValid ds →
    ds.all (isImportPart ∘ symbol) = true → usesOfAll ds = ds.map names ∧ groupedOfAll ds = []
  | [], _, _ => ⟨rfl, rfl⟩
  | d :: ds, ⟨hd, hds⟩, hparts => by
    obtain ⟨hpart, hparts⟩ := Bool.and_eq_true_iff.mp hparts
    obtain ⟨huses, hgrouped⟩ := uses_of_isImportPart d hd hpart
    obtain ⟨huses', hgrouped'⟩ := usesOfAll_of_isImportPart ds hds hparts
    rw [usesOfAll, huses, huses', groupedOfAll, hgrouped, hgrouped']
    exact ⟨rfl, rfl⟩

end

/-! ## Groups -/

mutual

/-- Of the names that a derivation mentions, those are looked up that stand in no group. -/
theorem mem_uses_iff : ∀ d : Derivation, d.Valid → d.lexemes.Nodup → ∀ x ∈ d.mentions,
    (x ∈ d.uses ↔ x ∉ d.grouped)
  | leaf x, _, _ => by
    intro y hy
    rw [(uses_of_isImportPart (leaf x) trivial rfl).1]
    exact ⟨fun _ => List.not_mem_nil, fun _ => hy⟩
  | node q ds, ⟨hq, hspell, hvalid⟩, hnodup => by
    intro x hx
    by_cases himports : q.left = .imports
    · have hright := isImportPart_right q hq (Or.inl himports)
      rw [← hspell, List.all_map] at hright
      obtain ⟨huses, hgrouped⟩ := usesOfAll_of_isImportPart ds hvalid hright
      rw [mentions, if_pos himports] at hx
      rw [uses, huses, himports, grouped, if_neg (by simp [himports]), hgrouped]
      exact ⟨fun _ => List.not_mem_nil, fun _ => hx⟩
    · rw [mentions, if_neg himports] at hx
      by_cases hgroup : q.left = .atom ∧ ds.length = 3
      · have hlexeme := (mentionsOfAll_sublist ds).subset hx
        rw [uses_group hgroup, grouped, if_pos hgroup]
        exact ⟨nofun, fun h => absurd hlexeme h⟩
      · rw [uses_node hgroup himports, grouped, if_neg hgroup]
        exact mem_usesOfAll_iff ds hvalid hnodup x hx

theorem mem_usesOfAll_iff : ∀ ds : List Derivation, AllValid ds → (lexemesOfAll ds).Nodup →
    ∀ x ∈ mentionsOfAll ds, (x ∈ (usesOfAll ds).flatten ↔ x ∉ groupedOfAll ds)
  | [], _, _ => nofun
  | d :: ds, ⟨hd, hds⟩, hnodup => by
    intro x hx
    rw [lexemesOfAll, List.nodup_append] at hnodup
    obtain ⟨hfirst, hrest, hdisjoint⟩ := hnodup
    rw [usesOfAll, List.flatten_cons, groupedOfAll, List.mem_append, List.mem_append, not_or]
    -- a lexeme of one part is in none of the other parts
    rcases List.mem_append.mp hx with hx | hx
    · have hother := fun h => hdisjoint x ((mentions_sublist d).subset hx) x h rfl
      have huses := fun h => hother ((usesOfAll_sublist ds).subset h)
      have hgrouped := fun h => hother ((groupedOfAll_sublist ds).subset h)
      rw [mem_uses_iff d hd hfirst x hx, or_iff_left huses, and_iff_left hgrouped]
    · have hother := fun h => hdisjoint x h x ((mentionsOfAll_sublist ds).subset hx) rfl
      have huses := fun h => hother ((uses_sublist d).subset h)
      have hgrouped := fun h => hother ((grouped_sublist d).subset h)
      rw [mem_usesOfAll_iff ds hds hrest x hx, or_iff_right huses, and_iff_right hgrouped]

end

end Derivation

/-- Of the names mentioned in a source, those and only those become references that stand in no
group in parentheses. -/
theorem SymbolTable.reference_collected_iff {source : String} {d : Derivation} {file : Node}
    (hparse : Parse.strict source = .ok d ∨ (Parse.recovering source).result = .ok d)
    (hbuild : d.tree.build = .ok file) :
    ∃ defined collected, empty.collectDefinitions file.statements = .ok defined ∧
      defined.collectReferences file.statements = .ok collected ∧
      ∀ x ∈ d.mentions,
        (∃ r rs, collected.references.get? (String.ofList x.text) = some rs ∧ r ∈ rs ∧
          r.name = String.ofList x.text ∧ r.position = x.position) ↔ x ∉ d.grouped := by
  have hrecovering : (Parse.recovering source).result = .ok d :=
    hparse.elim Parse.recovering_of_strict id
  obtain ⟨hvalid, _, _⟩ := Parse.valid_of_recovering hrecovering
  have hordered := Parse.ordered_of_recovering hrecovering
  have htexts : ∀ x ∈ d.lexemes, x.text ≠ [] := fun x hx =>
    (Typed.isSpelled_of_recovering hrecovering x hx).1
  obtain ⟨ss, hss, hconveys, _⟩ := Typed.exists_conveyed_statements hrecovering hbuild
  rw [hss]
  refine ⟨_, _, Typed.collectDefinitions_nodes ss, Typed.collectReferences_nodes ss _ rfl, ?_⟩
  intro x hx
  rw [← d.mem_uses_iff hvalid (hordered.nodup htexts) x hx]
  have hposition : ∀ y : Typed.Name, y.lexeme ∈ d.lexemes →
      y.lexeme.token.position true = y.lexeme.position := fun y hy =>
    y.position_token (hordered.placed _ hy).counted
  constructor
  · rintro ⟨r, rs, hrs, hr, _, hrx⟩
    obtain ⟨hmem, _⟩ := (Catalog.exists_mem_get?_group_iff _ _ _ _).mp ⟨rs, hrs, hr⟩
    obtain ⟨s, hs, hrs⟩ := List.mem_flatMap.mp hmem
    obtain ⟨y, hy, rfl⟩ := List.mem_map.mp hrs
    have huse : y.lexeme ∈ d.uses := by
      rw [hconveys.tells.uses]
      exact List.mem_map_of_mem (List.mem_flatMap.mpr ⟨s, hs, hy⟩)
    have hlexeme := d.uses_sublist.subset huse
    have hsame := (hposition y hlexeme).symm.trans hrx
    have heq : y.lexeme = x := by
      simp only [Lexeme.position, Position.mk.injEq] at hsame
      exact hordered.eq_of_start htexts hlexeme (d.mentions_sublist.subset hx) (by omega) (by omega)
    rwa [← heq]
  · intro huse
    have hlexeme := d.uses_sublist.subset huse
    rw [hconveys.tells.uses] at huse
    obtain ⟨y, hy, rfl⟩ := List.mem_map.mp huse
    obtain ⟨s, hs, hys⟩ := List.mem_flatMap.mp hy
    have hmem : y.lexeme.token.reference s.node ∈
        ss.flatMap fun s => Typed.referencesAt s.node s.uses :=
      List.mem_flatMap.mpr ⟨s, hs, List.mem_map_of_mem hys⟩
    obtain ⟨rs, hrs, hr⟩ := (Catalog.exists_mem_get?_group_iff Reference.name _ _ _).mpr ⟨hmem, rfl⟩
    exact ⟨_, rs, hrs, hr, rfl, hposition y hlexeme⟩

open GrammarServer.Derivation in
/-- The derivation of `a: (b)`, where one of two names stands in a group. -/
def groupedUse : Derivation :=
  ofItems
    (ofRule ⟨0, 1, 1⟩ "a" [] [] ⟨1, 1, 2⟩ (ofAlternative [ofAtom [
      ofWord .leftParen ⟨3, 1, 4⟩ "(",
      ofAlternative [ofValue .nonterminal .ruleName ⟨4, 1, 5⟩ "b"],
      ofWord .rightParen ⟨5, 1, 6⟩ ")"]]))
    [ofWord .newline ⟨6, 1, 7⟩ "\n"]

theorem strict_groupedUse : Parse.strict "a: (b)\n" = .ok groupedUse :=
  Parse.strict_of_settled (by decide) rfl (by decide) (by decide +kernel)

/-- The name in front of the group is collected. -/
theorem SymbolTable.reference_collected_iff_groupedUse :
    Parse.strict "a: (b)\n" = .ok groupedUse ∧ ∃ file defined collected,
      groupedUse.tree.build = .ok file ∧
      empty.collectDefinitions file.statements = .ok defined ∧
      defined.collectReferences file.statements = .ok collected ∧
      ∃ r rs, collected.references.get? "a" = some rs ∧ r ∈ rs ∧ r.name = "a" ∧
        r.position = ⟨0, 0⟩ := by
  have hbuilt : groupedUse.tree.build.toOption.isSome = true := by decide +kernel
  obtain ⟨file, hfile⟩ := Option.isSome_iff_exists.mp hbuilt
  have hbuild := Typed.eq_ok_of_toOption hfile
  obtain ⟨defined, collected, hdefined, hcollected, hiff⟩ :=
    reference_collected_iff (Or.inl strict_groupedUse) hbuild
  have hmentioned : (⟨.ruleName, ['a'], ⟨0, 1, 1⟩, ⟨1, 1, 2⟩⟩ : Lexeme) ∈ groupedUse.mentions := by
    decide
  have hungrouped : (⟨.ruleName, ['a'], ⟨0, 1, 1⟩, ⟨1, 1, 2⟩⟩ : Lexeme) ∉ groupedUse.grouped := by
    decide
  exact ⟨strict_groupedUse, file, defined, collected, hbuild, hdefined, hcollected,
    (hiff _ hmentioned).mpr hungrouped⟩

/-- The name in the group is mentioned, and yet nothing is collected under it. -/
theorem SymbolTable.uncollected_groupedUse :
    Parse.strict "a: (b)\n" = .ok groupedUse ∧ ∃ file defined collected,
      groupedUse.tree.build = .ok file ∧
      empty.collectDefinitions file.statements = .ok defined ∧
      defined.collectReferences file.statements = .ok collected ∧
      (∃ x ∈ groupedUse.mentions, x.text = ['b'] ∧ x.position = ⟨0, 4⟩) ∧
      collected.references.get? "b" = none := by
  have hview : (ofDerivation groupedUse).toOption.any (fun p =>
      (p.1.references.get? "b").isNone) = true := by
    decide +kernel
  obtain ⟨file, defined, collected, _, hbuild, hdefined, hcollected, _, hnone⟩ :=
    exists_of_ofDerivation hview
  have hmentioned : (⟨.ruleName, ['b'], ⟨4, 1, 5⟩, ⟨5, 1, 6⟩⟩ : Lexeme) ∈ groupedUse.mentions := by
    decide
  exact ⟨strict_groupedUse, file, defined, collected, hbuild, hdefined, hcollected,
    ⟨_, hmentioned, rfl, rfl⟩, Option.isNone_iff_eq_none.mp hnone⟩

end GrammarServer
