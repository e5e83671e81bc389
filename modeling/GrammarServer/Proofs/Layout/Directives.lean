import GrammarServer.Proofs.Document.Kept
import GrammarServer.Proofs.Layout.RoundTrip
import GrammarServer.Proofs.Node.Statements
import GrammarServer.Proofs.Node.Unplaced

/-!
# Definitions after a directive

A definition after `%extend` and the same one after `%override` have one and the same layout, which
is read as an extension. So an extension is kept when it is laid out, and an override never is.
-/
namespace GrammarServer

def Node.definition? : Node → Option Node
  | .rule e modifiers name parameters priority expansions =>
    some (.rule e modifiers name parameters priority expansions)
  | .term e modifiers name priority expansions => some (.term e modifiers name priority expansions)
  | .override _ definition | .extend _ definition => some definition
  | _ => none

namespace Typed

theorem exists_statement_of_makes {part : Derivation} {n : Node} (h : part.Makes n) :
    ∃ s : Statement, n = s.node ∧ (part.isWritable = true → s.Writable) := by
  obtain ⟨⟨p, hp, hstatement⟩, hvalid, hspelled, e, hbuilds⟩ := h
  have hsense := sense_of_builds part hvalid hspelled e [n] hbuilds
  rw [hp] at hsense
  cases p with
  | rule | term =>
    obtain ⟨d, hd, _, hwritable, _⟩ := hsense
    exact ⟨.definition d, (List.cons.inj hd).1, hwritable⟩
  | override | extend | ignore | declare | imports | comment =>
    obtain ⟨s, hs, _, hwritable, _⟩ := hsense
    exact ⟨s, (List.cons.inj hs).1, hwritable⟩
  | _ => cases hstatement

/-- The definition in a statement that can be written is faithful. -/
theorem exists_definition {part : Derivation} {n x : Node} (h : part.Makes n)
    (hwritable : part.isWritable = true) (hx : n.definition? = some x) :
    ∃ d : Definition, x = d.node ∧ d.Faithful := by
  obtain ⟨s, rfl, hs⟩ := exists_statement_of_makes h
  replace hs := hs hwritable
  cases s with
  | definition d => exact ⟨d, by cases d <;> exact (Option.some.inj hx).symm, hs⟩
  | override e d | extend e d => exact ⟨d, (Option.some.inj hx).symm, hs⟩
  | imports e source => cases source <;> cases hx
  | ignore | declare | comment => cases hx

theorem forall₂_exists_definition {source : String} {d : Derivation} {file : Node}
    (hparse : (Parse.recovering source).result = .ok d) (hbuild : d.tree.build = .ok file) :
    List.Forall₂ (fun part n => part.isWritable = true → ∀ x, n.definition? = some x →
      ∃ y : Definition, x = y.node ∧ y.Faithful) d.statements file.statements := by
  obtain ⟨hvalid, hstart, _⟩ := Parse.valid_of_recovering hparse
  have hmakes := Derivation.forall₂_makes_statements hvalid hstart
    (isSpelled_of_recovering hparse) hbuild
  exact hmakes.imp fun part n hpart hwritable x hx => exists_definition hpart hwritable hx

theorem ofSource_extend (indent : String) (e : Option Extent) {d : Definition} (hd : d.Faithful) :
    ∃ text file', Layout.ofStatements indent [.extend e d.node] = .ok text ∧
      Layout.ofStatements indent [.override e d.node] = .ok text ∧
      Node.ofSource text = .ok file' ∧
      file'.statements.map Node.unplaced = [(Node.extend e d.node).unplaced] := by
  have hfaithful : ∀ s ∈ [Statement.extend e d], s.Faithful := List.forall_mem_singleton.mpr hd
  have hlayout := ofStatements_eq_written indent (.extend e d) [] hfaithful
  have hoverride := ofStatements_extension indent [.override e d]
  obtain ⟨e', ts, hread, hts⟩ := ofSource_written isIndent_usualIndent (.extend e d) [] hfaithful
  refine ⟨_, _, hlayout, hoverride.symm.trans hlayout, hread, ?_⟩
  exact unplaced_congr hts

end Typed

open Typed

/-- An override is laid out in the same text as an extension of the same definition, and so is read
again as an extension. -/
theorem Layout.directive_read_as_extension {source : String} {d : Derivation} {file : Node}
    (hparse : Parse.strict source = .ok d ∨ (Parse.recovering source).result = .ok d)
    (hbuild : d.tree.build = .ok file) (indent : String) :
    List.Forall₂ (fun part n => part.isWritable = true → ∀ x, n.definition? = some x → ∀ e,
        ∃ text file', Layout.ofStatements indent [.extend e x] = .ok text ∧
          Layout.ofStatements indent [.override e x] = .ok text ∧
          Node.ofSource text = .ok file' ∧
          file'.statements.map Node.unplaced = [(Node.extend e x).unplaced] ∧
          file'.statements.map Node.unplaced ≠ [(Node.override e x).unplaced])
      d.statements file.statements := by
  have hdefinitions := forall₂_exists_definition (hparse.elim Parse.recovering_of_strict id) hbuild
  refine hdefinitions.imp fun part n hpart hwritable x hx e => ?_
  obtain ⟨y, rfl, hy⟩ := hpart hwritable x hx
  obtain ⟨text, file', hextend, hoverride, hread, hstatements⟩ := ofSource_extend indent e hy
  refine ⟨text, file', hextend, hoverride, hread, hstatements, ?_⟩
  rw [hstatements]
  intro heq
  cases (List.cons.inj heq).1

open GrammarServer.Derivation in
/-- How `%override ?a.2: [b -> c] |` is derived. -/
def overriddenRule : Derivation :=
  ofItems
    (ofParts .override [
      ofWord .overrideWord ⟨0, 1, 1⟩ "%override",
      ofParts .rule [
        ofParts .ruleModifiers [ofWord .modifiers ⟨10, 1, 11⟩ "?"],
        ofWord .ruleName ⟨11, 1, 12⟩ "a",
        ofParts .templateParams [],
        ofParts .priority [ofWord .dot ⟨12, 1, 13⟩ ".", ofWord .number ⟨13, 1, 14⟩ "2"],
        ofWord .colon ⟨14, 1, 15⟩ ":",
        ofParts .expansions [ofParts .alternatives [
          ofParts .alternatives [ofParts .aliasing [ofAtom [ofParts .maybe [
            ofWord .leftBracket ⟨16, 1, 17⟩ "[",
            ofNamed (ofValue .nonterminal .ruleName ⟨17, 1, 18⟩ "b") ⟨19, 1, 20⟩ ⟨22, 1, 23⟩ "c",
            ofWord .rightBracket ⟨23, 1, 24⟩ "]"]]]],
          ofWord .bar ⟨25, 1, 26⟩ "|",
          ofParts .aliasing [ofParts .expansion [ofParts .exprs []]]]]]])
    [ofWord .newline ⟨26, 1, 27⟩ "\n"]

theorem strict_overriddenRule :
    Parse.strict "%override ?a.2: [b -> c] |\n" = .ok overriddenRule :=
  Parse.strict_of_settled (by decide) rfl (by decide) (by decide +kernel)

theorem eq_override_of_kind {n x : Node} (hkind : n.kind = "Override")
    (hx : n.definition? = some x) : ∃ e, n = .override e x := by
  cases n with
  | override e y =>
    cases hx
    exact ⟨e, rfl⟩
  | rule | term | extend => exact absurd hkind (by simp [Node.kind])
  | _ => cases hx

theorem layout_overriddenRule : ∃ file e x, overriddenRule.tree.build = .ok file ∧
    file.statements = [.override e x] ∧
    Layout.ofStatements "    " file.statements = .ok "%extend ?a.2: [b -> c]\n    |" := by
  have hread : overriddenRule.tree.build.toOption.any (fun file =>
      file.statements.length == 1 &&
      file.statements.all (fun n => n.kind == "Override" && n.definition?.isSome) &&
      (Layout.ofStatements "    " file.statements).toOption ==
        some "%extend ?a.2: [b -> c]\n    |") = true := by decide +kernel
  obtain ⟨file, hfile, hread⟩ := (Option.any_eq_true _ _).mp hread
  rw [Bool.and_eq_true, Bool.and_eq_true, beq_iff_eq, beq_iff_eq] at hread
  obtain ⟨⟨hlength, hall⟩, hlayout⟩ := hread
  obtain ⟨n, hn⟩ := List.length_eq_one_iff.mp hlength
  rw [hn, List.all_cons, Bool.and_eq_true, Bool.and_eq_true, beq_iff_eq] at hall
  obtain ⟨x, hx⟩ := Option.isSome_iff_exists.mp hall.1.2
  obtain ⟨e, rfl⟩ := eq_override_of_kind hall.1.1 hx
  exact ⟨file, e, x, eq_ok_of_toOption hfile, hn, eq_ok_of_toOption hlayout⟩

theorem isWritable_overriddenRule :
    ∃ part, overriddenRule.statements = [part] ∧ part.isWritable = true :=
  ⟨_, rfl, by decide +kernel⟩

theorem Layout.directive_read_as_extension_overriddenRule :
    Parse.strict "%override ?a.2: [b -> c] |\n" = .ok overriddenRule ∧
      ∃ file part e x, overriddenRule.tree.build = .ok file ∧
        overriddenRule.statements = [part] ∧ file.statements = [.override e x] ∧
        part.isWritable = true ∧ ∃ file',
          Layout.ofStatements "    " [.extend e x] = .ok "%extend ?a.2: [b -> c]\n    |" ∧
          Node.ofSource "%extend ?a.2: [b -> c]\n    |" = .ok file' ∧
          file'.statements.map Node.unplaced = [(Node.extend e x).unplaced] := by
  obtain ⟨file, e, x, hbuild, hfile, hlayout⟩ := layout_overriddenRule
  obtain ⟨part, hpart, hwritable⟩ := isWritable_overriddenRule
  have hall := Layout.directive_read_as_extension (Or.inl strict_overriddenRule) hbuild "    "
  rw [hpart, hfile, List.forall₂_cons] at hall
  obtain ⟨text, file', hextend, hoverride, hread, hstatements, _⟩ := hall.1 hwritable x rfl e
  rw [hfile, hoverride] at hlayout
  obtain rfl := Except.ok.inj hlayout
  exact ⟨strict_overriddenRule, file, part, e, x, hbuild, hpart, hfile, hwritable, file', hextend,
    hread, hstatements⟩

/-- The override is read again as an extension. -/
theorem Layout.override_lost_overriddenRule :
    ∃ d file file', Parse.strict "%override ?a.2: [b -> c] |\n" = .ok d ∧
      d.tree.build = .ok file ∧ file.statements.map Node.kind = ["Override"] ∧
      Layout.ofStatements "    " file.statements = .ok "%extend ?a.2: [b -> c]\n    |" ∧
      Node.ofSource "%extend ?a.2: [b -> c]\n    |" = .ok file' ∧
      file'.statements.map Node.kind = ["Extend"] := by
  obtain ⟨file, e, x, hbuild, hfile, hlayout⟩ := layout_overriddenRule
  obtain ⟨part, hpart, hwritable⟩ := isWritable_overriddenRule
  have hall :=
    forall₂_exists_definition (Parse.recovering_of_strict strict_overriddenRule) hbuild
  rw [hpart, hfile, List.forall₂_cons] at hall
  obtain ⟨y, rfl, hy⟩ := hall.1 hwritable x rfl
  obtain ⟨text, file', _, hoverride, hread, hstatements⟩ := ofSource_extend "    " e hy
  have hsame := hlayout
  rw [hfile, hoverride] at hsame
  obtain rfl := Except.ok.inj hsame
  refine ⟨_, file, file', strict_overriddenRule, hbuild, by rw [hfile]; rfl, hlayout, hread, ?_⟩
  have hkinds := congrArg (List.map Node.kind) hstatements
  rwa [List.map_map, List.map_congr_left fun n _ => n.kind_unplaced] at hkinds

end GrammarServer
