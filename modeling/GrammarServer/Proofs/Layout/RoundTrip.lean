import GrammarServer.Proofs.Parse.Sound
import GrammarServer.Proofs.Typed.LaidOut
import GrammarServer.Proofs.Typed.Parsed
import GrammarServer.Reading

/-!
# Layouts keep the file

The layout of a faithful file is read again as a file that says the same, statement by statement.
Laying it out once more therefore changes nothing.
-/
namespace GrammarServer

namespace Typed

theorem fileChunks_congr {indent : String} {s t : Statement} {ss ts : List Statement}
    (h : (t :: ts).map Statement.canonical = (s :: ss).map Statement.canonical) :
    fileChunks indent t ts = fileChunks indent s ss := by
  obtain ⟨hfirst, hrest⟩ := List.cons.inj h
  rw [fileChunks, fileChunks, ← t.chunks_canonical, ← chunksAfter_canonical indent ts, hfirst,
    hrest, s.chunks_canonical, chunksAfter_canonical]

theorem faithful_congr {ss ts : List Statement}
    (h : ts.map Statement.canonical = ss.map Statement.canonical) (hss : ∀ s ∈ ss, s.Faithful) :
    ∀ t ∈ ts, t.Faithful := by
  intro t ht
  have hmem : t.canonical ∈ ss.map Statement.canonical := h ▸ List.mem_map_of_mem ht
  obtain ⟨s, hs, hcanonical⟩ := List.mem_map.mp hmem
  rw [← t.faithful_canonical, ← hcanonical, s.faithful_canonical]
  exact hss s hs

theorem unplaced_congr {ss ts : List Statement}
    (h : ts.map Statement.canonical = ss.map Statement.canonical) :
    (ts.map Statement.node).map Node.unplaced = (ss.map Statement.node).map Node.unplaced := by
  have hcanonical : ∀ us : List Statement, (us.map Statement.node).map Node.unplaced =
      (us.map Statement.canonical).map fun u => u.node.unplaced := by
    intro us
    rw [List.map_map, List.map_map]
    exact List.map_congr_left fun u _ => u.unplaced_node_canonical.symm
  rw [hcanonical ts, hcanonical ss, h]

/-- What a file is written as is read as a file that says the same. -/
theorem ofSource_written {indent : String} (hindent : Terminal.IsIndent indent) (s : Statement)
    (ss : List Statement) (h : ∀ t ∈ s :: ss, t.Faithful) :
    ∃ (e : Option Extent) (ts : List Statement),
      Node.ofSource (written (fileChunks indent s ss)) = .ok (.file e (ts.map Statement.node)) ∧
      ts.map Statement.canonical = (s :: ss).map Statement.canonical := by
  obtain ⟨xs, hpieces, hwords⟩ := Piece.exists_lexemes_of_legible _
    (legible_fileChunks hindent s ss h) .origin
  obtain ⟨d, hvalid, hstart, hlexemes, hsettled, hbuilds⟩ := yields_file indent s ss h xs hwords
  obtain ⟨_, hns, e, ts, hts, rfl⟩ := hbuilds none
  have hstrict : Parse.strict (written (fileChunks indent s ss)) = .ok d := by
    apply Parse.strict_of_settled hvalid hstart (hsettled .endOfInput (Or.inr rfl))
    rw [hlexemes, ← hpieces, Piece.ofSource, written, String.toList_ofList]
  refine ⟨e, ts, ?_, hts⟩
  rw [Node.ofSource, hstrict]
  simp only [(Derivation.build_tree_eq_ok hstart).mpr hns]

end Typed

open Typed

/-- The layout of a faithful file is read as a file that says the same and is laid out in the same
way. -/
theorem Layout.ofSource_ofStatements {source indent : String} {d : Derivation} {file : Node}
    (hparse : Parse.strict source = .ok d) (hbuild : d.tree.build = .ok file)
    (hne : file.statements ≠ []) (hfaithful : d.isFaithful = true)
    (hindent : Terminal.IsIndent indent) :
    ∃ (text : String) (file' : Node), Layout.ofStatements indent file.statements = .ok text ∧
      Node.ofSource text = .ok file' ∧
      file'.statements.map Node.unplaced = file.statements.map Node.unplaced ∧
      Layout.ofStatements indent file'.statements = .ok text := by
  obtain ⟨e, ss, rfl, hss⟩ :=
    exists_statements_of_recovering (Parse.recovering_of_strict hparse) hbuild
  replace hss := hss hfaithful
  obtain ⟨s, ss, rfl⟩ : ∃ t ts, ss = t :: ts := by
    apply List.exists_cons_of_ne_nil
    rintro rfl
    exact hne rfl
  obtain ⟨e', ts, hread, hts⟩ := ofSource_written hindent s ss hss
  obtain ⟨t, ts, rfl, _⟩ := List.map_eq_cons_iff.mp hts
  have hlayout := ofStatements_eq_written indent t ts (faithful_congr hts hss)
  rw [fileChunks_congr hts] at hlayout
  exact ⟨_, _, ofStatements_eq_written indent s ss hss, hread, unplaced_congr hts, hlayout⟩

open GrammarServer.Derivation in
/-- How `?a.2:["c"->d]|` is derived. -/
def namedOption : Derivation :=
  ofItems
    (ofParts .rule [
      ofParts .ruleModifiers [ofWord .modifiers ⟨0, 1, 1⟩ "?"],
      ofWord .ruleName ⟨1, 1, 2⟩ "a",
      ofParts .templateParams [],
      ofParts .priority [ofWord .dot ⟨2, 1, 3⟩ ".", ofWord .number ⟨3, 1, 4⟩ "2"],
      ofWord .colon ⟨4, 1, 5⟩ ":",
      ofParts .expansions [ofParts .alternatives [
        ofParts .alternatives [ofParts .aliasing [ofAtom [ofParts .maybe [
          ofWord .leftBracket ⟨5, 1, 6⟩ "[",
          ofNamed (ofValue .literal .string ⟨6, 1, 7⟩ "\"c\"") ⟨9, 1, 10⟩ ⟨11, 1, 12⟩ "d",
          ofWord .rightBracket ⟨12, 1, 13⟩ "]"]]]],
        ofWord .bar ⟨13, 1, 14⟩ "|",
        ofParts .aliasing [ofParts .expansion [ofParts .exprs []]]]]])
    []

theorem Layout.ofSource_ofStatements_namedOption :
    Parse.strict "?a.2:[\"c\"->d]|" = .ok namedOption ∧ namedOption.isFaithful = true ∧
      ∃ file text file', namedOption.tree.build = .ok file ∧ file.statements ≠ [] ∧
        Layout.ofStatements "\t" file.statements = .ok text ∧ Node.ofSource text = .ok file' ∧
        file'.statements.map Node.unplaced = file.statements.map Node.unplaced ∧
        Layout.ofStatements "\t" file'.statements = .ok text := by
  have hparse : Parse.strict "?a.2:[\"c\"->d]|" = .ok namedOption :=
    Parse.strict_of_settled (by decide) rfl (by decide) (by decide +kernel)
  have hfaithful : namedOption.isFaithful = true := by decide +kernel
  obtain ⟨file, hbuild, hne⟩ :
      ∃ file, namedOption.tree.build = .ok file ∧ file.statements ≠ [] := by
    have hread :
        namedOption.tree.build.toOption.any (fun file => !file.statements.isEmpty) = true := by
      decide +kernel
    obtain ⟨file, hfile, hne⟩ := (Option.any_eq_true _ _).mp hread
    exact ⟨file, eq_ok_of_toOption hfile, by simpa using hne⟩
  have hindent : Terminal.IsIndent "\t" := by decide
  obtain ⟨text, file', h⟩ := Layout.ofSource_ofStatements hparse hbuild hne hfaithful hindent
  exact ⟨hparse, hfaithful, file, text, file', hbuild, hne, h⟩

end GrammarServer
