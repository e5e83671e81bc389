import GrammarServer.Document
import GrammarServer.Proofs.Document.Edit
import GrammarServer.Proofs.Parse.Complete
import GrammarServer.Proofs.Typed.LaidOut
import GrammarServer.Proofs.Typed.OfDerivation

/-!
# Formatting a document

Every document can be formatted, for every file that is read from a source has a layout. The edit
ends one line after the last line of the new text, so it replaces the whole document unless that
has more lines than the new text.
-/
namespace GrammarServer

namespace Typed

/-! ## Every file has a layout -/

theorem exists_bind {α β : Type} {x : Except Fault α} {f : α → Except Fault β}
    (hx : ∃ a, x = .ok a) (hf : ∀ a, ∃ b, f a = .ok b) : ∃ b, (x >>= f) = .ok b := by
  obtain ⟨a, rfl⟩ := hx
  exact hf a

def HasLayout (n : Node) : Prop := ∀ indent, ∃ s, Layout.text indent n = .ok s

theorem exists_texts {ns : List Node} (h : ∀ n ∈ ns, HasLayout n) :
    ∃ ss, Layout.texts ns = .ok ss := by
  induction ns with
  | nil => exact ⟨[], rfl⟩
  | cons n ns ih =>
    rw [Layout.texts]
    apply exists_bind (h n List.mem_cons_self Layout.usualIndent)
    intro s
    apply exists_bind (ih fun m hm => h m (List.mem_cons_of_mem _ hm))
    exact fun _ => ⟨_, rfl⟩

theorem Word.hasLayout {t : Terminal} (x : Word t) : HasLayout x.node := fun _ => ⟨_, rfl⟩

theorem hasLayout_expansion {e : Option Extent} {ns : List Node} {name : Node}
    (h : ∀ n ∈ ns, HasLayout n) : HasLayout (.expansion e ns name) := by
  intro indent
  rw [Layout.text]
  exact exists_bind (exists_texts h) fun _ => ⟨_, rfl⟩

theorem hasLayout_expr {e : Option Extent} {atom : Node} {operators : List Node}
    (hatom : ∀ items, atom ≠ .list items) (h : HasLayout atom) :
    HasLayout (.expr e atom operators) := by
  intro indent
  obtain ⟨s, hs⟩ := h Layout.usualIndent
  exact ⟨_, text_expr hatom hs⟩

mutual

theorem Value.hasLayout : ∀ v : Value, HasLayout v.node
  | .name (.rule x) => x.hasLayout
  | .name (.terminal x) => x.hasLayout
  | .string x => x.hasLayout
  | .regexp x => x.hasLayout
  | .range .. => fun _ => ⟨_, rfl⟩
  | .usage _ _ arguments => by
    have harguments := Values.hasLayout arguments
    intro indent
    rw [Value.node, Layout.text]
    exact exists_bind (exists_texts harguments) fun _ => ⟨_, rfl⟩

theorem Values.hasLayout : ∀ vs : Values, ∀ n ∈ vs.nodes, HasLayout n
  | .one v => by
    have hv := Value.hasLayout v
    exact List.forall_mem_singleton.mpr hv
  | .cons v vs => by
    have hv := Value.hasLayout v
    have hvs := Values.hasLayout vs
    exact List.forall_mem_cons.mpr ⟨hv, hvs⟩

theorem Expr.hasLayout : ∀ x : Expr, HasLayout x.node
  | .mk _ (.value v) _ => hasLayout_expr v.node_ne_list (Value.hasLayout v)
  | .mk _ (.group body) _ => by
    have hbody := Alternatives.hasLayout body
    intro indent
    rw [Expr.node, Atom.node, Layout.text]
    exact exists_bind (exists_texts hbody) fun _ => ⟨_, rfl⟩
  | .mk _ (.maybe _ body) _ => by
    have hbody := Alternatives.hasLayout_resolved body
    apply hasLayout_expr (by simp [Atom.node])
    intro indent
    rw [Atom.node, Layout.text]
    exact exists_bind (exists_texts hbody) fun _ => ⟨_, rfl⟩

theorem Exprs.hasLayout : ∀ xs : Exprs, ∀ n ∈ xs.nodes, HasLayout n
  | .nil => by simp [Exprs.nodes]
  | .cons x xs => by
    have hx := Expr.hasLayout x
    have hxs := Exprs.hasLayout xs
    exact List.forall_mem_cons.mpr ⟨hx, hxs⟩

theorem Alternative.hasLayout : ∀ a : Alternative, HasLayout a.node ∧ HasLayout a.resolved
  | .plain _ body => by
    have hbody := Exprs.hasLayout body
    exact ⟨hasLayout_expansion hbody, hasLayout_expansion hbody⟩
  | .named _ _ body _ => by
    have hbody := Exprs.hasLayout body
    exact ⟨fun _ => ⟨_, rfl⟩, hasLayout_expansion hbody⟩

theorem Alternatives.hasLayout : ∀ as : Alternatives, ∀ n ∈ as.nodes, HasLayout n
  | .one a => by
    have ha := Alternative.hasLayout a
    exact List.forall_mem_singleton.mpr ha.1
  | .cons a as => by
    have ha := Alternative.hasLayout a
    have has := Alternatives.hasLayout as
    exact List.forall_mem_cons.mpr ⟨ha.1, has⟩

theorem Alternatives.hasLayout_resolved : ∀ as : Alternatives, ∀ n ∈ as.resolved, HasLayout n
  | .one a => by
    have ha := Alternative.hasLayout a
    exact List.forall_mem_singleton.mpr ha.2
  | .cons a as => by
    have ha := Alternative.hasLayout a
    have has := Alternatives.hasLayout_resolved as
    exact List.forall_mem_cons.mpr ⟨ha.2, has⟩

end

theorem Definition.hasLayout (d : Definition) : HasLayout d.node := by
  intro indent
  cases d with
  | rule e signs name parameters priority body =>
    rw [Definition.node, Layout.text, Node.elements, ok_bind, signs_nodes, ok_bind,
      parameterList_nodes, ok_bind]
    exact exists_bind (exists_texts body.hasLayout_resolved) fun _ => ⟨_, rfl⟩
  | term e name priority body =>
    rw [Definition.node, Layout.text]
    exact exists_bind (exists_texts body.hasLayout_resolved) fun _ => ⟨_, rfl⟩

theorem Statement.hasLayout (s : Statement) : HasLayout s.node := by
  intro indent
  cases s with
  | definition d => exact d.hasLayout indent
  | override e d =>
    rw [Statement.node, Layout.text]
    exact exists_bind (d.hasLayout Layout.usualIndent) fun _ => ⟨_, rfl⟩
  | extend e d =>
    rw [Statement.node, Layout.text]
    exact exists_bind (d.hasLayout Layout.usualIndent) fun _ => ⟨_, rfl⟩
  | ignore e body =>
    rw [Statement.node, Layout.text]
    exact exists_bind (exists_texts body.hasLayout_resolved) fun _ => ⟨_, rfl⟩
  | imports e source => cases source <;> exact ⟨_, rfl⟩
  | declare | comment => exact ⟨_, rfl⟩

theorem exists_ofStatements (indent : String) (ss : List Statement) :
    ∃ text, Layout.ofStatements indent (ss.map Statement.node) = .ok text := by
  have hparts : ∃ parts, (ss.map Statement.node).mapM (Layout.text indent) = .ok parts := by
    induction ss with
    | nil => exact ⟨[], rfl⟩
    | cons s ss ih =>
      rw [List.map_cons, List.mapM_cons]
      apply exists_bind (s.hasLayout indent)
      intro part
      exact exists_bind ih fun _ => ⟨_, rfl⟩
  exact exists_bind hparts fun _ => ⟨_, rfl⟩

end Typed

namespace Document

/-! ## What a document holds -/

def Agrees (d d' : Document) : Prop := d'.source = d.source ∧ d'.file = d.file

theorem reportAll_agrees (ps : List Problem) (d : Document) : d.Agrees (d.reportAll ps) := by
  rw [reportAll]
  induction ps generalizing d with
  | nil => exact ⟨rfl, rfl⟩
  | cons p ps ih => exact ih (d.report p)

def Stage.Keeps (stage : Stage) : Prop := ∀ d : Document, d.Agrees (stage d).1

theorem tableStage_keeps (step : SymbolTable → Except Fault SymbolTable) (d : Document) :
    d.Agrees (tableStage step d).1 := by
  unfold tableStage
  split <;> exact ⟨rfl, rfl⟩

theorem referenceCheckStage_keeps : Stage.Keeps referenceCheckStage := by
  intro d
  unfold referenceCheckStage
  split
  · exact reportAll_agrees _ _
  · exact ⟨rfl, rfl⟩

theorem analyze_agrees {stages : List Stage} (h : ∀ stage ∈ stages, stage.Keeps) :
    ∀ d : Document, d.Agrees (analyze stages d) := by
  induction stages with
  | nil => exact fun d => ⟨rfl, rfl⟩
  | cons stage stages ih =>
    intro d
    obtain ⟨hstage, hrest⟩ := List.forall_mem_cons.mp h
    have hstep := hstage d
    rw [analyze]
    split
    · rename_i d' heq
      rw [heq] at hstep
      obtain ⟨hsource, hfile⟩ := ih hrest d'
      exact ⟨hsource.trans hstep.1, hfile.trans hstep.2⟩
    · rename_i d' p heq
      rw [heq] at hstep
      exact hstep

/-- The file of a source, if the parser gets to its end and a file can be built. -/
def readFile (source : String) : Option Node :=
  match (Parse.recovering source).result with
  | .error _ => none
  | .ok derivation => derivation.tree.build.toOption

theorem readStage_agrees (d : Document) (hfile : d.file = none) :
    (readStage d).1.source = d.source ∧ (readStage d).1.file = readFile d.source := by
  obtain ⟨hsource, hreport⟩ := reportAll_agrees
    ((Parse.recovering d.source).errors.map (Problem.ofSyntaxError "Parse error: ")) d
  rw [hfile] at hreport
  cases hresult : (Parse.recovering d.source).result with
  | error e =>
    simp only [readStage, readFile, hresult]
    exact ⟨hsource, hreport⟩
  | ok derivation =>
    cases hbuild : derivation.tree.build with
    | error fault =>
      simp only [readStage, readFile, hresult, hbuild]
      exact ⟨hsource, hreport⟩
    | ok file =>
      simp only [readStage, readFile, hresult, hbuild]
      exact ⟨hsource, rfl⟩

theorem ofText_agrees (load : Loader) (uri source : String) :
    (ofText load uri source).source = source ∧ (ofText load uri source).file = readFile source := by
  have hread := readStage_agrees { uri, source, lines := Text.lines source } rfl
  have hrest : ∀ stage ∈ [definitionStage, definitionCheckStage, referenceStage,
      referenceCheckStage, loadStage load], Stage.Keeps stage := by
    intro stage hstage
    simp only [List.mem_cons, List.not_mem_nil, or_false] at hstage
    rcases hstage with rfl | rfl | rfl | rfl | rfl
    · exact fun d => tableStage_keeps _ d
    · exact fun d => reportAll_agrees _ _
    · exact fun d => tableStage_keeps _ d
    · exact referenceCheckStage_keeps
    · exact fun d => ⟨rfl, rfl⟩
  rw [ofText, analyze]
  split
  · rename_i d heq
    rw [heq] at hread
    obtain ⟨hsource, hfile⟩ := analyze_agrees hrest d
    exact ⟨hsource.trans hread.1, hfile.trans hread.2⟩
  · rename_i d p heq
    rw [heq] at hread
    exact hread

theorem statements_of_read {source : String} {d : Derivation} {file : Node}
    (hresult : (Parse.recovering source).result = .ok d) (hbuild : d.tree.build = .ok file)
    (load : Loader) (uri : String) : (ofText load uri source).statements = file.statements := by
  rw [statements, (ofText_agrees load uri source).2, readFile, hresult]
  simp only [hbuild, Except.toOption]

/-- The statements of a document come from what the parser found. -/
theorem exists_read {load : Loader} {uri source : String}
    (hne : (ofText load uri source).statements ≠ []) :
    ∃ d file, (Parse.recovering source).result = .ok d ∧ d.tree.build = .ok file := by
  rw [statements, (ofText_agrees load uri source).2, readFile] at hne
  cases hresult : (Parse.recovering source).result with
  | error e =>
    rw [hresult] at hne
    exact absurd rfl hne
  | ok d =>
    rw [hresult] at hne
    cases hbuild : d.tree.build with
    | error fault =>
      simp only [hbuild, Except.toOption] at hne
      exact absurd rfl hne
    | ok file => exact ⟨d, file, rfl, hbuild⟩

/-- The statements of a document are those of a typed file. -/
theorem exists_statements_ofText (load : Loader) (uri source : String) :
    ∃ ss : List Typed.Statement,
      (ofText load uri source).statements = ss.map Typed.Statement.node := by
  by_cases hne : (ofText load uri source).statements = []
  · exact ⟨[], hne⟩
  · obtain ⟨d, file, hresult, hbuild⟩ := exists_read hne
    rw [statements_of_read hresult hbuild]
    obtain ⟨e, ss, rfl, _⟩ := Typed.exists_statements_of_recovering hresult hbuild
    exact ⟨ss, rfl⟩

/-! ## The edit -/

theorem length_splitLines (s : String) : (Text.splitLines s).length = Text.lineCount s.toList := by
  rw [Text.splitLines, List.length_map, Text.lineCount]

theorem length_last_splitLines (s : String) :
    ((Text.splitLines s).getLastD "").length = Text.lastLength s.toList := by
  rw [Text.splitLines, Text.lastLength, List.getLastD_eq_getLast?, List.getLastD_eq_getLast?,
    List.getLast?_map]
  cases (Text.piecesAt '\n' s.toList).getLast? with
  | none => rfl
  | some last => exact String.length_ofList

def replacement (newText : String) : TextEdit :=
  let lines := Text.splitLines newText
  ⟨newText, ⟨⟨0, 0⟩, ⟨lines.length, (lines.getLastD "").length⟩⟩⟩

def ended (options : FormattingOptions) (body : String) : String :=
  if options.insertFinalNewline then body ++ "\n" else body

theorem format_of_layout {d : Document} {options : FormattingOptions} {body : String}
    (hne : d.statements ≠ [])
    (hbody : Layout.ofStatements (FormattingOptions.indent options) d.statements = .ok body) :
    d.format options = .ok (replacement (ended options body)) := by
  rw [format, if_neg (by simpa using hne), hbody]
  rfl

theorem apply_replacement_iff (newText source : String) :
    (replacement newText).apply source = newText ↔
      (Text.splitLines source).length ≤ (Text.splitLines newText).length ∨
      (Text.splitLines source).length = (Text.splitLines newText).length + 1 ∧
        ((Text.splitLines source).getLastD "").length ≤
          ((Text.splitLines newText).getLastD "").length := by
  have h := TextEdit.apply_eq_newText_iff (e := replacement newText) source rfl
  rw [Text.charsAfter_eq_nil_iff, ← length_splitLines, ← length_last_splitLines] at h
  exact h

/-- The edit replaces the whole document exactly if that has no more lines than the new text, or one
more that is not longer than the last line of the new text. -/
theorem format_apply_eq_newText_iff (load : Loader) (uri source : String)
    (options : FormattingOptions) :
    ∃ edit, (ofText load uri source).format options = .ok edit ∧
      (edit.apply source = edit.newText ↔
        (Text.splitLines source).length ≤ (Text.splitLines edit.newText).length ∨
        (Text.splitLines source).length = (Text.splitLines edit.newText).length + 1 ∧
          ((Text.splitLines source).getLastD "").length ≤
            ((Text.splitLines edit.newText).getLastD "").length) := by
  obtain ⟨ss, hss⟩ := exists_statements_ofText load uri source
  by_cases hne : (ofText load uri source).statements = []
  · refine ⟨_, by rw [format, if_pos (by simp [hne]), (ofText_agrees load uri source).1]; rfl, ?_⟩
    apply iff_of_true _ (Or.inl (Nat.le_refl _))
    rw [TextEdit.apply_eq_newText_iff source rfl, Text.charsAfter_eq_nil_iff, ← length_splitLines]
    exact Or.inl (Nat.le_succ _)
  · obtain ⟨body, hbody⟩ := Typed.exists_ofStatements (FormattingOptions.indent options) ss
    rw [← hss] at hbody
    exact ⟨_, format_of_layout hne hbody, apply_replacement_iff _ source⟩

open GrammarServer.Derivation in
/-- How two rules with six empty lines between them are derived. -/
def spacedRules : Derivation :=
  ofItems
    (ofRule ⟨0, 1, 1⟩ "a" [] [] ⟨1, 1, 2⟩
      (ofAlternative [ofValue .literal .string ⟨3, 1, 4⟩ "\"x\""]))
    [ofWord .newline ⟨6, 1, 7⟩ "\n\n\n\n\n\n\n",
      ofRule ⟨13, 8, 1⟩ "b" [] [] ⟨14, 8, 2⟩
        (ofAlternative [ofValue .literal .string ⟨16, 8, 4⟩ "\"y\""]),
      ofWord .newline ⟨19, 8, 7⟩ "\n"]

theorem recovering_spacedRules :
    Parse.recovering "a: \"x\"\n\n\n\n\n\n\nb: \"y\"\n" = ⟨[], .ok spacedRules⟩ :=
  Parse.recovering_of_settled (by decide) rfl (by decide) (by decide +kernel)

theorem layout_spacedRules : ∃ file, spacedRules.tree.build = .ok file ∧ file.statements ≠ [] ∧
    Layout.ofStatements "    " file.statements = .ok "a: \"x\"\n\nb: \"y\"" := by
  have hread : spacedRules.tree.build.toOption.any (fun file => !file.statements.isEmpty &&
      (Layout.ofStatements "    " file.statements).toOption == some "a: \"x\"\n\nb: \"y\"") =
      true := by decide +kernel
  obtain ⟨file, hfile, hread⟩ := (Option.any_eq_true _ _).mp hread
  rw [Bool.and_eq_true, beq_iff_eq] at hread
  exact ⟨file, Typed.eq_ok_of_toOption hfile, by simpa using hread.1,
    Typed.eq_ok_of_toOption hread.2⟩

/-- The empty lines between two rules become one, and the end of the document is left over. -/
theorem format_spacedRules :
    ∃ edit,
      (ofText .idle "a" "a: \"x\"\n\n\n\n\n\n\nb: \"y\"\n").format ⟨4, true, false⟩ = .ok edit ∧
      edit.newText = "a: \"x\"\n\nb: \"y\"" ∧
      edit.apply "a: \"x\"\n\n\n\n\n\n\nb: \"y\"\n" = edit.newText ++ "\n\n\n\nb: \"y\"\n" ∧
      edit.apply "a: \"x\"\n\n\n\n\n\n\nb: \"y\"\n" ≠ edit.newText := by
  obtain ⟨file, hbuild, hne, hlayout⟩ := layout_spacedRules
  have hstatements : (ofText .idle "a" "a: \"x\"\n\n\n\n\n\n\nb: \"y\"\n").statements =
      file.statements := by
    rw [statements, (ofText_agrees _ _ _).2, readFile, recovering_spacedRules]
    simp only [hbuild, Except.toOption]
  have hindent : FormattingOptions.indent ⟨4, true, false⟩ = "    " := by decide
  refine ⟨_, format_of_layout (by rwa [hstatements]) (by rw [hstatements, hindent, hlayout]), rfl,
    by decide +kernel, by decide +kernel⟩

end Document

end GrammarServer
