import GrammarServer.Proofs.Typed.OfDerivation

/-!
# Every derivation builds

The parts of a phrase are such that whatever the phrase calls for can be made of them. So from a
valid derivation over well-spelled lexemes a file is built, but for priorities with too many
digits, which cannot be read as numbers.
-/
namespace GrammarServer

namespace Derivation

mutual

def priorities : Derivation → List Lexeme
  | leaf _ => []
  | node q ds =>
    (if q.left = .priority then (lexemesOfAll ds).filter (·.terminal = .number) else []) ++
      prioritiesOfAll ds

def prioritiesOfAll : List Derivation → List Lexeme
  | [] => []
  | d :: ds => priorities d ++ prioritiesOfAll ds

end

def HasReadablePriorities (d : Derivation) : Prop :=
  ∀ x ∈ d.priorities, (x.text.filter Text.isDigit).length ≤ Text.digitLimit

instance (d : Derivation) : Decidable d.HasReadablePriorities :=
  List.decidableBAll _ d.priorities

end Derivation

namespace Typed

open Node (conversionOf)

section

variable {r : List Symbol} {ds : List Derivation} {ns : List Node} {e : Option Extent}

theorem exists_integer (hr : r ∈ [[], [.terminal .dot, .terminal .number]])
    (h : SenseAll r ds ns)
    (hdigits : ∀ x ∈ Derivation.lexemesOfAll ds, x.terminal = .number →
      (x.text.filter Text.isDigit).length ≤ Text.digitLimit) :
    ∃ n, Node.Conversion.integer.ofPhrase e ns = .ok n := by
  obtain _ | ⟨_, _ | ⟨_, ⟨⟩⟩⟩ := hr
  · obtain ⟨⟩ := h
    exact ⟨_, rfl⟩
  · obtain _ | ⟨⟨_, rfl, rfl⟩, _ | ⟨⟨x, rfl, rfl⟩, ⟨⟩⟩⟩ := h
    have hcount := hdigits x.lexeme (by simp [Derivation.lexemesOfAll, Derivation.lexemes])
      x.terminal_eq
    obtain ⟨k, hk⟩ := Text.exists_readInteger x.spells hcount
    refine ⟨.number k, ?_⟩
    have hlead := x.leadingValue_node []
    simp only [Terminal.isKept, if_true, List.append_nil, Bool.false_eq_true, if_false,
      List.nil_append, Node.Conversion.ofPhrase, hlead, hk]

theorem exists_value
    (hr : r ∈ [[.phrase .terminal], [.phrase .nonterminal], [.phrase .literal], [.phrase .range],
      [.phrase .templateUsage]])
    (h : SenseAll r ds ns) : ∃ n, Node.Conversion.first.ofPhrase e ns = .ok n := by
  obtain _ | ⟨_, _ | ⟨_, hr⟩⟩ := hr
  iterate 2
    · obtain _ | ⟨⟨x, rfl, _⟩, ⟨⟩⟩ := h
      exact ⟨_, rfl⟩
  · obtain _ | ⟨_, _ | ⟨_, _ | ⟨_, ⟨⟩⟩⟩⟩ := hr
    all_goals
      obtain _ | ⟨⟨v, rfl, _⟩, ⟨⟩⟩ := h
      exact ⟨_, rfl⟩

theorem exists_expr
    (hr : r ∈ [[.phrase .atom], [.phrase .atom, .terminal .operator],
      [.phrase .atom, .terminal .tilde, .terminal .number],
      [.phrase .atom, .terminal .tilde, .terminal .number, .terminal .dotDot, .terminal .number]])
    (h : SenseAll r ds ns) : ∃ n, (Node.Conversion.form .expr).ofPhrase e ns = .ok n := by
  obtain _ | ⟨_, _ | ⟨_, _ | ⟨_, _ | ⟨_, ⟨⟩⟩⟩⟩⟩ := hr
  all_goals
    obtain _ | ⟨⟨x, rfl, _⟩, _⟩ := h
    exact ⟨_, rfl⟩

theorem exists_term
    (hr : r ∈ [[.terminal .terminalName, .terminal .colon, .phrase .expansions],
      [.terminal .terminalName, .terminal .dot, .terminal .number, .terminal .colon,
        .phrase .expansions]])
    (h : SenseAll r ds ns) : ∃ n, (Node.Conversion.form .term).ofPhrase e ns = .ok n := by
  obtain _ | ⟨_, _ | ⟨_, ⟨⟩⟩⟩ := hr
  · obtain _ | ⟨⟨x, rfl, rfl⟩, _ | ⟨⟨_, _, rfl⟩, _ | ⟨⟨as, rfl, _⟩, ⟨⟩⟩⟩⟩ := h
    exact ⟨_, make_term_plain x as⟩
  · obtain _ | ⟨⟨x, rfl, rfl⟩, _ | ⟨⟨_, _, rfl⟩, _ | ⟨⟨y, rfl, rfl⟩, _ | ⟨⟨_, _, rfl⟩,
      _ | ⟨⟨as, rfl, _⟩, ⟨⟩⟩⟩⟩⟩⟩ := h
    exact ⟨_, make_term_priority x y as⟩

theorem exists_imports
    (hr : r ∈ [[.terminal .importWord, .phrase .importPath],
      [.terminal .importWord, .phrase .importPath, .terminal .leftParen, .phrase .nameList,
        .terminal .rightParen],
      [.terminal .importWord, .phrase .importPath, .terminal .arrow, .phrase .name]])
    (h : SenseAll r ds ns) : ∃ n, (Node.Conversion.form .imports).ofPhrase e ns = .ok n := by
  obtain _ | ⟨_, _ | ⟨_, _ | ⟨_, ⟨⟩⟩⟩⟩ := hr
  · obtain _ | ⟨⟨_, _, rfl⟩, _ | ⟨⟨p, rfl, _⟩, ⟨⟩⟩⟩ := h
    exact ⟨_, rfl⟩
  · obtain _ | ⟨⟨_, _, rfl⟩, _ | ⟨⟨p, rfl, _⟩, _ | ⟨⟨_, _, rfl⟩, _ | ⟨⟨x, xs, rfl, _⟩,
      _ | ⟨⟨_, _, rfl⟩, ⟨⟩⟩⟩⟩⟩⟩ := h
    exact ⟨_, makeImport_listed p x xs⟩
  · obtain _ | ⟨⟨_, _, rfl⟩, _ | ⟨⟨p, rfl, _⟩, _ | ⟨⟨_, _, rfl⟩, _ | ⟨⟨x, rfl, _⟩, ⟨⟩⟩⟩⟩⟩ := h
    exact ⟨_, makeImport_renamed p x⟩

/-- What a phrase calls for can be made of its parts. -/
theorem exists_ofPhrase {p : Phrase} {c : Node.Conversion} (hr : r ∈ rightsOf p)
    (h : SenseAll r ds ns) (hc : conversionOf p = some c)
    (hmany : p.isTransparent = true → Derivation.givenBy r ≠ 1)
    (hdigits : p = .priority → ∀ x ∈ Derivation.lexemesOfAll ds, x.terminal = .number →
      (x.text.filter Text.isDigit).length ≤ Text.digitLimit) :
    ∃ n, c.ofPhrase e ns = .ok n := by
  cases p <;> cases hc
  case start | expansions | expansion | declare | comment => exact ⟨_, rfl⟩
  case templateParams | nameList => exact ⟨_, rfl⟩
  case priority => exact exists_integer hr h (hdigits rfl)
  case value => exact exists_value hr h
  case expr => exact exists_expr hr h
  case term => exact exists_term hr h
  case imports => exact exists_imports hr h
  case rule =>
    obtain _ | ⟨_, ⟨⟩⟩ := hr
    obtain ⟨d, hd, _⟩ := exists_rule (r := []) (e := e) h
    exact ⟨d.node, hd⟩
  case ruleModifiers =>
    rw [Node.Conversion.ofPhrase]
    split <;> exact ⟨_, rfl⟩
  case terminal | nonterminal =>
    obtain _ | ⟨_, ⟨⟩⟩ := hr
    obtain _ | ⟨⟨x, rfl, rfl⟩, ⟨⟩⟩ := h
    exact ⟨_, rfl⟩
  case literal =>
    obtain _ | ⟨_, _ | ⟨_, ⟨⟩⟩⟩ := hr
    all_goals
      obtain _ | ⟨⟨x, rfl, rfl⟩, ⟨⟩⟩ := h
      exact ⟨_, rfl⟩
  case aliasing =>
    obtain _ | ⟨_, _ | ⟨_, ⟨⟩⟩⟩ := hr
    · obtain _ | ⟨⟨e', xs, rfl, _⟩, _ | ⟨⟨_, _, rfl⟩, _ | ⟨⟨x, rfl, _⟩, ⟨⟩⟩⟩⟩ := h
      exact ⟨_, rfl⟩
    · exact absurd rfl (hmany rfl)
  case maybe =>
    obtain _ | ⟨_, ⟨⟩⟩ := hr
    obtain _ | ⟨⟨_, _, rfl⟩, _ | ⟨⟨as, rfl, _⟩, _ | ⟨⟨_, _, rfl⟩, ⟨⟩⟩⟩⟩ := h
    change ∃ n, ((Node.list as.nodes).expansionsOf >>= fun expansions =>
      pure (Node.maybe e expansions)) = .ok n
    rw [expansionsOf_list]
    exact ⟨_, rfl⟩
  case ignore =>
    obtain _ | ⟨_, ⟨⟩⟩ := hr
    obtain _ | ⟨⟨_, _, rfl⟩, _ | ⟨⟨as, rfl, _⟩, ⟨⟩⟩⟩ := h
    change ∃ n, ((Node.list as.nodes).expansionsOf >>= fun expansions =>
      pure (Node.ignore e expansions)) = .ok n
    rw [expansionsOf_list]
    exact ⟨_, rfl⟩
  case range =>
    obtain _ | ⟨_, ⟨⟩⟩ := hr
    obtain _ | ⟨⟨x, rfl, rfl⟩, _ | ⟨⟨_, _, rfl⟩, _ | ⟨⟨y, rfl, rfl⟩, ⟨⟩⟩⟩⟩ := h
    exact ⟨_, rfl⟩
  case templateUsage =>
    obtain _ | ⟨_, ⟨⟩⟩ := hr
    obtain _ | ⟨⟨x, rfl, _⟩, _⟩ := h
    exact ⟨_, rfl⟩
  case override | extend =>
    obtain _ | ⟨_, _ | ⟨_, ⟨⟩⟩⟩ := hr
    all_goals
      obtain _ | ⟨⟨_, _, rfl⟩, _ | ⟨⟨d, rfl, _⟩, ⟨⟩⟩⟩ := h
      exact ⟨_, rfl⟩
  case importLib =>
    obtain _ | ⟨_, ⟨⟩⟩ := hr
    obtain _ | ⟨⟨xs, x, rfl, _⟩, ⟨⟩⟩ := h
    rw [List.append_nil, Node.Conversion.ofPhrase, importSource_names]
    exact ⟨_, rfl⟩
  case importRel =>
    obtain _ | ⟨_, ⟨⟩⟩ := hr
    obtain _ | ⟨⟨_, _, rfl⟩, _ | ⟨⟨xs, x, rfl, _⟩, ⟨⟩⟩⟩ := h
    rw [List.append_nil]
    exact ⟨_, importSource_names "." xs x⟩

end

/-! ## Whole derivations -/

/-- A phrase is spliced, or stands aside for a single part, or calls for a conversion. -/
theorem phrase_cases : ∀ q ∈ Production.all, q.left.isSpliced = true ∨
    q.left.isSpliced = false ∧ q.left.isTransparent = true ∧
      q.right.all Derivation.isWhole = true ∧ Derivation.givenBy q.right = 1 ∨
    q.left.isSpliced = false ∧ (conversionOf q.left).isSome = true ∧
      (q.left.isTransparent = true →
        q.right.all Derivation.isWhole = true ∧ Derivation.givenBy q.right ≠ 1) := by
  decide +kernel

mutual

theorem exists_builds : ∀ d : Derivation, d.Valid → (∀ x ∈ d.lexemes, x.IsSpelled) →
    d.HasReadablePriorities → ∀ e : Option Extent, ∃ ns, d.Builds e ns
  | .leaf x, _, _, _, e => ⟨_, Derivation.builds_leaf.mpr rfl⟩
  | .node q ds, ⟨hq, hspell, hvalid⟩, hspelled, hpriorities, e => by
    rw [Derivation.HasReadablePriorities, Derivation.priorities, List.forall_mem_append]
      at hpriorities
    have hall := exists_buildsAll ds hvalid hspelled hpriorities.2
    rcases phrase_cases q hq with hspliced | ⟨hwhole, htransparent, hparts, hone⟩ |
      ⟨hwhole, hconverts, hmany⟩
    · obtain ⟨ns, hns⟩ := hall e
      exact ⟨ns, (Derivation.builds_spliced hspliced).mpr hns⟩
    · obtain ⟨ns, hns⟩ := hall (Derivation.hull ds <|> e)
      exact ⟨ns, (Derivation.builds_single hspell hwhole htransparent hparts hone).mpr hns⟩
    · obtain ⟨c, hc⟩ := Option.isSome_iff_exists.mp hconverts
      obtain ⟨parts, hbuilds⟩ := hall none
      have hsense : SenseAll q.right ds parts := hspell ▸
        senseAll_of_buildsAll hbuilds (sense_of_builds_all ds hvalid hspelled)
      have hdigits : q.left = .priority → ∀ x ∈ Derivation.lexemesOfAll ds,
          x.terminal = .number → (x.text.filter Text.isDigit).length ≤ Text.digitLimit := by
        intro hleft x hx hnumber
        apply hpriorities.1
        rw [if_pos hleft]
        exact List.mem_filter.mpr ⟨hx, decide_eq_true hnumber⟩
      obtain ⟨n, hn⟩ := exists_ofPhrase (e := Derivation.hull ds <|> e) (right_mem hq) hsense hc
        (fun htransparent => (hmany htransparent).2) hdigits
      exact ⟨[n], (Derivation.builds_node hspell hwhole hmany hc).mpr ⟨parts, n, hbuilds, hn, rfl⟩⟩

theorem exists_buildsAll : ∀ ds : List Derivation, Derivation.AllValid ds →
    (∀ x ∈ Derivation.lexemesOfAll ds, x.IsSpelled) →
    (∀ x ∈ Derivation.prioritiesOfAll ds, (x.text.filter Text.isDigit).length ≤ Text.digitLimit) →
    ∀ e : Option Extent, ∃ ns, Derivation.BuildsAll e ds ns
  | [], _, _, _, _ => ⟨[], rfl⟩
  | d :: ds, ⟨hd, hds⟩, hspelled, hpriorities, e => by
    rw [Derivation.lexemesOfAll, List.forall_mem_append] at hspelled
    rw [Derivation.prioritiesOfAll, List.forall_mem_append] at hpriorities
    obtain ⟨ms, hms⟩ := exists_builds d hd hspelled.1 hpriorities.1 e
    obtain ⟨ns, hns⟩ := exists_buildsAll ds hds hspelled.2 hpriorities.2 e
    exact ⟨ms ++ ns, ms, ns, hms, hns, rfl⟩

end

/-- A file is built from every source in which the parser finds one. -/
theorem exists_file {source : String} {d : Derivation}
    (h : (Parse.recovering source).result = .ok d) (hpriorities : d.HasReadablePriorities) :
    ∃ file, d.tree.build = .ok file := by
  obtain ⟨hvalid, hstart, _⟩ := Parse.valid_of_recovering h
  obtain ⟨ns, hns⟩ := exists_builds d hvalid (isSpelled_of_recovering h) hpriorities none
  have hlength := Derivation.length_nodes (d := d) (by rw [hstart]; rfl)
  have hone : ns.length = 1 := by
    rw [Node.length_of_buildAll hns, List.length_map, hlength, hstart]
    rfl
  obtain ⟨file, rfl⟩ := List.length_eq_one_iff.mp hone
  exact ⟨file, (Derivation.build_tree_eq_ok hstart).mpr hns⟩

end Typed

end GrammarServer
