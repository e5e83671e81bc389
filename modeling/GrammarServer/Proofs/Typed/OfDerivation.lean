import GrammarServer.Proofs.Node.Built
import GrammarServer.Proofs.Parse.Sound
import GrammarServer.Proofs.Text.Numeral
import GrammarServer.Proofs.Typed.Content

/-!
# Derivations build typed files

Whatever a valid derivation over well-spelled lexemes builds, it builds the nodes of something
typed; which type that is depends on the phrase. If the derivation is faithful, so is what it
builds, and both tell the same.
-/
namespace GrammarServer.Typed

open Chunk (contents)
open Node (conversionOf)

structure Conveys (d : Derivation) (ss : List Statement) : Prop where
  writable : d.isWritable = true → ∀ s ∈ ss, s.Writable
  tells : Tells d (ss.flatMap Statement.uses) (ss.flatMap Statement.contents)

/-- What a derivation assures of a part that is built from it: that it is faithful, and that its
groups name nothing, if the derivation is so. -/
structure Assures (d : Derivation) (faithful unnamed : Prop) : Prop where
  faithful : d.isFaithful = true → faithful
  unnamed : d.namesGroup = false → unnamed

/-- What can be built from a derivation of a symbol. -/
def Sense (d : Derivation) (ns : List Node) : Symbol → Prop
  | .terminal t =>
    ∃ x : Word t, d = .leaf x.lexeme ∧ ns = if t.isKept then [x.node] else []
  | .phrase .start =>
    ∃ (e : Option Extent) (ss : List Statement), ns = [.file e (ss.map Statement.node)] ∧
      Assures d (∀ s ∈ ss, s.Faithful) (∀ s ∈ ss, s.GroupsUnnamed) ∧ Conveys d ss
  | .phrase .list | .phrase .item =>
    ∃ ss : List Statement, ns = ss.map Statement.node ∧
      Assures d (∀ s ∈ ss, s.Faithful) (∀ s ∈ ss, s.GroupsUnnamed) ∧ Conveys d ss
  | .phrase .override | .phrase .extend | .phrase .ignore | .phrase .declare | .phrase .imports
  | .phrase .comment =>
    ∃ s : Statement, ns = [s.node] ∧ Assures d s.Faithful s.GroupsUnnamed ∧
      (d.isWritable = true → s.Writable) ∧ Tells d s.uses s.contents
  | .phrase .rule | .phrase .term =>
    ∃ s : Definition, ns = [s.node] ∧ Assures d s.Faithful s.GroupsUnnamed ∧
      (d.isWritable = true → s.Faithful) ∧ Tells d s.uses s.contents
  | .phrase .ruleModifiers =>
    (ns = [.absent] ∨ ∃ x : Word .modifiers, ns = [.list (Node.letters (String.ofList x.text))]) ∧
      Tells d [] []
  | .phrase .priority =>
    ns = [.absent] ∧ Tells d [] [] ∨
      ∃ p : Priority, ns = [.number p.value] ∧ Tells d [] (contents p.chunks)
  | .phrase .templateParams =>
    ns = [.absent] ∧ Tells d [] [] ∨ ∃ (x : Word .ruleName) (xs : List (Word .ruleName)),
      ns = [.list ((x :: xs).map Word.node)] ∧ TellsNames d ((x :: xs).map .rule)
  | .phrase .templateParamNames =>
    ∃ (x : Word .ruleName) (xs : List (Word .ruleName)), ns = (x :: xs).map Word.node ∧
      TellsNames d ((x :: xs).map .rule)
  | .phrase .expansions =>
    ∃ as : Alternatives, ns = [.list as.nodes] ∧ Assures d as.Faithful as.GroupsUnnamed ∧
      (d.namesAlternative = false → as.Unnamed) ∧ Tells d as.uses (contents as.chunks)
  | .phrase .alternatives =>
    ∃ as : Alternatives, ns = as.nodes ∧ Assures d as.Faithful as.GroupsUnnamed ∧
      (d.namesAlternative = false → as.Unnamed) ∧ Tells d as.uses (contents as.chunks)
  | .phrase .aliasing =>
    ∃ a : Alternative, ns = [a.node] ∧ Assures d a.Faithful a.GroupsUnnamed ∧
      (d.namesAlternative = false → a.Unnamed) ∧ Tells d a.uses (contents a.chunks)
  | .phrase .expansion =>
    ∃ (e : Option Extent) (xs : Exprs), ns = [.expansion e xs.nodes .absent] ∧
      Assures d xs.Faithful xs.GroupsUnnamed ∧ Tells d xs.uses (contents xs.chunks)
  | .phrase .exprs =>
    ∃ xs : Exprs, ns = xs.nodes ∧ Assures d xs.Faithful xs.GroupsUnnamed ∧
      Tells d xs.uses (contents xs.chunks)
  | .phrase .expr =>
    ∃ x : Expr, ns = [x.node] ∧ Assures d x.Faithful x.GroupsUnnamed ∧
      Tells d x.uses (contents x.chunks)
  | .phrase .atom =>
    ∃ x : Atom, ns = [x.node] ∧ Assures d x.Faithful x.GroupsUnnamed ∧
      Tells d x.uses (contents x.chunks)
  | .phrase .maybe =>
    ∃ (e : Option Extent) (as : Alternatives), ns = [.maybe e as.resolved] ∧
      Assures d as.Faithful as.GroupsUnnamed ∧ Tells d as.uses (contents as.chunks)
  | .phrase .value | .phrase .literal | .phrase .range | .phrase .templateUsage =>
    ∃ v : Value, ns = [v.node] ∧ Assures d v.Faithful v.GroupsUnnamed ∧
      Tells d v.uses (contents v.chunks)
  | .phrase .templateArgs =>
    ∃ vs : Values, ns = vs.nodes ∧ Assures d vs.Faithful vs.GroupsUnnamed ∧
      Tells d vs.uses (contents vs.chunks)
  | .phrase .terminal => ∃ x : Word .terminalName, ns = [x.node] ∧ TellsNames d [.terminal x]
  | .phrase .nonterminal => ∃ x : Word .ruleName, ns = [x.node] ∧ TellsNames d [.rule x]
  | .phrase .name => ∃ x : Name, ns = [x.node] ∧ d.nameCount = 1 ∧ TellsNames d [x]
  | .phrase .symbol => ∃ x : Name, ns = [x.node] ∧ TellsNames d [x]
  | .phrase .importPath | .phrase .importLib | .phrase .importRel =>
    ∃ p : Path, ns = [.list [.text p.text, p.last.node]] ∧ d.nameCount = p.init.length + 1 ∧
      TellsNames d (p.init ++ [p.last])
  | .phrase .importArgs =>
    ∃ (xs : List Name) (x : Name), ns = (xs ++ [x]).map Name.node ∧
      d.nameCount = xs.length + 1 ∧ TellsNames d (xs ++ [x])
  | .phrase .nameList =>
    ∃ (x : Name) (xs : List Name), ns = [.list ((x :: xs).map Name.node)] ∧
      TellsNames d (x :: xs)
  | .phrase .names | .phrase .declareArgs =>
    ∃ (x : Name) (xs : List Name), ns = (x :: xs).map Name.node ∧ TellsNames d (x :: xs)

inductive SenseAll : List Symbol → List Derivation → List Node → Prop
  | nil : SenseAll [] [] []
  | cons {x : Symbol} {d : Derivation} {ms : List Node} {xs : List Symbol}
      {ds : List Derivation} {ns : List Node} :
      Sense d ms x → SenseAll xs ds ns → SenseAll (x :: xs) (d :: ds) (ms ++ ns)

theorem isFaithful_node {q : Production} {ds : List Derivation}
    (h : (Derivation.node q ds).isFaithful = true) :
    Derivation.isFaithfulNode q.left ds = true ∧ ∀ d ∈ ds, d.isFaithful = true := by
  rw [Derivation.isFaithful, Bool.and_eq_true] at h
  refine ⟨h.1, ?_⟩
  replace h := h.2
  induction ds with
  | nil => simp
  | cons d ds ih =>
    rw [Derivation.areFaithful, Bool.and_eq_true] at h
    exact List.forall_mem_cons.mpr ⟨h.1, ih h.2⟩

theorem namesGroup_node {q : Production} {ds : List Derivation}
    (h : (Derivation.node q ds).namesGroup = false) :
    Derivation.isNamingGroup q.left ds = false ∧ ∀ d ∈ ds, d.namesGroup = false := by
  rw [Derivation.namesGroup, Bool.or_eq_false_iff] at h
  refine ⟨h.1, ?_⟩
  replace h := h.2
  induction ds with
  | nil => simp
  | cons d ds ih =>
    rw [Derivation.namesGroupIn, Bool.or_eq_false_iff] at h
    exact List.forall_mem_cons.mpr ⟨h.1, ih h.2⟩

namespace Assures

variable {d : Derivation} {P P' Q Q' : Prop}

theorem trivially : Assures d True True := ⟨fun _ => trivial, fun _ => trivial⟩

theorem and (h : Assures d P Q) (h' : Assures d P' Q') : Assures d (P ∧ P') (Q ∧ Q') :=
  ⟨fun hf => ⟨h.faithful hf, h'.faithful hf⟩, fun hu => ⟨h.unnamed hu, h'.unnamed hu⟩⟩

/-- A phrase assures what one of its parts does. -/
theorem node {q : Production} {ds : List Derivation} (h : Assures d P Q) (hd : d ∈ ds) :
    Assures (.node q ds) P Q :=
  ⟨fun hf => h.faithful ((isFaithful_node hf).2 d hd),
    fun hu => h.unnamed ((namesGroup_node hu).2 d hd)⟩

end Assures

/-! ## Names -/

theorem nameCount_nil (q : Production) : (Derivation.node q []).nameCount = 0 := rfl

theorem nameCount_cons (q : Production) (d : Derivation) (ds : List Derivation) :
    (Derivation.node q (d :: ds)).nameCount = d.nameCount + (Derivation.node q ds).nameCount :=
  List.countP_append

theorem nameCount_word {t : Terminal} (x : Word t) :
    (Derivation.leaf x.lexeme).nameCount = if Derivation.isName t then 1 else 0 := by
  rw [Derivation.nameCount, Derivation.lexemes, List.countP_singleton, x.terminal_eq]

section

variable {r : List Symbol} {ds : List Derivation} {ns : List Node} {e : Option Extent} {n : Node}

theorem sense_name (hr : r ∈ [[.terminal .ruleName], [.terminal .terminalName]])
    (h : SenseAll r ds ns) : Sense (.node ⟨.name, r⟩ ds) ns (.phrase .name) := by
  obtain _ | ⟨_, _ | ⟨_, ⟨⟩⟩⟩ := hr
  · obtain _ | ⟨⟨x, rfl, rfl⟩, ⟨⟩⟩ := h
    exact ⟨.rule x, rfl, by simp [nameCount_nil, nameCount_cons, nameCount_word, Derivation.isName],
      tellsNames_single (by decide) (tellsNames_leaf (.rule x))⟩
  · obtain _ | ⟨⟨x, rfl, rfl⟩, ⟨⟩⟩ := h
    exact ⟨.terminal x, rfl,
      by simp [nameCount_nil, nameCount_cons, nameCount_word, Derivation.isName],
      tellsNames_single (by decide) (tellsNames_leaf (.terminal x))⟩

theorem sense_symbol (hr : r ∈ [[.phrase .terminal], [.phrase .nonterminal]])
    (h : SenseAll r ds ns) : Sense (.node ⟨.symbol, r⟩ ds) ns (.phrase .symbol) := by
  obtain _ | ⟨_, _ | ⟨_, ⟨⟩⟩⟩ := hr
  · obtain _ | ⟨⟨x, rfl, hx⟩, ⟨⟩⟩ := h
    exact ⟨.terminal x, rfl, tellsNames_single (by decide) hx⟩
  · obtain _ | ⟨⟨x, rfl, hx⟩, ⟨⟩⟩ := h
    exact ⟨.rule x, rfl, tellsNames_single (by decide) hx⟩

theorem sense_terminal (hr : r ∈ [[.terminal .terminalName]]) (h : SenseAll r ds ns)
    (hn : Node.Conversion.first.ofPhrase e ns = .ok n) :
    Sense (.node ⟨.terminal, r⟩ ds) [n] (.phrase .terminal) := by
  obtain _ | ⟨_, ⟨⟩⟩ := hr
  obtain _ | ⟨⟨x, rfl, rfl⟩, ⟨⟩⟩ := h
  cases hn
  exact ⟨x, rfl, tellsNames_single (by decide) (tellsNames_leaf (.terminal x))⟩

theorem sense_nonterminal (hr : r ∈ [[.terminal .ruleName]]) (h : SenseAll r ds ns)
    (hn : Node.Conversion.first.ofPhrase e ns = .ok n) :
    Sense (.node ⟨.nonterminal, r⟩ ds) [n] (.phrase .nonterminal) := by
  obtain _ | ⟨_, ⟨⟩⟩ := hr
  obtain _ | ⟨⟨x, rfl, rfl⟩, ⟨⟩⟩ := h
  cases hn
  exact ⟨x, rfl, tellsNames_single (by decide) (tellsNames_leaf (.rule x))⟩

theorem sense_names (hr : r ∈ [[.phrase .name], [.phrase .names, .terminal .comma, .phrase .name]])
    (h : SenseAll r ds ns) : Sense (.node ⟨.names, r⟩ ds) ns (.phrase .names) := by
  obtain _ | ⟨_, _ | ⟨_, ⟨⟩⟩⟩ := hr
  · obtain _ | ⟨⟨x, rfl, _, hx⟩, ⟨⟩⟩ := h
    exact ⟨x, [], rfl, tellsNames_single (by decide) hx⟩
  · obtain _ | ⟨⟨x, xs, rfl, hxs⟩, _ | ⟨⟨_, rfl, rfl⟩, _ | ⟨⟨y, rfl, _, hy⟩, ⟨⟩⟩⟩⟩ := h
    exact ⟨x, xs ++ [y], by simp [Terminal.isKept], tellsNames_apart (by decide) rfl hxs hy⟩

theorem sense_nameList (hr : r ∈ [[.phrase .names]]) (h : SenseAll r ds ns)
    (hn : Node.Conversion.listing.ofPhrase e ns = .ok n) :
    Sense (.node ⟨.nameList, r⟩ ds) [n] (.phrase .nameList) := by
  obtain _ | ⟨_, ⟨⟩⟩ := hr
  obtain _ | ⟨⟨x, xs, rfl, hxs⟩, ⟨⟩⟩ := h
  rw [List.append_nil] at hn
  cases hn
  exact ⟨x, xs, rfl, tellsNames_single (by decide) hxs⟩

theorem sense_declareArgs
    (hr : r ∈ [[.phrase .symbol], [.phrase .declareArgs, .phrase .symbol]])
    (h : SenseAll r ds ns) : Sense (.node ⟨.declareArgs, r⟩ ds) ns (.phrase .declareArgs) := by
  obtain _ | ⟨_, _ | ⟨_, ⟨⟩⟩⟩ := hr
  · obtain _ | ⟨⟨x, rfl, hx⟩, ⟨⟩⟩ := h
    exact ⟨x, [], rfl, tellsNames_single (by decide) hx⟩
  · obtain _ | ⟨⟨x, xs, rfl, hxs⟩, _ | ⟨⟨y, rfl, hy⟩, ⟨⟩⟩⟩ := h
    exact ⟨x, xs ++ [y], by simp, by
      simpa [TellsNames] using TellsAll.node (.cons hxs (.cons hy .nil)) rfl (by decide)⟩

theorem sense_templateParamNames
    (hr : r ∈ [[.terminal .ruleName],
      [.phrase .templateParamNames, .terminal .comma, .terminal .ruleName]])
    (h : SenseAll r ds ns) :
    Sense (.node ⟨.templateParamNames, r⟩ ds) ns (.phrase .templateParamNames) := by
  obtain _ | ⟨_, _ | ⟨_, ⟨⟩⟩⟩ := hr
  · obtain _ | ⟨⟨x, rfl, rfl⟩, ⟨⟩⟩ := h
    exact ⟨x, [], rfl, tellsNames_single (by decide) (tellsNames_leaf (.rule x))⟩
  · obtain _ | ⟨⟨x, xs, rfl, hxs⟩, _ | ⟨⟨_, rfl, rfl⟩, _ | ⟨⟨y, rfl, rfl⟩, ⟨⟩⟩⟩⟩ := h
    refine ⟨x, xs ++ [y], by simp [Terminal.isKept], ?_⟩
    rw [← List.cons_append, List.map_append]
    exact tellsNames_apart (by decide) rfl hxs (tellsNames_leaf (.rule y))

theorem sense_templateParams
    (hr : r ∈ [[], [.terminal .leftBrace, .phrase .templateParamNames, .terminal .rightBrace]])
    (h : SenseAll r ds ns) (hn : Node.Conversion.listing.ofPhrase e ns = .ok n) :
    Sense (.node ⟨.templateParams, r⟩ ds) [n] (.phrase .templateParams) := by
  obtain _ | ⟨_, _ | ⟨_, ⟨⟩⟩⟩ := hr
  · obtain ⟨⟩ := h
    cases hn
    exact Or.inl ⟨rfl, TellsAll.nil.node rfl (by decide)⟩
  · obtain _ | ⟨⟨_, rfl, rfl⟩, _ | ⟨⟨x, xs, rfl, hxs⟩, _ | ⟨⟨_, rfl, rfl⟩, ⟨⟩⟩⟩⟩ := h
    right
    refine ⟨x, xs, ?_, tells_enclosed (by decide) rfl rfl hxs⟩
    have : n = .list ((x :: xs).map Word.node) := by
      simpa [Terminal.isKept, Node.Conversion.ofPhrase, eq_comm] using hn
    rw [this]

/-! ## Values -/

theorem toText_token (x : Lexeme) : (Node.token x.token).toText = String.ofList x.text := rfl

theorem faithful_of_leaf (x : Word .regexp) (h : (Derivation.leaf x.lexeme).isFaithful = true) :
    Terminal.closingEscapes x.text % 2 = 0 := by
  rw [Derivation.isFaithful, x.terminal_eq] at h
  simpa [Word.text] using h

theorem sense_literal (hr : r ∈ [[.terminal .regexp], [.terminal .string]])
    (h : SenseAll r ds ns) (hn : Node.Conversion.first.ofPhrase e ns = .ok n) :
    Sense (.node ⟨.literal, r⟩ ds) [n] (.phrase .literal) := by
  obtain _ | ⟨_, _ | ⟨_, ⟨⟩⟩⟩ := hr
  · obtain _ | ⟨⟨x, rfl, rfl⟩, ⟨⟩⟩ := h
    cases hn
    refine ⟨.regexp x, rfl, ⟨fun hf => ?_, fun _ => trivial⟩,
      tells_single (by decide) (tells_word x rfl rfl nofun)⟩
    exact faithful_of_leaf x ((isFaithful_node hf).2 _ List.mem_cons_self)
  · obtain _ | ⟨⟨x, rfl, rfl⟩, ⟨⟩⟩ := h
    cases hn
    exact ⟨.string x, rfl, .trivially, tells_single (by decide) (tells_word x rfl rfl nofun)⟩

theorem sense_range (hr : r ∈ [[.terminal .string, .terminal .dotDot, .terminal .string]])
    (h : SenseAll r ds ns) (hn : (Node.Conversion.form .range).ofPhrase e ns = .ok n) :
    Sense (.node ⟨.range, r⟩ ds) [n] (.phrase .range) := by
  obtain _ | ⟨_, ⟨⟩⟩ := hr
  obtain _ | ⟨⟨x, rfl, rfl⟩, _ | ⟨⟨_, rfl, rfl⟩, _ | ⟨⟨y, rfl, rfl⟩, ⟨⟩⟩⟩⟩ := h
  cases hn
  exact ⟨.range e x y, rfl, .trivially, tells_apart (by decide) rfl
    (tells_word x rfl rfl nofun) (tells_word y rfl rfl nofun)⟩

theorem sense_templateArgs
    (hr : r ∈ [[.phrase .value], [.phrase .templateArgs, .terminal .comma, .phrase .value]])
    (h : SenseAll r ds ns) : Sense (.node ⟨.templateArgs, r⟩ ds) ns (.phrase .templateArgs) := by
  obtain _ | ⟨_, _ | ⟨_, ⟨⟩⟩⟩ := hr
  · obtain _ | ⟨⟨v, rfl, hv, htells⟩, ⟨⟩⟩ := h
    exact ⟨.one v, rfl, hv.node (by simp),
      tells_single (by decide) htells⟩
  · obtain _ | ⟨⟨vs, rfl, hvs, hfirst⟩, _ | ⟨⟨_, rfl, rfl⟩, _ | ⟨⟨v, rfl, hv, hlast⟩, ⟨⟩⟩⟩⟩ := h
    refine ⟨vs.snoc v, by simp [Values.nodes_snoc, Terminal.isKept], ?_, ?_⟩
    · rw [vs.faithful_snoc, vs.groupsUnnamed_snoc]
      exact (hvs.node (by simp)).and (hv.node (by simp))
    · rw [vs.uses_snoc, vs.contents_snoc]
      exact tells_apart (by decide) rfl hfirst hlast

theorem sense_templateUsage
    (hr : r ∈ [[.phrase .nonterminal, .terminal .leftBrace, .phrase .templateArgs,
      .terminal .rightBrace]])
    (h : SenseAll r ds ns) (hn : (Node.Conversion.form .templateUsage).ofPhrase e ns = .ok n) :
    Sense (.node ⟨.templateUsage, r⟩ ds) [n] (.phrase .templateUsage) := by
  obtain _ | ⟨_, ⟨⟩⟩ := hr
  obtain _ | ⟨⟨x, rfl, hx⟩, _ | ⟨⟨y, rfl, rfl⟩, _ | ⟨⟨vs, rfl, hvs, htells⟩, _ | ⟨⟨z, rfl, rfl⟩,
    ⟨⟩⟩⟩⟩⟩ := h
  cases hn
  refine ⟨.usage e x vs, by simp [Value.node, Terminal.isKept], hvs.node (by simp), ?_⟩
  · have hparts := TellsAll.cons hx (.cons (tells_silent y rfl) (.cons htells
      (.cons_last (tells_silent z rfl))))
    simpa [Value.uses, Value.chunks, Terminal.isContent, Name.key] using hparts.node rfl (by decide)

theorem sense_value
    (hr : r ∈ [[.phrase .terminal], [.phrase .nonterminal], [.phrase .literal], [.phrase .range],
      [.phrase .templateUsage]])
    (h : SenseAll r ds ns) (hn : Node.Conversion.first.ofPhrase e ns = .ok n) :
    Sense (.node ⟨.value, r⟩ ds) [n] (.phrase .value) := by
  obtain _ | ⟨_, _ | ⟨_, hr⟩⟩ := hr
  · obtain _ | ⟨⟨x, rfl, hx⟩, ⟨⟩⟩ := h
    cases hn
    exact ⟨.name (.terminal x), rfl, .trivially, tells_single (by decide) hx⟩
  · obtain _ | ⟨⟨x, rfl, hx⟩, ⟨⟩⟩ := h
    cases hn
    exact ⟨.name (.rule x), rfl, .trivially, tells_single (by decide) hx⟩
  · obtain _ | ⟨_, _ | ⟨_, _ | ⟨_, ⟨⟩⟩⟩⟩ := hr
    all_goals
      obtain _ | ⟨⟨v, rfl, hv, htells⟩, ⟨⟩⟩ := h
      cases hn
      exact ⟨v, rfl, hv.node (by simp),
        tells_single (by decide) htells⟩

/-! ## Expressions and expansions -/

theorem sense_atom
    (hr : r ∈ [[.terminal .leftParen, .phrase .expansions, .terminal .rightParen],
      [.phrase .maybe], [.phrase .value]])
    (h : SenseAll r ds ns) : Sense (.node ⟨.atom, r⟩ ds) ns (.phrase .atom) := by
  obtain _ | ⟨_, _ | ⟨_, _ | ⟨_, ⟨⟩⟩⟩⟩ := hr
  · obtain _ | ⟨⟨x, rfl, rfl⟩, _ | ⟨⟨as, rfl, has, hnames, htells⟩, _ | ⟨⟨y, rfl, rfl⟩, ⟨⟩⟩⟩⟩ := h
    refine ⟨.group as, rfl, .and ⟨fun hf => hnames ?_, fun hu => hnames ?_⟩ (has.node (by simp)),
      rfl, ?_⟩
    · simpa [Derivation.isFaithfulNode] using (isFaithful_node hf).1
    · exact (namesGroup_node hu).1
    · have hparts := TellsAll.cons (tells_silent x rfl) (.cons htells
        (.cons_last (tells_silent y rfl)))
      rw [Derivation.wording, if_neg (by decide), hparts.flatten.2]
      simp [Atom.chunks, Terminal.isContent]
  · obtain _ | ⟨⟨e, as, rfl, has, htells⟩, ⟨⟩⟩ := h
    refine ⟨.maybe e as, rfl, has.node (by simp), ?_⟩
    have hcontents : contents (Atom.maybe e as).chunks = contents as.chunks := by
      simp [Atom.chunks, Terminal.isContent]
    rw [hcontents]
    exact tells_single (by decide) htells
  · obtain _ | ⟨⟨v, rfl, hv, htells⟩, ⟨⟩⟩ := h
    exact ⟨.value v, rfl, hv.node (by simp),
      tells_single (by decide) htells⟩

theorem sense_expr
    (hr : r ∈ [[.phrase .atom], [.phrase .atom, .terminal .operator],
      [.phrase .atom, .terminal .tilde, .terminal .number],
      [.phrase .atom, .terminal .tilde, .terminal .number, .terminal .dotDot, .terminal .number]])
    (h : SenseAll r ds ns) (hn : (Node.Conversion.form .expr).ofPhrase e ns = .ok n) :
    Sense (.node ⟨.expr, r⟩ ds) [n] (.phrase .expr) := by
  obtain _ | ⟨_, _ | ⟨_, _ | ⟨_, _ | ⟨_, ⟨⟩⟩⟩⟩⟩ := hr
  · obtain _ | ⟨⟨x, rfl, hx, htells⟩, ⟨⟩⟩ := h
    cases hn
    refine ⟨.mk e x .once, rfl, hx.node (by simp), ?_⟩
    exact tells_repeated .nil ⟨rfl, rfl⟩ htells
  · obtain _ | ⟨⟨x, rfl, hx, htells⟩, _ | ⟨⟨y, rfl, rfl⟩, ⟨⟩⟩⟩ := h
    cases hn
    refine ⟨.mk e x (.operator y), rfl, hx.node (by simp), ?_⟩
    exact tells_repeated (.cons (tells_silent y rfl) .nil)
      ⟨rfl, rfl⟩ htells
  · obtain _ | ⟨⟨x, rfl, hx, htells⟩, _ | ⟨⟨y, rfl, rfl⟩, _ | ⟨⟨z, rfl, rfl⟩, ⟨⟩⟩⟩⟩ := h
    cases hn
    refine ⟨.mk e x (.times y z), rfl, hx.node (by simp), ?_⟩
    exact tells_repeated (.cons (tells_silent y rfl) (.cons (tells_word z rfl rfl nofun) .nil))
      ⟨rfl, rfl⟩ htells
  · obtain _ | ⟨⟨x, rfl, hx, htells⟩, _ | ⟨⟨y, rfl, rfl⟩, _ | ⟨⟨z, rfl, rfl⟩, _ | ⟨⟨_, rfl, rfl⟩,
      _ | ⟨⟨w, rfl, rfl⟩, ⟨⟩⟩⟩⟩⟩⟩ := h
    cases hn
    refine ⟨.mk e x (.between y z w), rfl, hx.node (by simp), ?_⟩
    exact tells_repeated (.cons (tells_silent y rfl) (.cons (tells_word z rfl rfl nofun)
      (.cons (tells_silent _ rfl) (.cons (tells_word w rfl rfl nofun) .nil))))
      ⟨rfl, rfl⟩ htells

theorem sense_exprs (hr : r ∈ [[], [.phrase .exprs, .phrase .expr]]) (h : SenseAll r ds ns) :
    Sense (.node ⟨.exprs, r⟩ ds) ns (.phrase .exprs) := by
  obtain _ | ⟨_, _ | ⟨_, ⟨⟩⟩⟩ := hr
  · obtain ⟨⟩ := h
    exact ⟨.nil, rfl, .trivially, TellsAll.nil.node rfl (by decide)⟩
  · obtain _ | ⟨⟨xs, rfl, hxs, hfirst⟩, _ | ⟨⟨x, rfl, hx, hlast⟩, ⟨⟩⟩⟩ := h
    refine ⟨xs.snoc x, by simp [Exprs.nodes_snoc], ?_, ?_⟩
    · rw [xs.faithful_snoc, xs.groupsUnnamed_snoc]
      exact (hxs.node (by simp)).and (hx.node (by simp))
    · rw [xs.uses_snoc, xs.contents_snoc]
      simpa using TellsAll.node (.cons hfirst (.cons hlast .nil)) rfl (by decide)

theorem sense_expansion (hr : r ∈ [[.phrase .exprs]]) (h : SenseAll r ds ns)
    (hn : (Node.Conversion.form .expansion).ofPhrase e ns = .ok n) :
    Sense (.node ⟨.expansion, r⟩ ds) [n] (.phrase .expansion) := by
  obtain _ | ⟨_, ⟨⟩⟩ := hr
  obtain _ | ⟨⟨xs, rfl, hxs, htells⟩, ⟨⟩⟩ := h
  rw [List.append_nil] at hn
  cases hn
  exact ⟨e, xs, rfl, hxs.node (by simp),
    tells_single (by decide) htells⟩

theorem sense_aliasing_plain (h : SenseAll [.phrase .expansion] ds ns) :
    Sense (.node ⟨.aliasing, [.phrase .expansion]⟩ ds) ns (.phrase .aliasing) := by
  obtain _ | ⟨⟨e, xs, rfl, hxs, htells⟩, ⟨⟩⟩ := h
  exact ⟨.plain e xs, rfl, hxs.node (by simp), fun _ => trivial,
    tells_single (by decide) htells⟩

theorem sense_aliasing_named
    (h : SenseAll [.phrase .expansion, .terminal .arrow, .phrase .nonterminal] ds ns)
    (hn : (Node.Conversion.form .aliasing).ofPhrase e ns = .ok n) :
    Sense (.node ⟨.aliasing, [.phrase .expansion, .terminal .arrow, .phrase .nonterminal]⟩ ds)
      [n] (.phrase .aliasing) := by
  obtain _ | ⟨⟨e', xs, rfl, hxs, htells⟩, _ | ⟨⟨_, rfl, rfl⟩, _ | ⟨⟨x, rfl, hx⟩, ⟨⟩⟩⟩⟩ := h
  cases hn
  refine ⟨.named e e' xs x, rfl, hxs.node (by simp),
    fun hnames => ?_, ?_⟩
  · rw [Derivation.namesAlternative] at hnames
    exact absurd hnames (by simp)
  · rw [Alternative.uses, Alternative.contents_named]
    exact tells_apart (by decide) rfl htells hx

theorem sense_alternatives
    (hr : r ∈ [[.phrase .aliasing], [.phrase .alternatives, .terminal .bar, .phrase .aliasing],
      [.phrase .alternatives, .terminal .newlineBar, .phrase .aliasing]])
    (h : SenseAll r ds ns) : Sense (.node ⟨.alternatives, r⟩ ds) ns (.phrase .alternatives) := by
  obtain _ | ⟨_, hr⟩ := hr
  · obtain _ | ⟨⟨a, rfl, ha, hnames, htells⟩, ⟨⟩⟩ := h
    refine ⟨.one a, rfl, ha.node (by simp), fun hno => hnames ?_,
      tells_single (by decide) htells⟩
    simpa [Derivation.namesAlternative, Derivation.namesOneOf] using hno
  · obtain _ | ⟨_, _ | ⟨_, ⟨⟩⟩⟩ := hr
    all_goals
      obtain _ | ⟨⟨as, rfl, has, hnames, hfirst⟩, _ | ⟨⟨_, rfl, rfl⟩, _ | ⟨⟨a, rfl, ha, hname,
        hlast⟩, ⟨⟩⟩⟩⟩ := h
      refine ⟨as.snoc a, by simp [Alternatives.nodes_snoc, Terminal.isKept], ?_,
        fun hno => ?_, ?_⟩
      · rw [as.faithful_snoc, as.groupsUnnamed_snoc]
        exact (has.node (by simp)).and (ha.node (by simp))
      · simp only [Derivation.namesAlternative, Derivation.namesOneOf, Bool.or_eq_false_iff] at hno
        exact (as.unnamed_snoc a).mpr ⟨hnames hno.1, hname hno.2.2.1⟩
      · rw [as.uses_snoc, as.contents_snoc]
        exact tells_apart (by decide) rfl hfirst hlast

theorem sense_expansions (hr : r ∈ [[.phrase .alternatives]]) (h : SenseAll r ds ns)
    (hn : Node.Conversion.children.ofPhrase e ns = .ok n) :
    Sense (.node ⟨.expansions, r⟩ ds) [n] (.phrase .expansions) := by
  obtain _ | ⟨_, ⟨⟩⟩ := hr
  obtain _ | ⟨⟨as, rfl, has, hnames, htells⟩, ⟨⟩⟩ := h
  rw [List.append_nil] at hn
  cases hn
  refine ⟨as, rfl, has.node (by simp), fun hno => hnames ?_,
    tells_single (by decide) htells⟩
  simpa [Derivation.namesAlternative, Derivation.namesOneOf] using hno

theorem expansionsOf_list (as : Alternatives) :
    (Node.list as.nodes).expansionsOf = .ok as.resolved := as.mapM_resolveAlias

theorem sense_maybe
    (hr : r ∈ [[.terminal .leftBracket, .phrase .expansions, .terminal .rightBracket]])
    (h : SenseAll r ds ns) (hn : (Node.Conversion.form .maybe).ofPhrase e ns = .ok n) :
    Sense (.node ⟨.maybe, r⟩ ds) [n] (.phrase .maybe) := by
  obtain _ | ⟨_, ⟨⟩⟩ := hr
  obtain _ | ⟨⟨_, rfl, rfl⟩, _ | ⟨⟨as, rfl, has, _, htells⟩, _ | ⟨⟨_, rfl, rfl⟩, ⟨⟩⟩⟩⟩ := h
  obtain ⟨body, hbody, hn⟩ := bind_eq_ok.mp hn
  obtain rfl := Except.ok.inj hbody
  rw [expansionsOf_list] at hn
  cases hn
  exact ⟨e, as, rfl, has.node (by simp),
    tells_enclosed (by decide) rfl rfl htells⟩

/-! ## Parts of statements -/

theorem sense_ruleModifiers (hr : r ∈ [[], [.terminal .modifiers]]) (h : SenseAll r ds ns)
    (hn : Node.Conversion.signs.ofPhrase e ns = .ok n) :
    Sense (.node ⟨.ruleModifiers, r⟩ ds) [n] (.phrase .ruleModifiers) := by
  obtain _ | ⟨_, _ | ⟨_, ⟨⟩⟩⟩ := hr
  · obtain ⟨⟩ := h
    cases hn
    exact ⟨Or.inl rfl, TellsAll.nil.node rfl (by decide)⟩
  · obtain _ | ⟨⟨x, rfl, rfl⟩, ⟨⟩⟩ := h
    have hlead := x.leadingValue_node []
    simp only [Terminal.isKept, if_true, List.append_nil, Node.Conversion.ofPhrase, hlead] at hn
    cases hn
    exact ⟨Or.inr ⟨x, rfl⟩, tells_single (by decide) (tells_silent x rfl)⟩

theorem sense_priority (hr : r ∈ [[], [.terminal .dot, .terminal .number]])
    (h : SenseAll r ds ns) (hn : Node.Conversion.integer.ofPhrase e ns = .ok n) :
    Sense (.node ⟨.priority, r⟩ ds) [n] (.phrase .priority) := by
  obtain _ | ⟨_, _ | ⟨_, ⟨⟩⟩⟩ := hr
  · obtain ⟨⟩ := h
    cases hn
    exact Or.inl ⟨rfl, rfl, rfl⟩
  · obtain _ | ⟨⟨y, rfl, rfl⟩, _ | ⟨⟨x, rfl, rfl⟩, ⟨⟩⟩⟩ := h
    have hlead := x.leadingValue_node []
    simp only [Terminal.isKept, if_true, List.append_nil, Bool.false_eq_true, if_false,
      List.nil_append, Node.Conversion.ofPhrase, hlead] at hn
    cases hread : Text.readInteger (String.ofList x.text) with
    | error f =>
      rw [hread] at hn
      cases f <;> cases hn
    | ok k =>
      rw [hread] at hn
      cases hn
      exact Or.inr ⟨⟨k, Text.length_toDigits_of_readInteger hread⟩, rfl, tells_priority y x hread⟩

/-! ## Imports -/

theorem join_words {separator : String} {ss : List String} {ns : List Node}
    (h : ns.map Node.text? = ss.map some) :
    Node.join separator ns = .ok (separator.intercalate ss) := by
  have hfrom : ∀ k, Node.joinFrom separator k ns = .ok (separator.intercalate ss) := by
    induction ns generalizing ss with
    | nil =>
      rw [List.map_eq_nil_iff.mp h.symm]
      exact fun k => rfl
    | cons n ns ih =>
      obtain ⟨s, ss, rfl⟩ : ∃ s ss', ss = s :: ss' := by
        cases ss with
        | nil => cases h
        | cons s ss => exact ⟨s, ss, rfl⟩
      rw [List.map_cons, List.map_cons, List.cons.injEq] at h
      intro k
      rw [Node.joinFrom, h.1, ih h.2]
      cases ns with
      | nil =>
        rw [List.map_eq_nil_iff.mp h.2.symm, String.intercalate_singleton]
        rfl
      | cons n' ns =>
        have hne : ss ≠ [] := by
          rintro rfl
          cases h.2
        rw [String.intercalate_cons_of_ne_nil hne]
        rfl
  exact hfrom 0

theorem Name.text?_node (x : Name) : x.node.text? = some (String.ofList x.text) := by
  cases x <;> rfl

theorem sense_importArgs
    (hr : r ∈ [[.phrase .name], [.phrase .importArgs, .terminal .dot, .phrase .name]])
    (h : SenseAll r ds ns) : Sense (.node ⟨.importArgs, r⟩ ds) ns (.phrase .importArgs) := by
  obtain _ | ⟨_, _ | ⟨_, ⟨⟩⟩⟩ := hr
  · obtain _ | ⟨⟨x, rfl, hx, htells⟩, ⟨⟩⟩ := h
    exact ⟨[], x, rfl, by simp [nameCount_nil, nameCount_cons, hx],
      tellsNames_single (by decide) htells⟩
  · obtain _ | ⟨⟨xs, x, rfl, hxs, hfirst⟩, _ | ⟨⟨_, rfl, rfl⟩, _ | ⟨⟨y, rfl, hy, hlast⟩, ⟨⟩⟩⟩⟩ := h
    refine ⟨xs ++ [x], y, by simp [Terminal.isKept], ?_,
      tellsNames_apart (by decide) rfl hfirst hlast⟩
    simp [nameCount_nil, nameCount_cons, nameCount_word, Derivation.isName, hxs, hy]

theorem importSource_names (start : String) (xs : List Name) (x : Name) :
    Node.importSource start ((xs ++ [x]).map Name.node) = .ok
      (.list [.text (start ++ ".".intercalate (xs.map fun x => String.ofList x.text)),
        x.node]) := by
  have hjoin : Node.join "." (xs.map Name.node) =
      .ok (".".intercalate (xs.map fun x => String.ofList x.text)) := by
    apply join_words
    simp [Name.text?_node]
  rw [Node.importSource, List.map_append, List.map_cons, List.map_nil, List.dropLast_concat,
    hjoin, Node.lastChild, List.getLast?_concat]
  rfl

theorem sense_importLib (hr : r ∈ [[.phrase .importArgs]]) (h : SenseAll r ds ns)
    (hn : (Node.Conversion.source "").ofPhrase e ns = .ok n) :
    Sense (.node ⟨.importLib, r⟩ ds) [n] (.phrase .importLib) := by
  obtain _ | ⟨_, ⟨⟩⟩ := hr
  obtain _ | ⟨⟨xs, x, rfl, hxs, htells⟩, ⟨⟩⟩ := h
  rw [List.append_nil, Node.Conversion.ofPhrase, importSource_names] at hn
  cases hn
  exact ⟨⟨false, xs, x⟩, rfl, by simp [nameCount_nil, nameCount_cons, hxs],
    tellsNames_single (by decide) htells⟩

theorem sense_importRel (hr : r ∈ [[.terminal .dot, .phrase .importArgs]]) (h : SenseAll r ds ns)
    (hn : (Node.Conversion.source ".").ofPhrase e ns = .ok n) :
    Sense (.node ⟨.importRel, r⟩ ds) [n] (.phrase .importRel) := by
  obtain _ | ⟨_, ⟨⟩⟩ := hr
  obtain _ | ⟨⟨_, rfl, rfl⟩, _ | ⟨⟨xs, x, rfl, hxs, htells⟩, ⟨⟩⟩⟩ := h
  simp only [Terminal.isKept, Bool.false_eq_true, if_false, List.nil_append,
    List.append_nil, Node.Conversion.ofPhrase, importSource_names] at hn
  cases hn
  refine ⟨⟨true, xs, x⟩, rfl, ?_, ?_⟩
  · simp [nameCount_nil, nameCount_cons, nameCount_word, Derivation.isName, hxs]
  · simpa [TellsNames] using
      TellsAll.node (.cons (tells_silent _ rfl) (.cons htells .nil)) rfl (by decide)

theorem sense_importPath (hr : r ∈ [[.phrase .importLib], [.phrase .importRel]])
    (h : SenseAll r ds ns) : Sense (.node ⟨.importPath, r⟩ ds) ns (.phrase .importPath) := by
  obtain _ | ⟨_, _ | ⟨_, ⟨⟩⟩⟩ := hr
  all_goals
    obtain _ | ⟨⟨p, rfl, hp, htells⟩, ⟨⟩⟩ := h
    exact ⟨p, rfl, by simp [nameCount_nil, nameCount_cons, hp],
      tellsNames_single (by decide) htells⟩

theorem makeImport_renamed (p : Path) (x : Name) :
    Node.makeImport e [.list [.text p.text, p.last.node], x.node] =
      .ok ((Source.renamed p x).node e) := by
  cases x <;> rfl

theorem makeImport_listed (p : Path) (x : Name) (xs : List Name) :
    Node.makeImport e [.list [.text p.text, p.last.node], .list ((x :: xs).map Name.node)] =
      .ok ((Source.listed p x xs).node e) := by
  have htexts : [.text p.text, p.last.node].map Node.text? =
      [p.text, String.ofList p.last.text].map some := by
    simp only [List.map_cons, List.map_nil, Name.text?_node]
    rfl
  change (Node.join "" [.text p.text, p.last.node] >>= fun path =>
    pure (Node.imports e (.text path) (.list ((x :: xs).map Name.node)) .absent)) = _
  rw [join_words htexts, String.intercalate_cons_cons, String.intercalate_singleton,
    String.append_empty]
  rfl

/-- A list of a single name says the same as a longer path. -/
theorem Source.node_listed_nil {p : Path} (hp : p.init = []) {x : Name} :
    (Source.listed p x []).node e = (Source.whole ⟨p.relative, [p.last], x⟩).node e := by
  simp [Source.node, Path.text, hp]

/-- A statement that can be written if it is faithful. -/
theorem sense_of_faithful {p : Phrase} {s : Statement}
    (hp : p ∈ [.extend, .ignore, .declare, .imports, .comment])
    (hassures : Assures (.node ⟨p, r⟩ ds) s.Faithful s.GroupsUnnamed)
    (htells : Tells (.node ⟨p, r⟩ ds) s.uses s.contents) :
    Sense (.node ⟨p, r⟩ ds) [s.node] (.phrase p) := by
  have hwritable : s.Faithful → s.Writable := by
    cases s with
    | override e d => exact False.elim
    | _ => exact id
  simp only [List.mem_cons, List.not_mem_nil, or_false] at hp
  rcases hp with rfl | rfl | rfl | rfl | rfl
  all_goals exact ⟨s, rfl, hassures, fun hw => hwritable (hassures.faithful hw), htells⟩

theorem sense_imports
    (hr : r ∈ [[.terminal .importWord, .phrase .importPath],
      [.terminal .importWord, .phrase .importPath, .terminal .leftParen, .phrase .nameList,
        .terminal .rightParen],
      [.terminal .importWord, .phrase .importPath, .terminal .arrow, .phrase .name]])
    (h : SenseAll r ds ns) (hn : (Node.Conversion.form .imports).ofPhrase e ns = .ok n) :
    Sense (.node ⟨.imports, r⟩ ds) [n] (.phrase .imports) := by
  obtain _ | ⟨_, _ | ⟨_, _ | ⟨_, ⟨⟩⟩⟩⟩ := hr
  · obtain _ | ⟨⟨_, rfl, rfl⟩, _ | ⟨⟨p, rfl, hp, hpath⟩, ⟨⟩⟩⟩ := h
    cases hn
    apply sense_of_faithful (s := .imports e (.whole p)) (by decide)
    · refine ⟨fun hf => ?_, fun _ => trivial⟩
      have hcount := (isFaithful_node hf).1
      simp only [Derivation.isFaithfulNode, hp, decide_eq_true_eq] at hcount
      exact List.ne_nil_of_length_pos (by omega)
    · refine tells_imports (.cons (tells_silent _ rfl) (.cons hpath .nil)) ?_ ?_
      · simp [Derivation.usesOfAll, Derivation.namesOfNode, hpath.uses, Source.uses]
      · simp [Source.chunks, p.contents_chunks]
  · obtain _ | ⟨⟨u, rfl, rfl⟩, _ | ⟨⟨p, rfl, hp, hpath⟩, _ | ⟨⟨v, rfl, rfl⟩, _ | ⟨⟨x, xs, rfl, hxs⟩,
      _ | ⟨⟨w, rfl, rfl⟩, ⟨⟩⟩⟩⟩⟩⟩ := h
    obtain rfl := Except.ok.inj ((makeImport_listed p x xs).symm.trans hn)
    have hparts := TellsAll.cons (tells_silent u rfl) (.cons hpath (.cons (tells_silent v rfl)
      (.cons hxs (.cons_last (tells_silent w rfl)))))
    -- One name from a path of one name: the node is that of a plain import of the two.
    by_cases hsingle : p.init = [] ∧ xs = []
    · obtain ⟨hinit, rfl⟩ := hsingle
      rw [Source.node_listed_nil hinit]
      apply sense_of_faithful (s := .imports e (.whole ⟨p.relative, [p.last], x⟩)) (by decide)
      · exact ⟨fun _ => List.cons_ne_nil _ _, fun _ => trivial⟩
      · refine tells_imports hparts ?_ ?_
        · simp [Derivation.usesOfAll, Derivation.namesOfNode, hxs.uses, Source.uses]
        · simp [Source.chunks, Path.contents_chunks, hinit]
    · apply sense_of_faithful (s := .imports e (.listed p x xs)) (by decide)
      · refine ⟨fun hf => ?_, fun _ => trivial⟩
        have hcount := (isFaithful_node hf).1
        simp only [Derivation.isFaithfulNode, hp, beq_iff_eq] at hcount
        have hinit : p.init = [] := List.eq_nil_of_length_eq_zero (by omega)
        exact ⟨hinit, fun hxs => hsingle ⟨hinit, hxs⟩⟩
      · refine tells_imports hparts ?_ ?_
        · simp [Derivation.usesOfAll, Derivation.namesOfNode, hxs.uses, Source.uses]
        · simp [Source.contents_listed]
  · obtain _ | ⟨⟨_, rfl, rfl⟩, _ | ⟨⟨p, rfl, hp, hpath⟩, _ | ⟨⟨_, rfl, rfl⟩, _ | ⟨⟨x, rfl, _, hx⟩,
      ⟨⟩⟩⟩⟩⟩ := h
    obtain rfl := Except.ok.inj ((makeImport_renamed p x).symm.trans hn)
    apply sense_of_faithful (s := .imports e (.renamed p x)) (by decide)
    · refine ⟨fun hf => ?_, fun _ => trivial⟩
      have hcount := (isFaithful_node hf).1
      simp only [Derivation.isFaithfulNode, hp, decide_eq_true_eq] at hcount
      exact List.ne_nil_of_length_pos (by omega)
    · refine tells_imports (.cons (tells_silent _ rfl) (.cons hpath (.cons (tells_silent _ rfl)
        (.cons hx .nil)))) ?_ ?_
      · simp [Derivation.usesOfAll, Derivation.namesOfNode, hpath.uses, hx.uses, Source.uses]
      · simp [Source.chunks, p.contents_chunks, Terminal.isContent]

/-! ## Statements -/

theorem startsWithUnderscore_token (x : Lexeme) :
    (Node.token x.token).startsWithUnderscore = (x.text.head? == some '_') := by
  rw [Node.startsWithUnderscore, toText_token, String.toList_ofList]

theorem underscoreMark_eq {t : Terminal} (x : Word t) :
    (if x.node.startsWithUnderscore then ["_"] else []) = underscoreMark x.text := by
  rw [Word.node, startsWithUnderscore_token, underscoreMark]
  simp only [beq_iff_eq]
  rfl

theorem make_term_plain (x : Word .terminalName) (as : Alternatives) :
    Form.make e [x.node, .list as.nodes] .term = .ok (Definition.term e x none as).node := by
  change ((Node.list as.nodes).expansionsOf >>= fun expansions => pure (Node.term e
    (if x.node.startsWithUnderscore then ["_"] else []) x.node (.number 0) expansions)) = _
  rw [expansionsOf_list, underscoreMark_eq]
  rfl

theorem make_term_priority (x : Word .terminalName) (y : Word .number) (as : Alternatives) :
    Form.make e [x.node, y.node, .list as.nodes] .term =
      .ok (Definition.term e x (some y) as).node := by
  change ((Node.list as.nodes).expansionsOf >>= fun expansions => pure (Node.term e
    (if x.node.startsWithUnderscore then ["_"] else []) x.node
    (y.node.orElse (.number 0)) expansions)) = _
  rw [expansionsOf_list, underscoreMark_eq, Node.orElse, if_pos y.isPresent_node]
  rfl

theorem sense_of_term {d : Definition}
    (hassures : Assures (.node ⟨.term, r⟩ ds) d.Faithful d.GroupsUnnamed)
    (htells : Tells (.node ⟨.term, r⟩ ds) d.uses d.contents) :
    Sense (.node ⟨.term, r⟩ ds) [d.node] (.phrase .term) :=
  ⟨d, rfl, hassures, hassures.faithful, htells⟩

theorem sense_term
    (hr : r ∈ [[.terminal .terminalName, .terminal .colon, .phrase .expansions],
      [.terminal .terminalName, .terminal .dot, .terminal .number, .terminal .colon,
        .phrase .expansions]])
    (h : SenseAll r ds ns) (hn : (Node.Conversion.form .term).ofPhrase e ns = .ok n) :
    Sense (.node ⟨.term, r⟩ ds) [n] (.phrase .term) := by
  obtain _ | ⟨_, _ | ⟨_, ⟨⟩⟩⟩ := hr
  · obtain _ | ⟨⟨x, rfl, rfl⟩, _ | ⟨⟨_, rfl, rfl⟩, _ | ⟨⟨as, rfl, has, _, htells⟩, ⟨⟩⟩⟩⟩ := h
    obtain rfl := Except.ok.inj ((make_term_plain x as).symm.trans hn)
    refine sense_of_term (has.node (by simp)) ?_
    rw [Definition.contents_term]
    exact TellsAll.node (.cons (tellsNames_leaf (.terminal x)) (.cons (tells_silent _ rfl)
      (.cons_last htells))) rfl (by decide)
  · obtain _ | ⟨⟨x, rfl, rfl⟩, _ | ⟨⟨_, rfl, rfl⟩, _ | ⟨⟨y, rfl, rfl⟩, _ | ⟨⟨_, rfl, rfl⟩,
      _ | ⟨⟨as, rfl, has, _, htells⟩, ⟨⟩⟩⟩⟩⟩⟩ := h
    obtain rfl := Except.ok.inj ((make_term_priority x y as).symm.trans hn)
    refine sense_of_term (has.node (by simp)) ?_
    rw [Definition.contents_term]
    exact TellsAll.node (.cons (tellsNames_leaf (.terminal x)) (.cons (tells_silent _ rfl)
      (.cons (tells_word y rfl rfl nofun) (.cons (tells_silent _ rfl) (.cons_last htells)))))
      rfl (by decide)

/-- The node of a rule, whatever its parts are. -/
theorem make_rule {marks : Node} {signs : Option (Word .modifiers)}
    {parameters : Node} {ps : List (Word .ruleName)} {priority : Node} {p : Priority}
    (hmarks : marks.orElse (.list []) =
      .list ((signChars signs).map fun c => .text (String.singleton c)))
    (hparameters : parameters.orElse (.list []) = .list (ps.map Word.node))
    (hpriority : priority.orElse (.number 0) = .number p.value)
    (x : Word .ruleName) (as : Alternatives) :
    Form.make e [marks, x.node, parameters, priority, .list as.nodes] .rule =
      .ok (Definition.rule e signs x ps p as).node := by
  change ((Node.list as.nodes).expansionsOf >>= fun expansions =>
    Node.ruleModifiers (marks.orElse (.list [])) x.node >>= fun marks =>
    pure (Node.rule e marks x.node (parameters.orElse (.list [])) (priority.orElse (.number 0))
      expansions)) = _
  have hunderscore : Node.ruleModifiers
      (.list ((signChars signs).map fun c => .text (String.singleton c))) x.node =
      .ok (.list ((signChars signs).map (fun c => .text (String.singleton c)) ++
        (underscoreMark x.text).map .text)) := by
    rw [← underscoreMark_eq x, Node.ruleModifiers]
    split
    · rfl
    · rw [List.map_nil, List.append_nil]
  rw [expansionsOf_list, hmarks, hunderscore, hparameters, hpriority]
  rfl

/-- The signs before a rule's name, or none. -/
theorem exists_signs {d : Derivation} (h : Sense d ns (.phrase .ruleModifiers)) :
    ∃ (marks : Node) (signs : Option (Word .modifiers)), ns = [marks] ∧
      marks.orElse (.list []) =
        .list ((signChars signs).map fun c => .text (String.singleton c)) := by
  rcases h.1 with h | ⟨y, h⟩
  · exact ⟨_, none, h, rfl⟩
  · refine ⟨_, some y, h, ?_⟩
    obtain ⟨c, cs, hcs⟩ := List.exists_cons_of_ne_nil y.text_ne_nil
    simp [Node.orElse, Node.isPresent, Node.letters, signChars, hcs]

/-- The parameters of a rule, perhaps none. -/
theorem exists_parameters {d : Derivation} (h : Sense d ns (.phrase .templateParams)) :
    ∃ (parameters : Node) (ps : List (Word .ruleName)), ns = [parameters] ∧
      parameters.orElse (.list []) = .list (ps.map Word.node) ∧
      TellsNames d (ps.map .rule) := by
  rcases h with ⟨h, htells⟩ | ⟨y, ys, h, htells⟩
  · exact ⟨_, [], h, rfl, htells⟩
  · exact ⟨_, y :: ys, h, rfl, htells⟩

/-- The priority of a rule, zero if it has none. -/
theorem exists_priority {d : Derivation} (h : Sense d ns (.phrase .priority)) :
    ∃ (priority : Node) (p : Priority), ns = [priority] ∧
      priority.orElse (.number 0) = .number p.value ∧ Tells d [] (contents p.chunks) := by
  rcases h with ⟨h, htells⟩ | ⟨p, h, htells⟩
  · exact ⟨_, ⟨0, by decide⟩, h, rfl, htells⟩
  · refine ⟨_, p, h, ?_, htells⟩
    by_cases hzero : p.value = 0
    · simp [Node.orElse, Node.isPresent, hzero]
    · simp [Node.orElse, Node.isPresent, hzero]

/-- The parts of a rule always make a rule. -/
theorem exists_rule (h : SenseAll [.phrase .ruleModifiers, .terminal .ruleName,
      .phrase .templateParams, .phrase .priority, .terminal .colon, .phrase .expansions] ds ns) :
    ∃ d : Definition, (Node.Conversion.form .rule).ofPhrase e ns = .ok d.node ∧
      Assures (.node ⟨.rule, r⟩ ds) d.Faithful d.GroupsUnnamed ∧
      Tells (.node ⟨.rule, r⟩ ds) d.uses d.contents := by
  obtain _ | ⟨hsigns, _ | ⟨⟨x, rfl, rfl⟩, _ | ⟨hparams, _ | ⟨hprior, _ | ⟨⟨y, rfl, rfl⟩,
    _ | ⟨⟨as, rfl, has, _, htells⟩, ⟨⟩⟩⟩⟩⟩⟩⟩ := h
  obtain ⟨marks, signs, rfl, hmarks⟩ := exists_signs hsigns
  obtain ⟨parameters, ps, rfl, hparameters, hps⟩ := exists_parameters hparams
  obtain ⟨priority, p, rfl, hpriority, hp⟩ := exists_priority hprior
  refine ⟨.rule e signs x ps p as, make_rule hmarks hparameters hpriority x as,
    has.node (by simp), ?_⟩
  have hparts := TellsAll.cons hsigns.2 (.cons (tellsNames_leaf (.rule x)) (.cons hps (.cons hp
    (.cons (tells_silent y rfl) (.cons_last htells)))))
  rw [Definition.contents_rule]
  exact hparts.node rfl (by decide)

theorem sense_rule
    (hr : r ∈ [[.phrase .ruleModifiers, .terminal .ruleName, .phrase .templateParams,
      .phrase .priority, .terminal .colon, .phrase .expansions]])
    (h : SenseAll r ds ns) (hn : (Node.Conversion.form .rule).ofPhrase e ns = .ok n) :
    Sense (.node ⟨.rule, r⟩ ds) [n] (.phrase .rule) := by
  obtain _ | ⟨_, ⟨⟩⟩ := hr
  obtain ⟨d, hd, hassures, htells⟩ := exists_rule (e := e) h
  obtain rfl := Except.ok.inj (hd.symm.trans hn)
  exact ⟨d, rfl, hassures, hassures.faithful, htells⟩

theorem sense_override
    (hr : r ∈ [[.terminal .overrideWord, .phrase .rule], [.terminal .overrideWord, .phrase .term]])
    (h : SenseAll r ds ns) (hn : (Node.Conversion.form .override).ofPhrase e ns = .ok n) :
    Sense (.node ⟨.override, r⟩ ds) [n] (.phrase .override) := by
  obtain _ | ⟨_, _ | ⟨_, ⟨⟩⟩⟩ := hr
  all_goals
    obtain _ | ⟨⟨_, rfl, rfl⟩, _ | ⟨⟨d, rfl, hd, _, htells⟩, ⟨⟩⟩⟩ := h
    cases hn
    refine ⟨.override e d, rfl, ⟨fun hf => absurd (isFaithful_node hf).1 Bool.false_ne_true,
      (hd.node (by simp)).unnamed⟩, fun hw => hd.faithful ?_, ?_⟩
    · rw [Derivation.isWritable] at hw
      simpa [Derivation.areFaithful] using (Bool.and_eq_true _ _).mp hw |>.2
    · exact TellsAll.node (.cons (tells_silent _ rfl) (.cons_last htells)) rfl (by decide)

theorem sense_extend
    (hr : r ∈ [[.terminal .extendWord, .phrase .rule], [.terminal .extendWord, .phrase .term]])
    (h : SenseAll r ds ns) (hn : (Node.Conversion.form .extend).ofPhrase e ns = .ok n) :
    Sense (.node ⟨.extend, r⟩ ds) [n] (.phrase .extend) := by
  obtain _ | ⟨_, _ | ⟨_, ⟨⟩⟩⟩ := hr
  all_goals
    obtain _ | ⟨⟨_, rfl, rfl⟩, _ | ⟨⟨d, rfl, hd, _, htells⟩, ⟨⟩⟩⟩ := h
    cases hn
    exact sense_of_faithful (s := .extend e d) (by decide)
      (hd.node (by simp))
      (TellsAll.node (.cons (tells_silent _ rfl) (.cons_last htells)) rfl (by decide))

theorem sense_ignore (hr : r ∈ [[.terminal .ignoreWord, .phrase .expansions]])
    (h : SenseAll r ds ns) (hn : (Node.Conversion.form .ignore).ofPhrase e ns = .ok n) :
    Sense (.node ⟨.ignore, r⟩ ds) [n] (.phrase .ignore) := by
  obtain _ | ⟨_, ⟨⟩⟩ := hr
  obtain _ | ⟨⟨_, rfl, rfl⟩, _ | ⟨⟨as, rfl, has, _, htells⟩, ⟨⟩⟩⟩ := h
  change ((Node.list as.nodes).expansionsOf >>= fun expansions =>
    pure (Node.ignore e expansions)) = _ at hn
  rw [expansionsOf_list] at hn
  cases hn
  refine sense_of_faithful (s := .ignore e as) (by decide)
    (has.node (by simp)) ?_
  have hcontents : (Statement.ignore e as).contents = contents as.chunks :=
    as.contents_stack Layout.usualIndent
  rw [hcontents]
  exact TellsAll.node (.cons (tells_silent _ rfl) (.cons_last htells)) rfl (by decide)

theorem sense_declare (hr : r ∈ [[.terminal .declareWord, .phrase .declareArgs]])
    (h : SenseAll r ds ns) (hn : (Node.Conversion.form .declare).ofPhrase e ns = .ok n) :
    Sense (.node ⟨.declare, r⟩ ds) [n] (.phrase .declare) := by
  obtain _ | ⟨_, ⟨⟩⟩ := hr
  obtain _ | ⟨⟨_, rfl, rfl⟩, _ | ⟨⟨x, xs, rfl, hxs⟩, ⟨⟩⟩⟩ := h
  rw [List.append_nil] at hn
  cases hn
  refine sense_of_faithful (s := .declare e x xs) (by decide) Assures.trivially ?_
  have hcontents : (Statement.declare e x xs).contents = (x :: xs).map Name.key :=
    contents_spaced x xs
  rw [hcontents]
  exact TellsAll.node (.cons (tells_silent _ rfl) (.cons_last hxs)) rfl (by decide)

theorem sense_comment (hr : r ∈ [[.terminal .comment]]) (h : SenseAll r ds ns)
    (hn : (Node.Conversion.form .comment).ofPhrase e ns = .ok n) :
    Sense (.node ⟨.comment, r⟩ ds) [n] (.phrase .comment) := by
  obtain _ | ⟨_, ⟨⟩⟩ := hr
  obtain _ | ⟨⟨x, rfl, rfl⟩, ⟨⟩⟩ := h
  cases hn
  refine sense_of_faithful (s := .comment e x) (by decide) Assures.trivially
    (tells_single (by decide) ?_)
  refine ⟨?_, ?_⟩
  · rw [Derivation.uses, x.terminal_eq]
    rfl
  · rw [Derivation.wording, Lexeme.laidOut, x.terminal_eq]
    rfl

theorem isWritable_parts {p : Phrase} (hp : p ∈ [.start, .list, .item])
    (h : (Derivation.node ⟨p, r⟩ ds).isWritable = true) : ∀ d ∈ ds, d.isWritable = true := by
  have hall : Derivation.areWritable ds = true := by
    simp only [List.mem_cons, List.not_mem_nil, or_false] at hp
    rcases hp with rfl | rfl | rfl <;> exact h
  clear h
  induction ds with
  | nil => simp
  | cons d ds ih =>
    rw [Derivation.areWritable, Bool.and_eq_true] at hall
    exact List.forall_mem_cons.mpr ⟨hall.1, ih hall.2⟩

/-- An item that is a statement. -/
theorem sense_statement {d : Derivation} {s : Statement}
    (hassures : Assures d s.Faithful s.GroupsUnnamed)
    (hwritable : d.isWritable = true → s.Writable) (htells : Tells d s.uses s.contents) :
    Sense (.node ⟨.item, r⟩ [d]) ([s.node] ++ []) (.phrase .item) := by
  refine ⟨[s], rfl, ?_, fun hw => ?_, ?_⟩
  · rw [List.forall_mem_singleton, List.forall_mem_singleton]
    exact hassures.node (by simp)
  · exact List.forall_mem_singleton.mpr (hwritable (isWritable_parts (by decide) hw _ (by simp)))
  · rw [List.flatMap_singleton, List.flatMap_singleton]
    exact tells_single (by decide) htells

theorem sense_item
    (hr : r ∈ [[.phrase .rule], [.phrase .term], [.phrase .ignore], [.phrase .imports],
      [.phrase .declare], [.phrase .override], [.phrase .extend], [.phrase .comment],
      [.terminal .newline]])
    (h : SenseAll r ds ns) : Sense (.node ⟨.item, r⟩ ds) ns (.phrase .item) := by
  obtain _ | ⟨_, _ | ⟨_, hr⟩⟩ := hr
  iterate 2
    · obtain _ | ⟨⟨d, rfl, hd, hw, htells⟩, ⟨⟩⟩ := h
      exact sense_statement (s := .definition d) hd (fun hw' => hw hw') htells
  · obtain _ | ⟨_, _ | ⟨_, _ | ⟨_, _ | ⟨_, _ | ⟨_, _ | ⟨_, _ | ⟨_, ⟨⟩⟩⟩⟩⟩⟩⟩⟩ := hr
    iterate 6
      · obtain _ | ⟨⟨s, rfl, hs, hw, htells⟩, ⟨⟩⟩ := h
        exact sense_statement hs hw htells
    · obtain _ | ⟨⟨_, rfl, rfl⟩, ⟨⟩⟩ := h
      exact ⟨[], rfl, ⟨by simp, by simp⟩, by simp, tells_single (by decide) (tells_silent _ rfl)⟩

theorem sense_list (hr : r ∈ [[.phrase .item], [.phrase .list, .phrase .item]])
    (h : SenseAll r ds ns) : Sense (.node ⟨.list, r⟩ ds) ns (.phrase .list) := by
  obtain _ | ⟨_, _ | ⟨_, ⟨⟩⟩⟩ := hr
  · obtain _ | ⟨⟨ss, rfl, hss, hconveys⟩, ⟨⟩⟩ := h
    refine ⟨ss, by simp, hss.node (by simp), fun hw => ?_,
      tells_single (by decide) hconveys.tells⟩
    exact hconveys.writable (isWritable_parts (by decide) hw _ (by simp))
  · obtain _ | ⟨⟨ss, rfl, hss, hfirst⟩, _ | ⟨⟨ts, rfl, hts, hlast⟩, ⟨⟩⟩⟩ := h
    refine ⟨ss ++ ts, by simp, ?_, fun hw => ?_, ?_⟩
    · rw [List.forall_mem_append, List.forall_mem_append]
      exact (hss.node (by simp)).and (hts.node (by simp))
    · have hall := isWritable_parts (by decide) hw
      exact List.forall_mem_append.mpr
        ⟨hfirst.writable (hall _ (by simp)), hlast.writable (hall _ (by simp))⟩
    · rw [List.flatMap_append, List.flatMap_append]
      exact TellsAll.node (.cons hfirst.tells (.cons_last hlast.tells)) rfl (by decide)

theorem Statement.isPart_node (s : Statement) : s.node.isPart = true := by
  cases s with
  | definition d => cases d <;> rfl
  | imports e source => cases source <;> rfl
  | _ => rfl

theorem filter_isPart_nodes (ss : List Statement) :
    (ss.map Statement.node).filter Node.isPart = ss.map Statement.node := by
  rw [List.filter_eq_self]
  intro n hn
  obtain ⟨s, _, rfl⟩ := List.mem_map.mp hn
  exact s.isPart_node

theorem sense_start (hr : r ∈ [[.phrase .list]]) (h : SenseAll r ds ns)
    (hn : (Node.Conversion.form .file).ofPhrase e ns = .ok n) :
    Sense (.node ⟨.start, r⟩ ds) [n] (.phrase .start) := by
  obtain _ | ⟨_, ⟨⟩⟩ := hr
  obtain _ | ⟨⟨ss, rfl, hss, hconveys⟩, ⟨⟩⟩ := h
  simp only [Node.Conversion.ofPhrase, Form.make, List.append_nil, filter_isPart_nodes] at hn
  cases hn
  refine ⟨e, ss, rfl, hss.node (by simp), fun hw => ?_,
    tells_single (by decide) hconveys.tells⟩
  exact hconveys.writable (isWritable_parts (by decide) hw _ (by simp))

end

/-! ## Whole derivations -/

def rightsOf (p : Phrase) : List (List Symbol) :=
  (Production.all.filter (·.left == p)).map (·.right)

theorem right_mem {q : Production} (hq : q ∈ Production.all) : q.right ∈ rightsOf q.left :=
  List.mem_map_of_mem (List.mem_filter.mpr ⟨hq, beq_self_eq_true _⟩)

theorem senseAll_of_buildsAll {e : Option Extent} {ds : List Derivation} {ns : List Node}
    (h : Derivation.BuildsAll e ds ns)
    (ih : ∀ d ∈ ds, ∀ e ns, d.Builds e ns → Sense d ns d.symbol) :
    SenseAll (ds.map Derivation.symbol) ds ns := by
  induction ds generalizing ns with
  | nil =>
    rw [show ns = [] from h]
    exact .nil
  | cons d ds ihs =>
    obtain ⟨ms, rest, hms, hrest, rfl⟩ := h
    exact .cons (ih d List.mem_cons_self e ms hms)
      (ihs hrest fun d' hd' => ih d' (List.mem_cons_of_mem _ hd'))

section

variable {p : Phrase} {r : List Symbol} {ds : List Derivation} {e : Option Extent}
  {ns : List Node}

theorem senseAll_of_spliced (hspell : ds.map Derivation.symbol = r)
    (ih : ∀ d ∈ ds, ∀ e ns, d.Builds e ns → Sense d ns d.symbol)
    (h : (Derivation.node ⟨p, r⟩ ds).Builds e ns) (hp : p.isSpliced = true) :
    SenseAll r ds ns := by
  rw [← hspell]
  exact senseAll_of_buildsAll ((Derivation.builds_spliced hp).mp h) ih

theorem senseAll_of_single (hspell : ds.map Derivation.symbol = r)
    (ih : ∀ d ∈ ds, ∀ e ns, d.Builds e ns → Sense d ns d.symbol)
    (h : (Derivation.node ⟨p, r⟩ ds).Builds e ns) (hp : p.isSpliced = false)
    (htransparent : p.isTransparent = true) (hwhole : r.all Derivation.isWhole = true)
    (hone : Derivation.givenBy r = 1) : SenseAll r ds ns := by
  have hbuilds := (Derivation.builds_single hspell hp htransparent hwhole hone).mp h
  rw [← hspell]
  exact senseAll_of_buildsAll hbuilds ih

theorem exists_senseAll_of_tree (hspell : ds.map Derivation.symbol = r)
    (ih : ∀ d ∈ ds, ∀ e ns, d.Builds e ns → Sense d ns d.symbol)
    (h : (Derivation.node ⟨p, r⟩ ds).Builds e ns) {c : Node.Conversion}
    (hp : p.isSpliced = false)
    (hmany : p.isTransparent = true →
      r.all Derivation.isWhole = true ∧ Derivation.givenBy r ≠ 1)
    (hc : conversionOf p = some c) :
    ∃ parts e' n, SenseAll r ds parts ∧ c.ofPhrase e' parts = .ok n ∧ ns = [n] := by
  obtain ⟨parts, n, hparts, hn, rfl⟩ := (Derivation.builds_node hspell hp hmany hc).mp h
  refine ⟨parts, _, n, ?_, hn, rfl⟩
  rw [← hspell]
  exact senseAll_of_buildsAll hparts ih

/-- A phrase makes sense if its parts do. -/
theorem sense_node (hr : r ∈ rightsOf p) (hspell : ds.map Derivation.symbol = r)
    (ih : ∀ d ∈ ds, ∀ e ns, d.Builds e ns → Sense d ns d.symbol)
    (h : (Derivation.node ⟨p, r⟩ ds).Builds e ns) : Sense (.node ⟨p, r⟩ ds) ns (.phrase p) := by
  have hspliced := senseAll_of_spliced hspell ih h
  have hsingle := senseAll_of_single hspell ih h
  have htree := fun c => exists_senseAll_of_tree (c := c) hspell ih h
  cases p
  -- Spliced phrases stand for their parts, the next ones for their only part, the others for a
  -- node of their own.
  case list => exact sense_list hr (hspliced rfl)
  case item => exact sense_item hr (hspliced rfl)
  case templateParamNames => exact sense_templateParamNames hr (hspliced rfl)
  case alternatives => exact sense_alternatives hr (hspliced rfl)
  case exprs => exact sense_exprs hr (hspliced rfl)
  case templateArgs => exact sense_templateArgs hr (hspliced rfl)
  case importPath => exact sense_importPath hr (hspliced rfl)
  case importArgs => exact sense_importArgs hr (hspliced rfl)
  case names => exact sense_names hr (hspliced rfl)
  case declareArgs => exact sense_declareArgs hr (hspliced rfl)
  case atom =>
    have hall : ∀ r ∈ rightsOf .atom, r.all Derivation.isWhole = true ∧
        Derivation.givenBy r = 1 := by decide
    exact sense_atom hr (hsingle rfl rfl (hall r hr).1 (hall r hr).2)
  case name =>
    have hall : ∀ r ∈ rightsOf .name, r.all Derivation.isWhole = true ∧
        Derivation.givenBy r = 1 := by decide
    exact sense_name hr (hsingle rfl rfl (hall r hr).1 (hall r hr).2)
  case symbol =>
    have hall : ∀ r ∈ rightsOf .symbol, r.all Derivation.isWhole = true ∧
        Derivation.givenBy r = 1 := by decide
    exact sense_symbol hr (hsingle rfl rfl (hall r hr).1 (hall r hr).2)
  case aliasing =>
    obtain _ | ⟨_, _ | ⟨_, ⟨⟩⟩⟩ := hr
    · obtain ⟨parts, e', n, hparts, hn, rfl⟩ := htree _ rfl (fun _ => by decide) rfl
      exact sense_aliasing_named hparts hn
    · exact sense_aliasing_plain (hsingle rfl rfl rfl rfl)
  all_goals
    obtain ⟨parts, e', n, hparts, hn, rfl⟩ := htree _ rfl (fun hp => nomatch hp) rfl
  case start => exact sense_start hr hparts hn
  case rule => exact sense_rule hr hparts hn
  case ruleModifiers => exact sense_ruleModifiers hr hparts hn
  case priority => exact sense_priority hr hparts hn
  case templateParams => exact sense_templateParams hr hparts hn
  case expansions => exact sense_expansions hr hparts hn
  case expansion => exact sense_expansion hr hparts hn
  case expr => exact sense_expr hr hparts hn
  case value => exact sense_value hr hparts hn
  case terminal => exact sense_terminal hr hparts hn
  case nonterminal => exact sense_nonterminal hr hparts hn
  case maybe => exact sense_maybe hr hparts hn
  case range => exact sense_range hr hparts hn
  case templateUsage => exact sense_templateUsage hr hparts hn
  case term => exact sense_term hr hparts hn
  case override => exact sense_override hr hparts hn
  case extend => exact sense_extend hr hparts hn
  case ignore => exact sense_ignore hr hparts hn
  case declare => exact sense_declare hr hparts hn
  case imports => exact sense_imports hr hparts hn
  case importLib => exact sense_importLib hr hparts hn
  case importRel => exact sense_importRel hr hparts hn
  case nameList => exact sense_nameList hr hparts hn
  case literal => exact sense_literal hr hparts hn
  case comment => exact sense_comment hr hparts hn

end

mutual

theorem sense_of_builds : ∀ (d : Derivation), d.Valid → (∀ x ∈ d.lexemes, x.IsSpelled) →
    ∀ (e : Option Extent) (ns : List Node), d.Builds e ns → Sense d ns d.symbol
  | .leaf x, _, hx, e, ns, h => by
    refine ⟨⟨x, rfl, hx x List.mem_cons_self⟩, rfl, ?_⟩
    exact Derivation.builds_leaf.mp h
  | .node q ds, hvalid, hx, e, ns, h =>
    sense_node (right_mem hvalid.1) hvalid.2.1 (sense_of_builds_all ds hvalid.2.2 hx) h

theorem sense_of_builds_all : ∀ (ds : List Derivation), Derivation.AllValid ds →
    (∀ x ∈ Derivation.lexemesOfAll ds, x.IsSpelled) → ∀ d ∈ ds, ∀ (e : Option Extent)
    (ns : List Node), d.Builds e ns → Sense d ns d.symbol
  | [], _, _ => fun d hd => nomatch hd
  | d :: ds, hvalid, hx => by
    have hd := sense_of_builds d hvalid.1 fun x hx' => hx x (List.mem_append_left _ hx')
    have hds := sense_of_builds_all ds hvalid.2 fun x hx' => hx x (List.mem_append_right _ hx')
    exact List.forall_mem_cons.mpr ⟨hd, hds⟩

end

/-- A file that is built from a derivation is typed and tells what the derivation tells. -/
theorem exists_statements_assured {d : Derivation} {file : Node} (hvalid : d.Valid)
    (hstart : d.symbol = .phrase .start) (hspelled : ∀ x ∈ d.lexemes, x.IsSpelled)
    (h : d.tree.build = .ok file) :
    ∃ (e : Option Extent) (ss : List Statement), file = .file e (ss.map Statement.node) ∧
      Assures d (∀ s ∈ ss, s.Faithful) (∀ s ∈ ss, s.GroupsUnnamed) ∧ Conveys d ss := by
  have hbuilds := (Derivation.build_tree_eq_ok hstart).mp h
  have hsense := sense_of_builds d hvalid hspelled none [file] hbuilds
  rw [hstart] at hsense
  obtain ⟨e, ss, hfile, hassures, hconveys⟩ := hsense
  exact ⟨e, ss, by simpa using hfile, hassures, hconveys⟩

theorem exists_statements_conveyed {d : Derivation} {file : Node} (hvalid : d.Valid)
    (hstart : d.symbol = .phrase .start) (hspelled : ∀ x ∈ d.lexemes, x.IsSpelled)
    (h : d.tree.build = .ok file) :
    ∃ (e : Option Extent) (ss : List Statement), file = .file e (ss.map Statement.node) ∧
      (d.isFaithful = true → ∀ s ∈ ss, s.Faithful) ∧ Conveys d ss := by
  obtain ⟨e, ss, hfile, hassures, hconveys⟩ := exists_statements_assured hvalid hstart hspelled h
  exact ⟨e, ss, hfile, hassures.faithful, hconveys⟩

theorem exists_statements {d : Derivation} {file : Node} (hvalid : d.Valid)
    (hstart : d.symbol = .phrase .start) (hspelled : ∀ x ∈ d.lexemes, x.IsSpelled)
    (h : d.tree.build = .ok file) :
    ∃ (e : Option Extent) (ss : List Statement), file = .file e (ss.map Statement.node) ∧
      (d.isFaithful = true → ∀ s ∈ ss, s.Faithful) := by
  obtain ⟨e, ss, hfile, hfaithful, _⟩ := exists_statements_conveyed hvalid hstart hspelled h
  exact ⟨e, ss, hfile, hfaithful⟩

theorem isSpelled_of_recovering {source : String} {d : Derivation}
    (h : (Parse.recovering source).result = .ok d) : ∀ x ∈ d.lexemes, x.IsSpelled := by
  obtain ⟨_, _, hsublist⟩ := Parse.valid_of_recovering h
  intro x hx
  have hmem := Parse.mem_lexemesIn.mp (hsublist.subset hx)
  exact Piece.isSpelled_of_mem_ofSource (List.mem_filter.mp hmem).1

/-- A file that is read from a source, in spite of errors or without any, is typed. -/
theorem exists_statements_of_recovering {source : String} {d : Derivation} {file : Node}
    (h : (Parse.recovering source).result = .ok d) (hbuild : d.tree.build = .ok file) :
    ∃ (e : Option Extent) (ss : List Statement), file = .file e (ss.map Statement.node) ∧
      (d.isFaithful = true → ∀ s ∈ ss, s.Faithful) := by
  obtain ⟨hvalid, hstart, _⟩ := Parse.valid_of_recovering h
  exact exists_statements hvalid hstart (isSpelled_of_recovering h) hbuild

end GrammarServer.Typed
