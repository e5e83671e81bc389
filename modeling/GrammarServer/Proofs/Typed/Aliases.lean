import GrammarServer.Proofs.Node.Aliases
import GrammarServer.Proofs.Parse.Complete
import GrammarServer.Proofs.Typed.OfDerivation

/-!
# What becomes of aliases

An alias gives a name to an expansion. Where a rule, a terminal, an optional part or a directive
lists expansions the alias is resolved: the expansion gets its name and its extent. A group in
parentheses lists expansions too, but there nobody resolves them. So the names in a file are those
that aliases give in the source, one by one and in their order, and an alias is left over for each
that stands directly inside a group.
-/
namespace GrammarServer

/-! ## What is built gives the names that are written -/

namespace Typed

open GrammarServer.Derivation (isSilent inGroup hull)

/-- The alternatives that are built from a derivation give its names, either left in aliases as in a
group, or resolved. -/
structure Offers (d : Derivation) (as : Alternatives) : Prop where
  nodes : as.nodes.flatMap Node.namings = d.namings true
  resolved : as.resolved.flatMap Node.namings = d.namings false

def isOffer : Symbol → Bool
  | .phrase .expansions | .phrase .alternatives | .phrase .aliasing => true
  | _ => false

/-- What is built from a derivation of a symbol gives the names that the derivation does. -/
def Names (d : Derivation) (ns : List Node) : Symbol → Prop
  | .phrase .expansions => ∃ as : Alternatives, ns = [.list as.nodes] ∧ Offers d as
  | .phrase .alternatives => ∃ as : Alternatives, ns = as.nodes ∧ Offers d as
  | .phrase .aliasing => ∃ a : Alternative, ns = [a.node] ∧ Offers d (.one a)
  | _ => ns.flatMap Node.namings = d.namings false

theorem names_iff {d : Derivation} {ns : List Node} {x : Symbol} (hx : isOffer x = false) :
    Names d ns x ↔ ns.flatMap Node.namings = d.namings false := by
  unfold isOffer at hx
  split at hx
  · cases hx
  · cases hx
  · cases hx
  · unfold Names
    split <;> first | contradiction | rfl

structure Tallies (d : Derivation) (ns : List Node) (x : Symbol) : Prop where
  valid : d.Valid
  symbol_eq : d.symbol = x
  builds : ∃ e, d.Builds e ns
  sense : Sense d ns x
  names : Names d ns x

inductive TalliesAll : List Symbol → List Derivation → List Node → Prop
  | nil : TalliesAll [] [] []
  | cons {x : Symbol} {d : Derivation} {ms : List Node} {xs : List Symbol}
      {ds : List Derivation} {ns : List Node} :
      Tallies d ms x → TalliesAll xs ds ns → TalliesAll (x :: xs) (d :: ds) (ms ++ ns)

theorem Tallies.silent {d : Derivation} {ns : List Node} {x : Symbol} (h : Tallies d ns x)
    (hx : isSilent x = true) (grouped : Bool) : d.namings grouped = [] :=
  Derivation.namings_of_silent d h.valid (by rwa [h.symbol_eq]) grouped

/-- Only where alternatives are listed does it matter that a group is around. -/
theorem Tallies.free {d : Derivation} {ns : List Node} {x : Symbol} (h : Tallies d ns x)
    (hx : isOffer x = false) (grouped : Bool) : d.namings grouped = d.namings false := by
  obtain rfl := h.symbol_eq
  cases d with
  | leaf _ => rfl
  | node q ds =>
    obtain ⟨p, r⟩ := q
    cases p
    case expansions | alternatives | aliasing => cases hx
    all_goals
      rw [Derivation.namings_phrase (by decide), Derivation.namings_phrase (by decide)]
      rfl

theorem TalliesAll.flatMap {xs : List Symbol} {ds : List Derivation} {ns : List Node}
    (h : TalliesAll xs ds ns) (hxs : xs.all (!isOffer ·) = true) :
    ns.flatMap Node.namings = ds.flatMap (Derivation.namings false) := by
  induction h with
  | nil => rfl
  | cons hd _ ih =>
    obtain ⟨hx, hxs⟩ := Bool.and_eq_true_iff.mp hxs
    rw [List.flatMap_append, List.flatMap_cons, ih hxs,
      (names_iff (by simpa using hx)).mp hd.names]

/-! ## Nodes of typed parts -/

theorem namings_expansion (e : Option Extent) (ns : List Node) :
    (Node.expansion e ns .absent).namings = ns.flatMap Node.namings :=
  Node.namings_of_parts rfl

theorem namings_list (ns : List Node) : (Node.list ns).namings = ns.flatMap Node.namings :=
  Node.namings_of_parts rfl

/-- The names in a definition are those in its body. -/
theorem Definition.namings_node (d : Definition) :
    d.node.namings = d.body.resolved.flatMap Node.namings := by
  cases d with
  | rule e signs name parameters priority body =>
    have hsigns : (Node.list ((signChars signs).map (fun c => .text (String.singleton c)) ++
        (underscoreMark name.text).map .text)).namings = [] := by
      refine Node.namings_eq_nil rfl (List.forall_mem_append.mpr ⟨?_, ?_⟩)
      · exact List.forall_mem_map.mpr fun _ _ => rfl
      · exact List.forall_mem_map.mpr fun _ _ => rfl
    have hparameters : (Node.list (parameters.map Word.node)).namings = [] :=
      Node.namings_eq_nil rfl (List.forall_mem_map.mpr fun _ _ => rfl)
    rw [Node.namings_of_parts rfl]
    change Node.namings (.list _) ++ (Node.namings name.node ++ (Node.namings (.list _) ++
      (Node.namings (.number _) ++ body.resolved.flatMap Node.namings))) = _
    rw [hsigns, hparameters]
    rfl
  | term e name priority body =>
    have hpriority : (termPriority priority).namings = [] := by
      cases priority <;> rfl
    rw [Node.namings_of_parts rfl]
    change Node.namings name.node ++ (Node.namings (termPriority priority) ++
      body.resolved.flatMap Node.namings) = _
    rw [hpriority]
    rfl

theorem Alternatives.resolved_snoc : ∀ (as : Alternatives) (b : Alternative),
    (as.snoc b).resolved = as.resolved ++ [b.resolved]
  | .one _, _ => rfl
  | .cons a rest, b => by rw [snoc, resolved, resolved_snoc rest b, resolved, List.cons_append]

/-! ## Phrases -/

section

variable {p : Phrase} {r : List Symbol} {ds : List Derivation} {ns : List Node}
  {e : Option Extent} {n : Node}

/-- The phrases that have no alternatives as parts, only deeper down. -/
def passing : List Phrase :=
  [.start, .list, .item, .override, .extend, .expansion, .exprs, .expr]

/-- Such a phrase gives the names that its parts give. -/
theorem names_of_parts {parts : List Node} (hp : p ∈ passing) (hr : r ∈ rightsOf p)
    (h : TalliesAll r ds parts)
    (hns : ns.flatMap Node.namings = parts.flatMap Node.namings) :
    Names (.node ⟨p, r⟩ ds) ns (.phrase p) := by
  have hall : ∀ p ∈ passing, (∀ r ∈ rightsOf p, r.all (!isOffer ·) = true) ∧
      isOffer p = false ∧ p ≠ .aliasing ∧ inGroup false p = false := by
    decide
  obtain ⟨hright, hoffer, hne, hgroup⟩ := hall p hp
  rw [names_iff hoffer, hns, h.flatMap (hright r hr), Derivation.namings_phrase hne, hgroup]

theorem names_expr (hr : r ∈ rightsOf .expr) (h : TalliesAll r ds ns)
    (hn : (Node.Conversion.form .expr).ofPhrase e ns = .ok n) :
    Names (.node ⟨.expr, r⟩ ds) [n] (.phrase .expr) := by
  obtain ⟨first, hfirst, hn⟩ := bind_eq_ok.mp hn
  obtain rfl := pure_eq_ok.mp hn
  refine names_of_parts (by decide) hr h ?_
  cases ns with
  | nil => cases hfirst
  | cons m ns =>
    cases hfirst
    rw [List.flatMap_singleton, Node.namings_of_parts rfl]
    rfl

theorem names_expansion (hr : r ∈ rightsOf .expansion) (h : TalliesAll r ds ns)
    (hn : (Node.Conversion.form .expansion).ofPhrase e ns = .ok n) :
    Names (.node ⟨.expansion, r⟩ ds) [n] (.phrase .expansion) := by
  cases hn
  refine names_of_parts (by decide) hr h ?_
  rw [List.flatMap_singleton, namings_expansion]

/-- Groups keep what they hold as it is. -/
theorem names_atom (hr : r ∈ rightsOf .atom) (h : TalliesAll r ds ns) :
    Names (.node ⟨.atom, r⟩ ds) ns (.phrase .atom) := by
  rw [names_iff rfl, Derivation.namings_phrase (by decide)]
  obtain _ | ⟨_, hr⟩ := hr
  · obtain _ | ⟨hopen, _ | ⟨hbody, _ | ⟨hclose, ⟨⟩⟩⟩⟩ := h
    obtain ⟨x, -, rfl⟩ := hopen.sense
    obtain ⟨y, -, rfl⟩ := hclose.sense
    obtain ⟨as, rfl, has⟩ := hbody.names
    simp only [List.flatMap_cons, List.flatMap_nil, hopen.silent rfl, hclose.silent rfl,
      List.nil_append, List.append_nil, inGroup, ← has.nodes]
    exact (List.append_nil _).trans (namings_list _)
  · obtain _ | ⟨_, _ | ⟨_, ⟨⟩⟩⟩ := hr
    all_goals
      obtain _ | ⟨hbody, ⟨⟩⟩ := h
      rw [List.append_nil, (names_iff rfl).mp hbody.names, List.flatMap_singleton,
        hbody.free rfl (inGroup false .atom)]

/-- A list of alternatives offers what its only part does. -/
theorem Offers.single {d : Derivation} {as : Alternatives} (h : Offers d as)
    (hp : p ∈ [Phrase.expansions, .alternatives]) : Offers (.node ⟨p, r⟩ [d]) as := by
  have hnamings : ∀ g, (Derivation.node ⟨p, r⟩ [d]).namings g = d.namings g := by
    intro g
    simp only [List.mem_cons, List.not_mem_nil, or_false] at hp
    rcases hp with rfl | rfl
    all_goals
      rw [Derivation.namings_phrase (by decide), List.flatMap_singleton]
      rfl
  exact ⟨by rw [h.nodes, hnamings], by rw [h.resolved, hnamings]⟩

theorem Offers.snoc {first bar last : Derivation} {as : Alternatives} {a : Alternative}
    (hfirst : Offers first as) (hbar : ∀ grouped, bar.namings grouped = [])
    (hlast : Offers last (.one a)) :
    Offers (.node ⟨.alternatives, r⟩ [first, bar, last]) (as.snoc a) := by
  have hnamings : ∀ g, (Derivation.node ⟨.alternatives, r⟩ [first, bar, last]).namings g =
      first.namings g ++ last.namings g := by
    intro g
    rw [Derivation.namings_phrase (by decide), List.flatMap_cons, List.flatMap_cons,
      List.flatMap_singleton, hbar]
    rfl
  refine ⟨?_, ?_⟩
  · rw [as.nodes_snoc, List.flatMap_append, hfirst.nodes, hnamings, ← hlast.nodes]
    rfl
  · rw [as.resolved_snoc, List.flatMap_append, hfirst.resolved, hnamings, ← hlast.resolved]
    rfl

theorem names_alternatives (hr : r ∈ rightsOf .alternatives) (h : TalliesAll r ds ns) :
    Names (.node ⟨.alternatives, r⟩ ds) ns (.phrase .alternatives) := by
  obtain _ | ⟨_, hr⟩ := hr
  · obtain _ | ⟨hone, ⟨⟩⟩ := h
    obtain ⟨a, rfl, ha⟩ := hone.names
    exact ⟨.one a, rfl, ha.single (by decide)⟩
  · obtain _ | ⟨_, _ | ⟨_, ⟨⟩⟩⟩ := hr
    all_goals
      obtain _ | ⟨hfirst, _ | ⟨hbar, _ | ⟨hlast, ⟨⟩⟩⟩⟩ := h
      obtain ⟨as, rfl, has⟩ := hfirst.names
      obtain ⟨x, -, rfl⟩ := hbar.sense
      obtain ⟨a, rfl, ha⟩ := hlast.names
      exact ⟨as.snoc a, as.nodes_snoc a ▸ rfl, has.snoc (hbar.silent rfl) ha⟩

theorem names_expansions (hr : r ∈ rightsOf .expansions) (h : TalliesAll r ds ns)
    (hn : Node.Conversion.children.ofPhrase e ns = .ok n) :
    Names (.node ⟨.expansions, r⟩ ds) [n] (.phrase .expansions) := by
  obtain _ | ⟨_, ⟨⟩⟩ := hr
  obtain _ | ⟨hbody, ⟨⟩⟩ := h
  obtain ⟨as, rfl, has⟩ := hbody.names
  rw [List.append_nil] at hn
  cases hn
  exact ⟨as, rfl, has.single (by decide)⟩

/-- A phrase whose alternatives are resolved in the node that it makes, and that has no other part
with names. -/
theorem names_of_body {d : Derivation} {as : Alternatives} (hp : isOffer p = false)
    (hgroup : inGroup false p = false) (has : Offers d as)
    (hothers : ds.flatMap (Derivation.namings false) = d.namings false)
    (hn : n.namings = as.resolved.flatMap Node.namings) :
    Names (.node ⟨p, r⟩ ds) [n] (.phrase p) := by
  have hne : p ≠ .aliasing := by
    rintro rfl
    cases hp
  rw [names_iff hp, List.flatMap_singleton, hn, has.resolved, Derivation.namings_phrase hne, hgroup,
    hothers]

theorem names_maybe (hr : r ∈ rightsOf .maybe) (h : TalliesAll r ds ns)
    (hn : (Node.Conversion.form .maybe).ofPhrase e ns = .ok n) :
    Names (.node ⟨.maybe, r⟩ ds) [n] (.phrase .maybe) := by
  obtain _ | ⟨_, ⟨⟩⟩ := hr
  obtain _ | ⟨hopen, _ | ⟨hbody, _ | ⟨hclose, ⟨⟩⟩⟩⟩ := h
  obtain ⟨x, -, rfl⟩ := hopen.sense
  obtain ⟨y, -, rfl⟩ := hclose.sense
  obtain ⟨as, rfl, has⟩ := hbody.names
  obtain ⟨body, hbody, hn⟩ := bind_eq_ok.mp hn
  obtain rfl := Except.ok.inj hbody
  rw [expansionsOf_list] at hn
  cases hn
  refine names_of_body rfl rfl has ?_ (Node.namings_of_parts rfl)
  simp [hopen.silent rfl, hclose.silent rfl]

theorem names_ignore (hr : r ∈ rightsOf .ignore) (h : TalliesAll r ds ns)
    (hn : (Node.Conversion.form .ignore).ofPhrase e ns = .ok n) :
    Names (.node ⟨.ignore, r⟩ ds) [n] (.phrase .ignore) := by
  obtain _ | ⟨_, ⟨⟩⟩ := hr
  obtain _ | ⟨hword, _ | ⟨hbody, ⟨⟩⟩⟩ := h
  obtain ⟨x, -, rfl⟩ := hword.sense
  obtain ⟨as, rfl, has⟩ := hbody.names
  obtain ⟨body, hbody, hn⟩ := bind_eq_ok.mp hn
  obtain rfl := Except.ok.inj hbody
  rw [expansionsOf_list] at hn
  cases hn
  refine names_of_body rfl rfl has ?_ (Node.namings_of_parts rfl)
  simp [hword.silent rfl]

theorem names_term (hr : r ∈ rightsOf .term) (h : TalliesAll r ds ns)
    (hn : (Node.Conversion.form .term).ofPhrase e ns = .ok n) :
    Names (.node ⟨.term, r⟩ ds) [n] (.phrase .term) := by
  obtain _ | ⟨_, _ | ⟨_, ⟨⟩⟩⟩ := hr
  · obtain _ | ⟨hname, _ | ⟨hcolon, _ | ⟨hbody, ⟨⟩⟩⟩⟩ := h
    obtain ⟨x, -, rfl⟩ := hname.sense
    obtain ⟨y, -, rfl⟩ := hcolon.sense
    obtain ⟨as, rfl, has⟩ := hbody.names
    obtain rfl := Except.ok.inj ((make_term_plain x as).symm.trans hn)
    refine names_of_body rfl rfl has ?_ (Definition.namings_node _)
    simp [hname.silent rfl, hcolon.silent rfl]
  · obtain _ | ⟨hname, _ | ⟨hdot, _ | ⟨hnumber, _ | ⟨hcolon, _ | ⟨hbody, ⟨⟩⟩⟩⟩⟩⟩ := h
    obtain ⟨x, -, rfl⟩ := hname.sense
    obtain ⟨y, -, rfl⟩ := hdot.sense
    obtain ⟨z, -, rfl⟩ := hnumber.sense
    obtain ⟨w, -, rfl⟩ := hcolon.sense
    obtain ⟨as, rfl, has⟩ := hbody.names
    obtain rfl := Except.ok.inj ((make_term_priority x z as).symm.trans hn)
    refine names_of_body rfl rfl has ?_ (Definition.namings_node _)
    simp [hname.silent rfl, hdot.silent rfl, hnumber.silent rfl, hcolon.silent rfl]

theorem names_rule (hr : r ∈ rightsOf .rule) (h : TalliesAll r ds ns)
    (hn : (Node.Conversion.form .rule).ofPhrase e ns = .ok n) :
    Names (.node ⟨.rule, r⟩ ds) [n] (.phrase .rule) := by
  obtain _ | ⟨_, ⟨⟩⟩ := hr
  obtain _ | ⟨hsigns, _ | ⟨hname, _ | ⟨hparams, _ | ⟨hprior, _ | ⟨hcolon, _ | ⟨hbody,
    ⟨⟩⟩⟩⟩⟩⟩⟩ := h
  obtain ⟨marks, signs, rfl, hmarks⟩ := exists_signs hsigns.sense
  obtain ⟨x, -, rfl⟩ := hname.sense
  obtain ⟨parameters, ps, rfl, hparameters, _⟩ := exists_parameters hparams.sense
  obtain ⟨priority, p, rfl, hpriority, _⟩ := exists_priority hprior.sense
  obtain ⟨y, -, rfl⟩ := hcolon.sense
  obtain ⟨as, rfl, has⟩ := hbody.names
  obtain rfl := Except.ok.inj ((make_rule hmarks hparameters hpriority x as).symm.trans hn)
  refine names_of_body rfl rfl has ?_ (Definition.namings_node _)
  simp [hsigns.silent rfl, hname.silent rfl, hparams.silent rfl, hprior.silent rfl,
    hcolon.silent rfl]

theorem names_start (hr : r ∈ rightsOf .start) (h : TalliesAll r ds ns)
    (hn : (Node.Conversion.form .file).ofPhrase e ns = .ok n) :
    Names (.node ⟨.start, r⟩ ds) [n] (.phrase .start) := by
  refine names_of_parts (by decide) hr h ?_
  obtain _ | ⟨_, ⟨⟩⟩ := hr
  obtain _ | ⟨hlist, ⟨⟩⟩ := h
  obtain ⟨ss, rfl, _⟩ := hlist.sense
  simp only [Node.Conversion.ofPhrase, Form.make, List.append_nil, filter_isPart_nodes] at hn
  cases hn
  rw [List.flatMap_singleton, List.append_nil, Node.namings_of_parts rfl]
  rfl

theorem names_amendment {c : Node.Conversion} (hp : p ∈ [Phrase.override, .extend])
    (hr : r ∈ rightsOf p) (h : TalliesAll r ds ns) (hc : Node.conversionOf p = some c)
    (hn : c.ofPhrase e ns = .ok n) : Names (.node ⟨p, r⟩ ds) [n] (.phrase p) := by
  have hpassing : ∀ p ∈ [Phrase.override, .extend], p ∈ passing := by decide
  refine names_of_parts (hpassing p hp) hr h ?_
  simp only [List.mem_cons, List.not_mem_nil, or_false] at hp
  rcases hp with rfl | rfl
  all_goals
    cases hc
    obtain _ | ⟨_, _ | ⟨_, ⟨⟩⟩⟩ := hr
  all_goals
    obtain _ | ⟨hword, _ | ⟨hdefinition, ⟨⟩⟩⟩ := h
    obtain ⟨x, -, rfl⟩ := hword.sense
    obtain ⟨d, rfl, _⟩ := hdefinition.sense
    cases hn
    rw [List.flatMap_singleton, Node.namings_of_parts rfl]
    rfl

/-! ## Aliases -/

theorem names_aliasing_plain (h : TalliesAll [.phrase .expansion] ds ns) :
    Names (.node ⟨.aliasing, [.phrase .expansion]⟩ ds) ns (.phrase .aliasing) := by
  obtain _ | ⟨hbody, ⟨⟩⟩ := h
  have hnames := (names_iff rfl).mp hbody.names
  obtain ⟨e, xs, rfl, _⟩ := hbody.sense
  refine ⟨.plain e xs, rfl, ?_, ?_⟩
  all_goals
    rw [Derivation.namings_node, List.flatMap_singleton]
    exact hnames

/-- The name of a rule is the one token of its phrase. -/
theorem exists_token_of_nonterminal {d : Derivation} (hvalid : d.Valid)
    (hsymbol : d.symbol = .phrase .nonterminal) (h : d.Builds e ns) :
    ∃ x : Lexeme, d.lexemes = [x] ∧ ns = [.token x.token] := by
  cases d with
  | leaf x => cases hsymbol
  | node q ds =>
    obtain ⟨hq, hspell, _⟩ := hvalid
    have hr := right_mem hq
    obtain ⟨p, r⟩ := q
    obtain rfl := Symbol.phrase.inj hsymbol
    obtain _ | ⟨_, ⟨⟩⟩ := hr
    obtain ⟨d, rfl, hd⟩ := List.map_eq_singleton_iff.mp hspell
    cases d with
    | node q ds => cases hd
    | leaf x =>
      obtain ⟨parts, n, ⟨_, _, hx, rfl, rfl⟩, hn, rfl⟩ :=
        (Derivation.builds_node hspell rfl (fun hp => nomatch hp) rfl).mp h
      rw [Derivation.builds_leaf.mp hx, Symbol.terminal.inj hd] at hn
      cases hn
      exact ⟨x, rfl, rfl⟩

/-- What a phrase with text covers does not depend on where it stands. -/
theorem hull_orElse (h : Derivation.lexemesOfAll ds ≠ []) :
    (hull ds <|> e) = Lexeme.span (Derivation.lexemesOfAll ds) := by
  obtain ⟨x, xs, hxs⟩ := List.exists_cons_of_ne_nil h
  obtain ⟨f, hf, _⟩ := Lexeme.exists_span_cons x xs
  rw [Derivation.hull_eq_span, hxs, hf]
  rfl

theorem namings_aliasing {body arrow name : Derivation} {y : Lexeme}
    (harrow : ∀ grouped, arrow.namings grouped = [])
    (hname : ∀ grouped, name.namings grouped = []) (hlexemes : name.lexemes = [y])
    (grouped : Bool) :
    (Derivation.node ⟨.aliasing, r⟩ [body, arrow, name]).namings grouped =
      ⟨!grouped, Lexeme.span (Derivation.lexemesOfAll [body, arrow, name]), some y.token⟩ ::
        body.namings false := by
  rw [Derivation.namings_node, Derivation.ownAlias, hlexemes, List.flatMap_cons, List.flatMap_cons,
    List.flatMap_singleton, harrow, hname, List.append_nil, List.append_nil]
  rfl

/-- An alias in a group is left as it is, and any other is resolved. -/
theorem names_aliasing_named
    (h : TalliesAll [.phrase .expansion, .terminal .arrow, .phrase .nonterminal] ds ns)
    (hn : (Node.Conversion.form .aliasing).ofPhrase (hull ds <|> e) ns = .ok n) :
    Names (.node ⟨.aliasing, [.phrase .expansion, .terminal .arrow, .phrase .nonterminal]⟩ ds)
      [n] (.phrase .aliasing) := by
  obtain _ | ⟨hbody, _ | ⟨harrow, _ | ⟨hname, ⟨⟩⟩⟩⟩ := h
  obtain ⟨_, hbuilds⟩ := hname.builds
  obtain ⟨y, hlexemes, htoken⟩ := exists_token_of_nonterminal hname.valid hname.symbol_eq hbuilds
  have hquiet := harrow.silent rfl
  have hplain := hname.silent rfl
  have hnames := (names_iff rfl).mp hbody.names
  obtain ⟨e', xs, rfl, _⟩ := hbody.sense
  obtain ⟨w, rfl, rfl⟩ := harrow.sense
  obtain ⟨x, rfl, _⟩ := hname.sense
  -- The expansion may be empty, but the arrow has a place, so nothing is lent from around.
  rw [hull_orElse (by simp [Derivation.lexemesOfAll, Derivation.lexemes])] at hn
  cases hn
  rw [List.flatMap_singleton, namings_expansion] at hnames
  have hx : x.node.token? = some y.token := by
    rw [List.singleton_inj.mp htoken]
    rfl
  refine ⟨.named _ e' xs x, rfl, ?_, ?_⟩
  · rw [namings_aliasing hquiet hplain hlexemes, ← hnames, ← hx, Alternatives.nodes,
      List.flatMap_singleton, Node.namings_eq]
    change _ :: (Node.namings (.expansion e' xs.nodes .absent) ++ _) = _
    rw [namings_expansion]
    exact congrArg _ (List.append_nil _)
  · rw [namings_aliasing hquiet hplain hlexemes, ← hnames, ← hx, Alternatives.resolved,
      List.flatMap_singleton, Node.namings_eq, Alternative.resolved, Node.naming?,
      if_pos x.isPresent_node]
    rfl

end

/-! ## Whole derivations -/

theorem talliesAll_of_buildsAll {e : Option Extent} {ds : List Derivation} {ns : List Node}
    (h : Derivation.BuildsAll e ds ns)
    (ih : ∀ d ∈ ds, ∀ e ns, d.Builds e ns → Tallies d ns d.symbol) :
    TalliesAll (ds.map Derivation.symbol) ds ns := by
  induction ds generalizing ns with
  | nil =>
    rw [show ns = [] from h]
    exact .nil
  | cons d ds ihs =>
    obtain ⟨ms, rest, hms, hrest, rfl⟩ := h
    exact .cons (ih d List.mem_cons_self e ms hms)
      (ihs hrest fun d' hd' => ih d' (List.mem_cons_of_mem _ hd'))

section

variable {p : Phrase} {r : List Symbol} {ds : List Derivation} {e : Option Extent}
  {ns : List Node}

theorem exists_talliesAll_of_tree (hspell : ds.map Derivation.symbol = r)
    (ih : ∀ d ∈ ds, ∀ e ns, d.Builds e ns → Tallies d ns d.symbol)
    (h : (Derivation.node ⟨p, r⟩ ds).Builds e ns) {c : Node.Conversion}
    (hp : p.isSpliced = false)
    (hmany : p.isTransparent = true →
      r.all Derivation.isWhole = true ∧ Derivation.givenBy r ≠ 1)
    (hc : Node.conversionOf p = some c) :
    ∃ parts n, TalliesAll r ds parts ∧ c.ofPhrase (hull ds <|> e) parts = .ok n ∧ ns = [n] := by
  obtain ⟨parts, n, hparts, hn, rfl⟩ := (Derivation.builds_node hspell hp hmany hc).mp h
  refine ⟨parts, n, ?_, hn, rfl⟩
  rw [← hspell]
  exact talliesAll_of_buildsAll hparts ih

/-- What is built from a phrase gives the names that are written in it, if this is so for its
parts. -/
theorem names_node (hvalid : (Derivation.node ⟨p, r⟩ ds).Valid)
    (ih : ∀ d ∈ ds, ∀ e ns, d.Builds e ns → Tallies d ns d.symbol)
    (h : (Derivation.node ⟨p, r⟩ ds).Builds e ns) : Names (.node ⟨p, r⟩ ds) ns (.phrase p) := by
  have hr := right_mem hvalid.1
  have hspell : ds.map Derivation.symbol = r := hvalid.2.1
  have hspliced : p.isSpliced = true → TalliesAll r ds ns := fun hp =>
    hspell ▸ talliesAll_of_buildsAll ((Derivation.builds_spliced hp).mp h) ih
  have hsingle : p.isSpliced = false → p.isTransparent = true →
      r.all Derivation.isWhole = true → Derivation.givenBy r = 1 → TalliesAll r ds ns :=
    fun hp htransparent hwhole hone => hspell ▸ talliesAll_of_buildsAll
      ((Derivation.builds_single hspell hp htransparent hwhole hone).mp h) ih
  have htree := fun c => exists_talliesAll_of_tree (c := c) hspell ih h
  -- Nothing is named below a silent phrase, so only those that can hold an alternative are left.
  by_cases hsilent : isSilent (.phrase p) = true
  · have hp : isOffer (.phrase p) = false := by
      cases p <;> first | rfl | cases hsilent
    rw [names_iff hp, Derivation.namings_of_silent _ hvalid hsilent, List.flatMap_eq_nil_iff]
    exact Derivation.namings_of_builds _ hvalid hsilent h
  · cases p
    case list | item | exprs => exact names_of_parts (by decide) hr (hspliced rfl) rfl
    case alternatives => exact names_alternatives hr (hspliced rfl)
    case atom =>
      have hall : ∀ r ∈ rightsOf .atom, r.all Derivation.isWhole = true ∧
          Derivation.givenBy r = 1 := by decide
      exact names_atom hr (hsingle rfl rfl (hall r hr).1 (hall r hr).2)
    case aliasing =>
      obtain _ | ⟨_, _ | ⟨_, ⟨⟩⟩⟩ := hr
      · obtain ⟨parts, n, hparts, hn, rfl⟩ := htree _ rfl (fun _ => by decide) rfl
        exact names_aliasing_named hparts hn
      · exact names_aliasing_plain (hsingle rfl rfl rfl rfl)
    all_goals
      first
        | exact absurd rfl hsilent
        | obtain ⟨parts, n, hparts, hn, rfl⟩ := htree _ rfl (fun hp => nomatch hp) rfl
    case start => exact names_start hr hparts hn
    case rule => exact names_rule hr hparts hn
    case expansions => exact names_expansions hr hparts hn
    case expansion => exact names_expansion hr hparts hn
    case expr => exact names_expr hr hparts hn
    case maybe => exact names_maybe hr hparts hn
    case term => exact names_term hr hparts hn
    case override => exact names_amendment (by decide) hr hparts rfl hn
    case extend => exact names_amendment (by decide) hr hparts rfl hn
    case ignore => exact names_ignore hr hparts hn

end

mutual

theorem tallies_of_builds : ∀ (d : Derivation), d.Valid → (∀ x ∈ d.lexemes, x.IsSpelled) →
    ∀ (e : Option Extent) (ns : List Node), d.Builds e ns → Tallies d ns d.symbol
  | .leaf x, hvalid, hx, e, ns, h => by
    refine ⟨hvalid, rfl, ⟨e, h⟩, sense_of_builds _ hvalid hx e ns h, ?_⟩
    rw [names_iff rfl]
    exact List.flatMap_eq_nil_iff.mpr (Derivation.namings_of_builds _ hvalid rfl h)
  | .node q ds, hvalid, hx, e, ns, h =>
    ⟨hvalid, rfl, ⟨e, h⟩, sense_of_builds _ hvalid hx e ns h,
      names_node hvalid (tallies_of_builds_all ds hvalid.2.2 hx) h⟩

theorem tallies_of_builds_all : ∀ (ds : List Derivation), Derivation.AllValid ds →
    (∀ x ∈ Derivation.lexemesOfAll ds, x.IsSpelled) → ∀ d ∈ ds, ∀ (e : Option Extent)
    (ns : List Node), d.Builds e ns → Tallies d ns d.symbol
  | [], _, _ => fun d hd => nomatch hd
  | d :: ds, hvalid, hx => by
    have hd := tallies_of_builds d hvalid.1 fun x hx' => hx x (List.mem_append_left _ hx')
    have hds := tallies_of_builds_all ds hvalid.2 fun x hx' => hx x (List.mem_append_right _ hx')
    exact List.forall_mem_cons.mpr ⟨hd, hds⟩

end

end Typed

/-! ## Files -/

/-- The names in a file are those that its aliases give, each with the text that the alias covers.
No alias is left over exactly if none stands directly inside a group. -/
theorem Node.aliases_resolved_iff {source : String} {d : Derivation} {file : Node}
    (hparse : Parse.strict source = .ok d ∨ (Parse.recovering source).result = .ok d)
    (hbuild : d.tree.build = .ok file) :
    file.namings = (d.aliases false).map (fun a => ⟨!a.grouped, a.extent, a.name⟩) ∧
      ((∀ n ∈ file.within, n.isAliasing = false) ↔ ∀ a ∈ d.aliases false, a.grouped = false) := by
  have hrecovering := hparse.elim Parse.recovering_of_strict id
  obtain ⟨hvalid, hstart, _⟩ := Parse.valid_of_recovering hrecovering
  have hbuilds := (Derivation.build_tree_eq_ok hstart).mp hbuild
  have hspelled := Typed.isSpelled_of_recovering hrecovering
  have htallies := Typed.tallies_of_builds d hvalid hspelled none [file] hbuilds
  rw [hstart] at htallies
  have hnamings : file.namings = d.namings false := by
    rw [← (Typed.names_iff rfl).mp htallies.names, List.flatMap_singleton]
  refine ⟨hnamings, ?_⟩
  rw [forall_resolved_iff, hnamings, Derivation.namings, List.forall_mem_map]
  simp [WrittenAlias.naming]

open GrammarServer.Derivation in
/-- The derivation of `a: [b -> c] (d -> e) -> f`, with an alias in an optional part, one in a group
and one around both. -/
def nestedAliases : Derivation :=
  let option : Derivation := ofParts .maybe [
    ofWord .leftBracket ⟨3, 1, 4⟩ "[",
    ofNamed (ofValue .nonterminal .ruleName ⟨4, 1, 5⟩ "b") ⟨6, 1, 7⟩ ⟨9, 1, 10⟩ "c",
    ofWord .rightBracket ⟨10, 1, 11⟩ "]"]
  let group : List Derivation := [
    ofWord .leftParen ⟨12, 1, 13⟩ "(",
    ofNamed (ofValue .nonterminal .ruleName ⟨13, 1, 14⟩ "d") ⟨15, 1, 16⟩ ⟨18, 1, 19⟩ "e",
    ofWord .rightParen ⟨19, 1, 20⟩ ")"]
  let both : Derivation := ofParts .expansion [ofParts .exprs [
    ofParts .exprs [ofParts .exprs [], ofParts .expr [ofParts .atom [option]]],
    ofParts .expr [ofParts .atom group]]]
  ofItems (ofRule ⟨0, 1, 1⟩ "a" [] [] ⟨1, 1, 2⟩ (ofNamed both ⟨21, 1, 22⟩ ⟨24, 1, 25⟩ "f"))
    [ofWord .newline ⟨25, 1, 26⟩ "\n"]

theorem Node.aliases_resolved_iff_nestedAliases :
    Parse.strict "a: [b -> c] (d -> e) -> f\n" = .ok nestedAliases ∧ ∃ file,
      nestedAliases.tree.build = .ok file ∧
      file.namings.map (fun x => (x.resolved, x.name.map Token.text)) =
        [(true, some "f"), (true, some "c"), (false, some "e")] ∧
      ¬ ∀ n ∈ file.within, n.isAliasing = false := by
  have hparse : Parse.strict "a: [b -> c] (d -> e) -> f\n" = .ok nestedAliases :=
    Parse.strict_of_settled (by decide) rfl (by decide) (by decide +kernel)
  have hbuilt : nestedAliases.tree.build.toOption.isSome = true := by decide +kernel
  obtain ⟨file, hfile⟩ := Option.isSome_iff_exists.mp hbuilt
  have hbuild := Typed.eq_ok_of_toOption hfile
  obtain ⟨hnamings, hiff⟩ := aliases_resolved_iff (Or.inl hparse) hbuild
  refine ⟨hparse, file, hbuild, ?_, ?_⟩
  · rw [hnamings]
    decide +kernel
  · rw [hiff]
    decide

open GrammarServer.Derivation in
/-- The derivation of `a: (b -> c)`. -/
def groupedAlias : Derivation :=
  ofItems
    (ofRule ⟨0, 1, 1⟩ "a" [] [] ⟨1, 1, 2⟩ (ofAlternative [ofAtom [
      ofWord .leftParen ⟨3, 1, 4⟩ "(",
      ofNamed (ofValue .nonterminal .ruleName ⟨4, 1, 5⟩ "b") ⟨6, 1, 7⟩ ⟨9, 1, 10⟩ "c",
      ofWord .rightParen ⟨10, 1, 11⟩ ")"]]))
    [ofWord .newline ⟨11, 1, 12⟩ "\n"]

/-- An alias is left over in a file that the strict parser reads. -/
theorem Node.aliasing_left_groupedAlias :
    Parse.strict "a: (b -> c)\n" = .ok groupedAlias ∧ ∃ file,
      groupedAlias.tree.build = .ok file ∧ ∃ n ∈ file.within, n.isAliasing = true := by
  have hparse : Parse.strict "a: (b -> c)\n" = .ok groupedAlias :=
    Parse.strict_of_settled (by decide) rfl (by decide) (by decide +kernel)
  have hview : groupedAlias.tree.build.toOption.any
      (fun file => file.within.any isAliasing) = true := by
    decide +kernel
  obtain ⟨file, hfile, hany⟩ := (Option.any_eq_true _ _).mp hview
  exact ⟨hparse, file, Typed.eq_ok_of_toOption hfile, List.any_eq_true.mp hany⟩

end GrammarServer
