import GrammarServer.Proofs.Node.Extents

/-!
# Aliases and the names that they give

A node can give a name in two ways: an expansion has one itself, and an alias that was not resolved
gives one to the expansion in it. A derivation has the aliases as they are written. Most phrases are
silent: no alias can stand in them, and nothing that is built from them gives a name.
-/
namespace GrammarServer

/-- An alias as it is written: whether it stands directly inside a group, the text from its
expansion to its name, and the name. -/
structure WrittenAlias where
  grouped : Bool
  extent : Option Extent
  name : Option Token
deriving DecidableEq

/-! ## The names in a node -/

namespace Node

/-- A name that a node gives: to itself, if it is an expansion, or to the expansion in it, if it is
an alias that was not resolved. -/
structure Naming where
  resolved : Bool
  extent : Option Extent
  name : Option Token
deriving DecidableEq

mutual

/-- A node and all nodes in it, from the top down. -/
def within : Node → List Node
  | list items => list items :: withinAll items
  | tree label e items => tree label e items :: withinAll items
  | templateUsage e applied arguments =>
    templateUsage e applied arguments :: (within applied ++ withinAll arguments)
  | maybe e items => maybe e items :: withinAll items
  | expansion e expressions name =>
    expansion e expressions name :: (within name ++ withinAll expressions)
  | aliasing e body name => aliasing e body name :: (within body ++ within name)
  | expr e atom operators => expr e atom operators :: (within atom ++ withinAll operators)
  | term e modifiers name priority expansions =>
    term e modifiers name priority expansions ::
      (within name ++ (within priority ++ withinAll expansions))
  | rule e modifiers name parameters priority expansions =>
    rule e modifiers name parameters priority expansions ::
      (within modifiers ++ (within name ++ (within parameters ++
        (within priority ++ withinAll expansions))))
  | declare e items => declare e items :: withinAll items
  | imports e path symbols name =>
    imports e path symbols name :: (within path ++ (within symbols ++ within name))
  | override e n => override e n :: within n
  | extend e n => extend e n :: within n
  | comment e n => comment e n :: within n
  | ignore e items => ignore e items :: withinAll items
  | file e items => file e items :: withinAll items
  | named name part => named name part :: (within name ++ within part)
  | n => [n]

def withinAll : List Node → List Node
  | [] => []
  | n :: rest => within n ++ withinAll rest

end

def isAliasing : Node → Bool
  | aliasing .. => true
  | _ => false

def token? : Node → Option Token
  | token t => some t
  | _ => none

/-- The name that a node gives itself, or to what it holds. -/
def naming? : Node → Option Naming
  | expansion e _ name => if name.isPresent then some ⟨true, e, name.token?⟩ else none
  | aliasing e _ name => some ⟨false, e, name.token?⟩
  | _ => none

def namings (n : Node) : List Naming := n.within.filterMap naming?

theorem withinAll_eq_flatMap (ns : List Node) : withinAll ns = ns.flatMap within := by
  induction ns with
  | nil => rfl
  | cons n ns ih => rw [withinAll, ih, List.flatMap_cons]

/-- What is in a node is the node itself and what is in its parts. -/
theorem within_eq (n : Node) : n.within = n :: n.parts.flatMap within := by
  rw [← withinAll_eq_flatMap]
  cases n <;> simp [within, withinAll, parts]

theorem namings_eq (n : Node) : n.namings = n.naming?.toList ++ n.parts.flatMap namings := by
  have hparts : n.parts.flatMap namings = (n.parts.flatMap within).filterMap naming? := by
    rw [List.filterMap_flatMap]
    rfl
  rw [hparts, namings, within_eq, List.filterMap_cons]
  cases n.naming? <;> rfl

/-- A name is not resolved exactly if it stands in an alias. -/
theorem forall_resolved_iff (n : Node) :
    (∀ m ∈ n.within, m.isAliasing = false) ↔ ∀ x ∈ n.namings, x.resolved = true := by
  have hnaming : ∀ m : Node,
      m.isAliasing = false ↔ ∀ x, m.naming? = some x → x.resolved = true := by
    intro m
    cases m <;> simp [isAliasing, naming?]
  simp only [namings, List.mem_filterMap, hnaming]
  grind

theorem namings_of_parts {n : Node} (hself : n.naming? = none) :
    n.namings = n.parts.flatMap namings := by
  rw [namings_eq, hself]
  rfl

theorem namings_eq_nil {n : Node} (hself : n.naming? = none)
    (hparts : ∀ m ∈ n.parts, m.namings = []) : n.namings = [] := by
  rw [namings_of_parts hself, List.flatMap_eq_nil_iff.mpr hparts]

theorem namings_of_mem_parts {n m : Node} (h : n.namings = []) (hm : m ∈ n.parts) :
    m.namings = [] := by
  rw [namings_eq, List.append_eq_nil_iff, List.flatMap_eq_nil_iff] at h
  exact h.2 m hm

/-! ## Parts in which no names are given -/

theorem namings_item {n m : Node} {place : Int} (h : n.item place = .ok m) (hn : n.namings = []) :
    m.namings = [] := by
  unfold item at h
  split at h
  case h_1 items | h_2 items =>
    split at h
    case h_2 => cases h
    case h_1 x hx =>
      split at h
      · cases h
      · cases h
        exact namings_of_mem_parts hn (List.mem_of_getElem? hx)
  case h_3 | h_4 =>
    simp only at h
    split at h
    case h_2 => cases h
    case h_1 =>
      split at h
      · cases h
      · cases h
        rfl
  case h_5 => cases h

theorem namings_makeImport {e : Option Extent} {ns : List Node} {n : Node}
    (hns : ∀ m ∈ ns, m.namings = []) (h : makeImport e ns = .ok n) : n.namings = [] := by
  have himports : ∀ {path symbols name : Node}, path.namings = [] → symbols.namings = [] →
      name.namings = [] → (imports e path symbols name).namings = [] := by
    intro path symbols name hpath hsymbols hname
    refine namings_eq_nil rfl ?_
    exact List.forall_mem_cons.mpr ⟨hpath, List.forall_mem_cons.mpr
      ⟨hsymbols, List.forall_mem_singleton.mpr hname⟩⟩
  have hsingle : ∀ {symbol : Node}, symbol.namings = [] → (list [symbol]).namings = [] :=
    fun hsymbol => namings_eq_nil rfl (List.forall_mem_singleton.mpr hsymbol)
  unfold makeImport at h
  split at h
  case h_1 source =>
    obtain ⟨path, hpath, h⟩ := bind_eq_ok.mp h
    obtain ⟨symbol, hsymbol, h⟩ := bind_eq_ok.mp h
    obtain rfl := pure_eq_ok.mp h
    have hsource := hns source (by simp)
    exact himports (namings_item hpath hsource) (hsingle (namings_item hsymbol hsource)) rfl
  case h_2 source t =>
    obtain ⟨items, hitems, h⟩ := bind_eq_ok.mp h
    obtain ⟨path, hpath, h⟩ := bind_eq_ok.mp h
    obtain ⟨symbol, hsymbol, h⟩ := bind_eq_ok.mp h
    obtain rfl := pure_eq_ok.mp h
    exact himports rfl (hsingle (namings_item hsymbol (hns source (by simp)))) rfl
  case h_3 =>
    obtain ⟨source, hsource, h⟩ := bind_eq_ok.mp h
    obtain ⟨items, hitems, h⟩ := bind_eq_ok.mp h
    obtain ⟨path, hpath, h⟩ := bind_eq_ok.mp h
    obtain ⟨symbols, hsymbols, h⟩ := bind_eq_ok.mp h
    obtain rfl := pure_eq_ok.mp h
    exact himports rfl (hns symbols (mem_of_child hsymbols)) rfl

end Node

/-! ## Phrases without aliases -/

namespace Derivation

def isSilent : Symbol → Bool
  | .terminal _ => true
  | .phrase p =>
    match p with
    | .start | .list | .item | .rule | .term | .override | .extend | .ignore | .expansions
    | .alternatives | .aliasing | .expansion | .exprs | .expr | .atom | .maybe => false
    | _ => true

theorem isSilent_right : ∀ q ∈ Production.all,
    isSilent q.left = true → q.right.all isSilent = true := by
  decide

/-- What a silent phrase makes of nodes in which no names are given is such a node too. -/
theorem namings_ofPhrase {p : Phrase} (hp : isSilent p = true) {c : Node.Conversion}
    (hc : Node.conversionOf p = some c) {e : Option Extent} {ns : List Node} {n : Node}
    (hns : ∀ m ∈ ns, m.namings = []) (hn : c.ofPhrase e ns = .ok n) : n.namings = [] := by
  cases p
  case start | list | item | rule | term | override | extend | ignore | expansions | alternatives
      | aliasing | expansion | exprs | expr | atom | maybe => cases hp
  case templateParamNames | name | symbol | templateArgs | importPath | importArgs | names
      | declareArgs => cases hc
  all_goals cases hc
  case ruleModifiers =>
    simp only [Node.Conversion.ofPhrase] at hn
    split at hn
    · cases hn
      refine Node.namings_eq_nil rfl ?_
      exact List.forall_mem_map.mpr fun c _ => rfl
    · cases hn
      rfl
  case priority =>
    simp only [Node.Conversion.ofPhrase] at hn
    split at hn
    · split at hn <;> cases hn
      rfl
    · cases hn
      rfl
  case templateParams | nameList =>
    simp only [Node.Conversion.ofPhrase] at hn
    split at hn
    · cases hn
      rfl
    · cases hn
      exact Node.namings_eq_nil rfl hns
  case value | terminal | nonterminal | literal => exact hns n (Node.mem_of_child hn)
  case range =>
    obtain ⟨first, _, hn⟩ := bind_eq_ok.mp hn
    obtain ⟨last, _, hn⟩ := bind_eq_ok.mp hn
    obtain rfl := pure_eq_ok.mp hn
    rfl
  case templateUsage =>
    obtain ⟨first, hfirst, hn⟩ := bind_eq_ok.mp hn
    obtain rfl := pure_eq_ok.mp hn
    refine Node.namings_eq_nil rfl (List.forall_mem_cons.mpr ⟨?_, ?_⟩)
    · exact hns first (Node.mem_of_child hfirst)
    · exact fun m hm => hns m (List.mem_of_mem_tail hm)
  case declare =>
    cases hn
    exact Node.namings_eq_nil rfl hns
  case imports => exact Node.namings_makeImport hns hn
  case importLib | importRel =>
    obtain ⟨path, _, hn⟩ := bind_eq_ok.mp hn
    obtain ⟨last, hlast, hn⟩ := bind_eq_ok.mp hn
    obtain rfl := pure_eq_ok.mp hn
    refine Node.namings_eq_nil rfl (List.forall_mem_cons.mpr ⟨rfl, ?_⟩)
    exact List.forall_mem_singleton.mpr (hns last (Node.mem_of_lastChild hlast))
  case comment =>
    cases hn
    refine Node.namings_eq_nil rfl (List.forall_mem_singleton.mpr ?_)
    cases ns with
    | nil => rfl
    | cons m ns => exact hns m List.mem_cons_self

mutual

/-- Nothing that is built from a silent phrase gives a name. -/
theorem namings_of_builds : ∀ d : Derivation, d.Valid → isSilent d.symbol = true →
    ∀ {e : Option Extent} {ns : List Node}, d.Builds e ns → ∀ n ∈ ns, n.namings = []
  | leaf x, _, _, e, ns, h => by
    rw [builds_leaf.mp h]
    split
    · exact List.forall_mem_singleton.mpr rfl
    · nofun
  | node q ds, ⟨hq, hspell, hvalid⟩, hsilent, e, ns, h => by
    have hright := isSilent_right q hq hsilent
    rw [← hspell, List.all_map] at hright
    rcases builds_node_cases h with hall | ⟨n, _, hall⟩ | ⟨parts, n, rfl, hall, hn⟩
    · exact namings_of_buildsAll ds hvalid hright hall
    · exact namings_of_buildsAll ds hvalid hright hall
    · have hparts := namings_of_buildsAll ds hvalid hright hall
      refine List.forall_mem_singleton.mpr ?_
      split at hn
      case h_1 c hc => exact namings_ofPhrase hsilent hc hparts hn
      case h_2 =>
        rw [hn]
        exact Node.namings_eq_nil rfl hparts

theorem namings_of_buildsAll : ∀ ds : List Derivation, AllValid ds →
    ds.all (isSilent ∘ symbol) = true → ∀ {e : Option Extent} {ns : List Node},
    BuildsAll e ds ns → ∀ n ∈ ns, n.namings = []
  | [], _, _, _, _, h => by
    rw [show _ = [] from h]
    nofun
  | d :: ds, ⟨hd, hds⟩, hsilent, _, _, ⟨ms, rest, hms, hrest, heq⟩ => by
    obtain ⟨hfirst, hothers⟩ := Bool.and_eq_true_iff.mp hsilent
    rw [heq]
    exact List.forall_mem_append.mpr
      ⟨namings_of_builds d hd hfirst hms, namings_of_buildsAll ds hds hothers hrest⟩

end

/-! ## Aliases in a derivation -/

def ownAlias (grouped : Bool) : Phrase → List Derivation → List WrittenAlias
  | .aliasing, [body, arrow, name] =>
    [⟨grouped, Lexeme.span (lexemesOfAll [body, arrow, name]),
      name.lexemes.head?.map Lexeme.token⟩]
  | _, _ => []

/-- Whether the alternatives in a phrase stand directly inside a group: those of an atom do, and
lists of alternatives are where their phrase is. -/
def inGroup (grouped : Bool) : Phrase → Bool
  | .atom => true
  | .expansions | .alternatives => grouped
  | _ => false

mutual

/-- The aliases that are written in a derivation, from left to right. -/
def aliases (grouped : Bool) : Derivation → List WrittenAlias
  | leaf _ => []
  | node q ds => ownAlias grouped q.left ds ++ aliasesOf (inGroup grouped q.left) ds

def aliasesOf (grouped : Bool) : List Derivation → List WrittenAlias
  | [] => []
  | d :: ds => aliases grouped d ++ aliasesOf grouped ds

end

end Derivation

/-- The name that is given by an alias: only one directly inside a group is not resolved. -/
def WrittenAlias.naming (a : WrittenAlias) : Node.Naming := ⟨!a.grouped, a.extent, a.name⟩

namespace Derivation

def namings (grouped : Bool) (d : Derivation) : List Node.Naming :=
  (d.aliases grouped).map WrittenAlias.naming

theorem namings_node (grouped : Bool) (q : Production) (ds : List Derivation) :
    (node q ds).namings grouped = (ownAlias grouped q.left ds).map WrittenAlias.naming ++
      ds.flatMap (namings (inGroup grouped q.left)) := by
  have hparts : ∀ g, (aliasesOf g ds).map WrittenAlias.naming = ds.flatMap (namings g) := by
    intro g
    induction ds with
    | nil => rfl
    | cons d ds ih =>
      rw [aliasesOf, List.map_append, ih, List.flatMap_cons]
      rfl
  rw [namings, aliases, List.map_append, hparts]

theorem ownAlias_eq_nil {p : Phrase} (hp : p ≠ .aliasing) (grouped : Bool)
    (ds : List Derivation) : ownAlias grouped p ds = [] := by
  unfold ownAlias
  split
  · exact absurd rfl hp
  · rfl

/-- A phrase that is not an alias gives the names that its parts do. -/
theorem namings_phrase {p : Phrase} (hp : p ≠ .aliasing) (grouped : Bool) (r : List Symbol)
    (ds : List Derivation) :
    (node ⟨p, r⟩ ds).namings grouped = ds.flatMap (namings (inGroup grouped p)) := by
  rw [namings_node, ownAlias_eq_nil hp]
  rfl

mutual

theorem namings_of_silent : ∀ d : Derivation, d.Valid → isSilent d.symbol = true →
    ∀ grouped, d.namings grouped = []
  | leaf _, _, _ => fun _ => rfl
  | node q ds, ⟨hq, hspell, hvalid⟩, hsilent => by
    have hright := isSilent_right q hq hsilent
    rw [← hspell, List.all_map] at hright
    have hne : q.left ≠ .aliasing := by
      intro heq
      rw [symbol, heq] at hsilent
      cases hsilent
    intro grouped
    rw [namings_phrase hne]
    exact List.flatMap_eq_nil_iff.mpr (namings_of_silent_all ds hvalid hright _)

theorem namings_of_silent_all : ∀ ds : List Derivation, AllValid ds →
    ds.all (isSilent ∘ symbol) = true → ∀ grouped, ∀ d ∈ ds, d.namings grouped = []
  | [], _, _ => fun _ => nofun
  | d :: ds, ⟨hd, hds⟩, hsilent => by
    obtain ⟨hfirst, hothers⟩ := Bool.and_eq_true_iff.mp hsilent
    intro grouped
    exact List.forall_mem_cons.mpr ⟨namings_of_silent d hd hfirst grouped,
      namings_of_silent_all ds hds hothers grouped⟩

end

end Derivation

end GrammarServer
