import GrammarServer.Node.Build

/-!
# What is built from a derivation

The nodes that a derivation gives to the phrase above it are made from those of its children. A
spliced phrase hands them on. So does a transparent phrase with one of them, which only lends them
its extent. Every other phrase makes a single node, as its label calls for.
-/
namespace GrammarServer

theorem bind_eq_ok {α β : Type} {x : Except Fault α} {f : α → Except Fault β} {b : β} :
    (x >>= f) = .ok b ↔ ∃ a, x = .ok a ∧ f a = .ok b := by
  cases x with
  | ok a => exact ⟨fun h => ⟨a, rfl, h⟩, fun ⟨_, ha, h⟩ => Except.ok.inj ha ▸ h⟩
  | error e => exact ⟨(nomatch ·), fun ⟨_, ha, _⟩ => nomatch ha⟩

theorem pure_eq_ok {α : Type} {a b : α} : (pure a : Except Fault α) = .ok b ↔ b = a :=
  ⟨fun h => (Except.ok.inj h).symm, fun h => h ▸ rfl⟩

theorem mapM_cons_eq_ok {α β : Type} {f : α → Except Fault β} {a : α} {as : List α}
    {out : List β} : (a :: as).mapM f = .ok out ↔
      ∃ b bs, f a = .ok b ∧ as.mapM f = .ok bs ∧ out = b :: bs := by
  rw [List.mapM_cons, bind_eq_ok]
  simp only [bind_eq_ok, pure_eq_ok]
  grind

theorem exists_of_mem_mapM {α β : Type} {f : α → Except Fault β} {as : List α} {bs : List β}
    {b : β} (h : as.mapM f = .ok bs) (hb : b ∈ bs) : ∃ a ∈ as, f a = .ok b := by
  induction as generalizing bs with
  | nil =>
    cases h
    cases hb
  | cons a as ih =>
    obtain ⟨b', bs', hb', hbs', rfl⟩ := mapM_cons_eq_ok.mp h
    rcases List.mem_cons.mp hb with rfl | hb
    · exact ⟨a, List.mem_cons_self, hb'⟩
    · obtain ⟨a', ha', hfa'⟩ := ih hbs' hb
      exact ⟨a', List.mem_cons_of_mem a ha', hfa'⟩

namespace Node

theorem buildAll_nil_eq_ok {out : List Node} : buildAll [] = .ok out ↔ out = [] :=
  pure_eq_ok

theorem buildAll_cons_eq_ok {n : Node} {ns out : List Node} :
    buildAll (n :: ns) = .ok out ↔
      ∃ m ms, n.build = .ok m ∧ buildAll ns = .ok ms ∧ out = m :: ms := by
  rw [buildAll, bind_eq_ok]
  simp only [bind_eq_ok, pure_eq_ok]
  grind

theorem buildAll_append_eq_ok {ns ms out : List Node} :
    buildAll (ns ++ ms) = .ok out ↔
      ∃ a b, buildAll ns = .ok a ∧ buildAll ms = .ok b ∧ out = a ++ b := by
  induction ns generalizing out with
  | nil => simp [buildAll_nil_eq_ok]
  | cons n ns ih =>
    simp only [List.cons_append, buildAll_cons_eq_ok, ih]
    grind

theorem length_of_buildAll {ns out : List Node} (h : buildAll ns = .ok out) :
    out.length = ns.length := by
  induction ns generalizing out with
  | nil => rw [buildAll_nil_eq_ok.mp h]
  | cons n ns ih =>
    obtain ⟨m, ms, _, hms, rfl⟩ := buildAll_cons_eq_ok.mp h
    rw [List.length_cons, List.length_cons, ih hms]

def conversionOf : Phrase → Option Conversion
  | .start => some (.form .file)
  | .rule => some (.form .rule)
  | .ruleModifiers => some .signs
  | .priority => some .integer
  | .templateParams | .nameList => some .listing
  | .expansions => some .children
  | .aliasing => some (.form .aliasing)
  | .expansion => some (.form .expansion)
  | .expr => some (.form .expr)
  | .value | .terminal | .nonterminal | .literal => some .first
  | .maybe => some (.form .maybe)
  | .range => some (.form .range)
  | .templateUsage => some (.form .templateUsage)
  | .term => some (.form .term)
  | .override => some (.form .override)
  | .extend => some (.form .extend)
  | .ignore => some (.form .ignore)
  | .declare => some (.form .declare)
  | .imports => some (.form .imports)
  | .importLib => some (.source "")
  | .importRel => some (.source ".")
  | .comment => some (.form .comment)
  | _ => none

theorem ofLabel?_label (p : Phrase) : Conversion.ofLabel? p.label = conversionOf p := by
  cases p <;> rfl

theorem inPhrase_eq_ok {label : String} {r : Except Fault Node} {n : Node} :
    inPhrase label r = .ok n ↔ r = .ok n := by
  cases r with
  | ok m => rfl
  | error f => simp [inPhrase]

theorem buildToken_token (x : Lexeme) : buildToken x.token = .ok (.token x.token) := by
  obtain ⟨t, text, start, stop⟩ := x
  cases t <;> rfl

end Node

namespace Shaped

theorem placed_none (n : Node) : placed none n = n := by
  cases n <;> simp [placed]

theorem map_placed_none (ns : List Node) : ns.map (placed none) = ns := by
  rw [List.map_congr_left fun n _ => placed_none n, List.map_id']

theorem placed_placed (e e' : Option Extent) (n : Node) :
    placed e (placed e' n) = placed (e' <|> e) n := by
  cases n <;> simp [placed, Option.or_assoc]

end Shaped

namespace Derivation

/-- The nodes that a derivation gives to the phrase above it, which lends them an extent, are built
into these. -/
def Builds (e : Option Extent) (d : Derivation) (ns : List Node) : Prop :=
  Node.buildAll ((Shaped.ofDerivation d).nodes.map (Shaped.placed e)) = .ok ns

def BuildsAll (e : Option Extent) : List Derivation → List Node → Prop
  | [], ns => ns = []
  | d :: ds, ns => ∃ ms rest, d.Builds e ms ∧ BuildsAll e ds rest ∧ ns = ms ++ rest

theorem buildsAll_iff {e : Option Extent} {ds : List Derivation} {ns : List Node} :
    BuildsAll e ds ns ↔ Node.buildAll
      (((Shaped.ofDerivations ds).flatMap (·.nodes)).map (Shaped.placed e)) = .ok ns := by
  induction ds generalizing ns with
  | nil => rw [BuildsAll, ← Node.buildAll_nil_eq_ok]; rfl
  | cons d ds ih =>
    rw [Shaped.ofDerivations, List.flatMap_cons, List.map_append, Node.buildAll_append_eq_ok]
    simp only [BuildsAll, ih]
    exact Iff.rfl

def hull (ds : List Derivation) : Option Extent :=
  Extent.hull ((Shaped.ofDerivations ds).map (·.extent))

theorem builds_leaf {e : Option Extent} {x : Lexeme} {ns : List Node} :
    (leaf x).Builds e ns ↔ ns = if x.terminal.isKept then [.token x.token] else [] := by
  rw [Builds, Shaped.ofDerivation, Shaped.ofLexeme]
  split
  · simp only [List.map_cons, List.map_nil, Shaped.placed, Node.buildAll_cons_eq_ok,
      Node.buildAll_nil_eq_ok, Node.build, Node.buildToken_token, Except.ok.injEq]
    grind
  · exact Node.buildAll_nil_eq_ok

theorem builds_spliced {e : Option Extent} {q : Production} {ds : List Derivation}
    {ns : List Node} (h : q.left.isSpliced = true) :
    (node q ds).Builds e ns ↔ BuildsAll e ds ns := by
  rw [Builds, Shaped.ofDerivation, Shaped.ofParts, if_pos h, buildsAll_iff]

/-- How many nodes a symbol gives to the phrase above it, if it is not spliced. -/
def giving : Symbol → Nat
  | .terminal t => if t.isKept then 1 else 0
  | .phrase _ => 1

def givenBy : List Symbol → Nat
  | [] => 0
  | s :: r => giving s + givenBy r

def isWhole : Symbol → Bool
  | .terminal _ => true
  | .phrase p => !p.isSpliced

theorem length_nodes {d : Derivation} (h : isWhole d.symbol = true) :
    (Shaped.ofDerivation d).nodes.length = giving d.symbol := by
  cases d with
  | leaf x =>
    rw [Shaped.ofDerivation, Shaped.ofLexeme, symbol, giving]
    split <;> rfl
  | node q ds =>
    have hp : q.left.isSpliced = false := by simpa [symbol, isWhole] using h
    rw [Shaped.ofDerivation, Shaped.ofParts, if_neg (by simp [hp]), symbol, giving]
    split <;> rfl

theorem length_nodes_all (ds : List Derivation) (h : (ds.map symbol).all isWhole = true) :
    ((Shaped.ofDerivations ds).flatMap (·.nodes)).length = givenBy (ds.map symbol) := by
  induction ds with
  | nil => rfl
  | cons d ds ih =>
    rw [List.map_cons, List.all_cons, Bool.and_eq_true] at h
    rw [Shaped.ofDerivations, List.flatMap_cons, List.length_append, length_nodes h.1, ih h.2]
    rfl

/-- A transparent phrase with a single node lends it its extent. -/
theorem builds_single {e : Option Extent} {q : Production} {ds : List Derivation}
    {ns : List Node} (hspell : ds.map symbol = q.right) (hq : q.left.isSpliced = false)
    (htransparent : q.left.isTransparent = true) (hwhole : q.right.all isWhole = true)
    (hone : givenBy q.right = 1) :
    (node q ds).Builds e ns ↔ BuildsAll (hull ds <|> e) ds ns := by
  have hlength := length_nodes_all ds (by rw [hspell]; exact hwhole)
  rw [hspell, hone] at hlength
  obtain ⟨n, hn⟩ := List.length_eq_one_iff.mp hlength
  rw [Builds, Shaped.ofDerivation, Shaped.ofParts, if_neg (by simp [hq]), buildsAll_iff, hn,
    htransparent]
  simp only [List.map_cons, List.map_nil, Shaped.placed_placed]
  exact Iff.rfl

/-- A phrase that does not stand aside makes a node of its own. -/
theorem builds_node {e : Option Extent} {q : Production} {ds : List Derivation}
    {ns : List Node} {c : Node.Conversion} (hspell : ds.map symbol = q.right)
    (hq : q.left.isSpliced = false)
    (hmany : q.left.isTransparent = true →
      q.right.all isWhole = true ∧ givenBy q.right ≠ 1)
    (hc : Node.conversionOf q.left = some c) :
    (node q ds).Builds e ns ↔
      ∃ parts n, BuildsAll none ds parts ∧ c.ofPhrase (hull ds <|> e) parts = .ok n ∧
        ns = [n] := by
  have hshape : (Shaped.ofDerivation (node q ds)).nodes =
      [.tree q.left.label (hull ds) ((Shaped.ofDerivations ds).flatMap (·.nodes))] := by
    rw [Shaped.ofDerivation, Shaped.ofParts, if_neg (by simp [hq])]
    split
    · rename_i n htransparent hn
      obtain ⟨hwhole, hsum⟩ := hmany htransparent
      have hlength := length_nodes_all ds (by rw [hspell]; exact hwhole)
      rw [hn, hspell] at hlength
      exact absurd hlength.symm hsum
    · rfl
  rw [Builds, hshape]
  simp only [List.map_cons, List.map_nil, Shaped.placed, Node.buildAll_cons_eq_ok,
    Node.buildAll_nil_eq_ok, Node.build, bind_eq_ok, Node.ofLabel?_label, hc,
    Node.inPhrase_eq_ok, buildsAll_iff, Shaped.map_placed_none]
  constructor
  · rintro ⟨n, _, ⟨parts, hparts, hn⟩, rfl, rfl⟩
    exact ⟨parts, n, hparts, hn, rfl⟩
  · rintro ⟨parts, n, hparts, hn, rfl⟩
    exact ⟨n, [], ⟨parts, hparts, hn⟩, rfl, rfl⟩

/-- The tree of a derivation of a whole file is the single node that it gives. -/
theorem build_tree_eq_ok {d : Derivation} (hstart : d.symbol = .phrase .start) {n : Node} :
    d.tree.build = .ok n ↔ d.Builds none [n] := by
  have hlength := length_nodes (d := d) (by rw [hstart]; rfl)
  rw [hstart] at hlength
  obtain ⟨m, hm⟩ := List.length_eq_one_iff.mp hlength
  rw [tree, Builds, Shaped.map_placed_none, hm, Node.buildAll_cons_eq_ok]
  constructor
  · intro h
    exact ⟨n, [], h, rfl, rfl⟩
  · rintro ⟨_, _, h, hnil, heq⟩
    rw [Node.buildAll_nil_eq_ok.mp hnil] at heq
    rwa [List.cons.inj heq |>.1]

end Derivation

end GrammarServer
