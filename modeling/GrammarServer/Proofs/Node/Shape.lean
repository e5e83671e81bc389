import GrammarServer.Lexeme.Scan
import GrammarServer.Proofs.Node.Built
import GrammarServer.Proofs.Parse.Complete
import GrammarServer.Proofs.Parse.Sound
import GrammarServer.Symbol.Place

/-!
# The shape of a tree

What a tree shows of a derivation is settled by names: a terminal whose name starts with an
underscore is dropped, a phrase whose label does gives its parts to the phrase above it. Of the
others, a transparent phrase with one part stands aside for it, and each of the rest is a tree over
its parts. So the leaves of the tree are the lexemes that are not dropped, in their order.
-/
namespace GrammarServer

def isHidden (name : String) : Bool := name.toList.head? == some '_'

theorem Phrase.isSpliced_eq_isHidden (p : Phrase) : p.isSpliced = isHidden p.label := by
  cases p <;> decide

namespace Terminal

def occurs (t : Terminal) : Bool := Production.all.any fun q => q.right.contains (.terminal t)

theorem occurs_of_mem {q : Production} (hq : q ∈ Production.all) {t : Terminal}
    (ht : .terminal t ∈ q.right) : t.occurs = true := by
  rw [occurs, List.any_eq_true]
  exact ⟨q, hq, by simpa using ht⟩

theorem isKept_eq_not_isHidden {t : Terminal} (h : t.occurs = true) :
    t.isKept = !isHidden t.name := by
  revert h
  cases t <;> decide +kernel

end Terminal

namespace Derivation

mutual

/-- The nodes that a derivation gives to the phrase above it. Nothing is said about where trees
start and end. -/
inductive Shape : Derivation → List Node → Prop
  | kept {x : Lexeme} (h : isHidden x.terminal.name = false) : Shape (.leaf x) [.token x.token]
  | dropped {x : Lexeme} (h : isHidden x.terminal.name = true) : Shape (.leaf x) []
  | spliced {q : Production} {ds : List Derivation} {ns : List Node}
      (h : isHidden q.left.label = true) (parts : ShapeAll ds ns) : Shape (.node q ds) ns
  | aside {q : Production} {ds : List Derivation} {n : Node}
      (h : isHidden q.left.label = false) (transparent : q.left.isTransparent = true)
      (parts : ShapeAll ds [n]) : Shape (.node q ds) [n]
  | tree {q : Production} {ds : List Derivation} {ns : List Node} (e : Option Extent)
      (h : isHidden q.left.label = false)
      (many : q.left.isTransparent = true → ns.length ≠ 1) (parts : ShapeAll ds ns) :
      Shape (.node q ds) [.tree q.left.label e ns]

inductive ShapeAll : List Derivation → List Node → Prop
  | nil : ShapeAll [] []
  | cons {d : Derivation} {ds : List Derivation} {ms ns : List Node} (first : Shape d ms)
      (rest : ShapeAll ds ns) : ShapeAll (d :: ds) (ms ++ ns)

end

/-- A leaf below a production is one of the terminals of the grammar. -/
def IsLexical (d : Derivation) : Prop := ∀ t, d.symbol = .terminal t → t.occurs = true

theorem isLexical_of_mem {q : Production} {ds : List Derivation} (hq : q ∈ Production.all)
    (hspell : ds.map symbol = q.right) : ∀ d ∈ ds, d.IsLexical := by
  intro d hd t ht
  apply Terminal.occurs_of_mem hq
  rw [← hspell, ← ht]
  exact List.mem_map_of_mem hd

/-! ## The tree of a derivation has its shape -/

mutual

theorem shape_nodes : ∀ d : Derivation, d.Valid → d.IsLexical → ∀ e : Option Extent,
    d.Shape ((Shaped.ofDerivation d).nodes.map (Shaped.placed e))
  | .leaf x, _, hlexical, e => by
    have hkept := Terminal.isKept_eq_not_isHidden (hlexical x.terminal rfl)
    rw [Shaped.ofDerivation, Shaped.ofLexeme, hkept]
    cases hx : isHidden x.terminal.name with
    | false => exact .kept hx
    | true => exact .dropped hx
  | .node q ds, ⟨hq, hspell, hvalid⟩, _, e => by
    have hparts := shapeAll_nodes ds hvalid (isLexical_of_mem hq hspell)
    rw [Shaped.ofDerivation, Shaped.ofParts]
    split
    case isTrue h => exact .spliced (q.left.isSpliced_eq_isHidden ▸ h) (hparts e)
    case isFalse h =>
      rw [q.left.isSpliced_eq_isHidden, Bool.not_eq_true] at h
      split
      · -- the extent of the phrase that stands aside goes to the part that it has
        rename_i n htransparent hn
        have hone := hparts (hull ds <|> e)
        rw [hn] at hone
        rw [List.map_cons, List.map_nil, Shaped.placed_placed]
        exact .aside h htransparent hone
      · rename_i hmany
        have hown := hparts none
        rw [Shaped.map_placed_none] at hown
        refine .tree _ h ?_ hown
        intro htransparent hlength
        obtain ⟨n, hn⟩ := List.length_eq_one_iff.mp hlength
        exact hmany n htransparent hn

theorem shapeAll_nodes : ∀ ds : List Derivation, AllValid ds → (∀ d ∈ ds, d.IsLexical) →
    ∀ e : Option Extent,
      ShapeAll ds (((Shaped.ofDerivations ds).flatMap (·.nodes)).map (Shaped.placed e))
  | [], _, _, _ => .nil
  | d :: ds, ⟨hd, hds⟩, hlexical, e => by
    rw [Shaped.ofDerivations, List.flatMap_cons, List.map_append]
    exact .cons (shape_nodes d hd (hlexical d List.mem_cons_self) e)
      (shapeAll_nodes ds hds (fun d' hd' => hlexical d' (List.mem_cons_of_mem d hd')) e)

end

theorem nodes_eq_tree {d : Derivation} (hstart : d.symbol = .phrase .start) :
    (Shaped.ofDerivation d).nodes = [d.tree] := by
  have hlength := length_nodes (d := d) (by rw [hstart]; rfl)
  rw [hstart] at hlength
  obtain ⟨n, hn⟩ := List.length_eq_one_iff.mp hlength
  rw [tree, hn]

theorem shape_tree {d : Derivation} (hvalid : d.Valid) (hstart : d.symbol = .phrase .start) :
    d.Shape [d.tree] := by
  have hlexical : d.IsLexical := by
    intro t ht
    rw [hstart] at ht
    cases ht
  have hshape := shape_nodes d hvalid hlexical none
  rwa [Shaped.map_placed_none, nodes_eq_tree hstart] at hshape

/-! ## Leaves -/

def keptTokens (xs : List Lexeme) : List Token :=
  (xs.filter fun x => x.terminal.isKept).map Lexeme.token

theorem keptTokens_append (xs ys : List Lexeme) :
    keptTokens (xs ++ ys) = keptTokens xs ++ keptTokens ys := by
  rw [keptTokens, List.filter_append, List.map_append, keptTokens, keptTokens]

theorem tokensOfAll_append (ns ms : List Node) :
    Range.tokensOfAll (ns ++ ms) = Range.tokensOfAll ns ++ Range.tokensOfAll ms := by
  induction ns with
  | nil => rfl
  | cons n ns ih => rw [List.cons_append, Range.tokensOfAll, ih, Range.tokensOfAll,
      List.append_assoc]

mutual

theorem tokensOfAll_of_shape : ∀ (d : Derivation) {ns : List Node}, d.Valid → d.IsLexical →
    d.Shape ns → Range.tokensOfAll ns = keptTokens d.lexemes
  | .leaf x, ns, _, hlexical, hshape => by
    have hkept := Terminal.isKept_eq_not_isHidden (hlexical x.terminal rfl)
    cases hshape with
    | kept h => simp [Range.tokensOfAll, Range.tokensOf, lexemes, keptTokens, hkept, h]
    | dropped h => simp [Range.tokensOfAll, lexemes, keptTokens, hkept, h]
  | .node q ds, ns, ⟨hq, hspell, hvalid⟩, _, hshape => by
    have hlexical := isLexical_of_mem hq hspell
    rw [lexemes]
    cases hshape with
    | spliced h parts => exact tokensOfAll_of_shapeAll ds hvalid hlexical parts
    | aside h transparent parts => exact tokensOfAll_of_shapeAll ds hvalid hlexical parts
    | tree e h many parts =>
      rw [Range.tokensOfAll, Range.tokensOf, Range.tokensOfAll, List.append_nil,
        tokensOfAll_of_shapeAll ds hvalid hlexical parts]

theorem tokensOfAll_of_shapeAll : ∀ (ds : List Derivation) {ns : List Node}, AllValid ds →
    (∀ d ∈ ds, d.IsLexical) → ShapeAll ds ns →
    Range.tokensOfAll ns = keptTokens (lexemesOfAll ds)
  | [], _, _, _, .nil => rfl
  | d :: ds, _, ⟨hd, hds⟩, hlexical, .cons first rest => by
    rw [tokensOfAll_append, lexemesOfAll, keptTokens_append,
      tokensOfAll_of_shape d hd (hlexical d List.mem_cons_self) first,
      tokensOfAll_of_shapeAll ds hds (fun d' hd' => hlexical d' (List.mem_cons_of_mem d hd')) rest]

end

theorem tokensOf_tree {d : Derivation} (hvalid : d.Valid) (hstart : d.symbol = .phrase .start) :
    Range.tokensOf d.tree = keptTokens d.lexemes := by
  have hlexical : d.IsLexical := by
    intro t ht
    rw [hstart] at ht
    cases ht
  have htokens := tokensOfAll_of_shape d hvalid hlexical (shape_tree hvalid hstart)
  rwa [Range.tokensOfAll, Range.tokensOfAll, List.append_nil] at htokens

end Derivation

/-! ## What the strict parser returns -/

/-- Reading goes through when every piece that is not skipped is a lexeme. -/
theorem Lexeme.scanPieces_eq_iff (source : List Char) (ps : List Piece) :
    ∀ (previous : Option Lexeme) (xs : List Lexeme),
      scanPieces source false previous ps = (xs, none) ↔
        ps.filter Piece.isSignificant = xs.map .lexeme := by
  induction ps with
  | nil =>
    intro previous xs
    simp [scanPieces, eq_comm]
  | cons p ps ih =>
    intro previous xs
    cases p with
    | stray c m => cases xs <;> simp [scanPieces, List.filter_cons, Piece.isSignificant]
    | lexeme x =>
      rw [scanPieces, List.filter_cons, Piece.isSignificant]
      cases hx : x.terminal.isSkipped with
      | true => simpa using ih previous xs
      | false =>
        cases xs with
        | nil => simp
        | cons y ys =>
          have hrest := ih (some x) ys
          simp only [Bool.false_or, Bool.not_false, if_true, List.map_cons, List.cons.injEq,
            Prod.mk.injEq, Piece.lexeme.injEq, ← hrest]
          grind

theorem Lexeme.scan_eq_iff {source : String} {xs : List Lexeme} :
    scan false source = (xs, none) ↔
      (Piece.ofSource source).filter Piece.isSignificant = xs.map .lexeme :=
  scanPieces_eq_iff source.toList _ none xs

/-- What the strict parser returns is a derivation of a whole file over the lexemes of the source.
Its tree has the same shape, and the kept lexemes as its leaves. -/
theorem Parse.tree_of_strict {source : String} {d : Derivation} (h : strict source = .ok d) :
    d.Valid ∧ d.symbol = .phrase .start ∧ Lexeme.scan false source = (d.lexemes, none) ∧
      d.Shape [d.tree] ∧
      Range.tokensOf d.tree = ((Lexeme.scan false source).1.filter fun x =>
        x.terminal.isKept).map Lexeme.token := by
  obtain ⟨hvalid, hstart, hpieces⟩ := valid_of_strict h
  have hscan := Lexeme.scan_eq_iff.mpr hpieces
  refine ⟨hvalid, hstart, hscan, Derivation.shape_tree hvalid hstart, ?_⟩
  rw [hscan]
  exact Derivation.tokensOf_tree hvalid hstart

open GrammarServer.Derivation in
/-- The derivation of `%declare A b // c`, where a blank and a comment follow the names. -/
def declaration : Derivation :=
  ofItems
    (ofParts .declare [
      ofWord .declareWord ⟨0, 1, 1⟩ "%declare",
      ofParts .declareArgs [
        ofParts .declareArgs [ofParts .symbol [ofParts .terminal [
          ofWord .terminalName ⟨9, 1, 10⟩ "A"]]],
        ofParts .symbol [ofParts .nonterminal [ofWord .ruleName ⟨11, 1, 12⟩ "b"]]]])
    [ofParts .comment [ofWord .comment ⟨13, 1, 14⟩ "// c"]]

theorem Parse.tree_of_strict_declaration :
    strict "%declare A b // c" = .ok declaration ∧ declaration.Shape [declaration.tree] ∧
      (Range.tokensOf declaration.tree).map Token.text = ["A", "b", "// c"] := by
  have hparse : strict "%declare A b // c" = .ok declaration :=
    strict_of_settled (by decide) rfl (by decide) (by decide +kernel)
  obtain ⟨_, _, hscan, hshape, htokens⟩ := tree_of_strict hparse
  refine ⟨hparse, hshape, ?_⟩
  rw [htokens, hscan]
  decide

end GrammarServer
