import GrammarServer.Proofs.Node.Unplaced
import GrammarServer.Proofs.Parse.Alike
import GrammarServer.Proofs.Typed.Total

/-!
# Derivations that differ in their layout alone

From two derivations with the same gist the same is built, but for the places that it takes. For a
phrase is treated according to its name and to the number of nodes that its parts give, and what is
up to the layout gives no node.
-/
namespace GrammarServer

open Node (unplaced conversionOf)

/-! ## Words -/

namespace Terminal

theorem gist_eq_self {t : Terminal} (h : t.isLoose = false) : t.gist = t := by
  cases t <;> first | rfl | cases h

theorem isLoose_gist (t : Terminal) : t.gist.isLoose = t.isLoose := by
  cases t <;> rfl

theorem isKept_gist (t : Terminal) : t.gist.isKept = t.isKept := by
  cases t <;> rfl

theorem isLoose_of_isKept {t : Terminal} (h : t.isKept = true) : t.isLoose = false := by
  cases t <;> first | rfl | cases h

end Terminal

/-- A lexeme that gives a node is known from its gist, but for its place. -/
theorem Lexeme.unplaced_token_of_gist {x y : Lexeme} (h : y.gist = x.gist)
    (hkept : x.terminal.isKept = true) :
    (Node.token y.token).unplaced = (Node.token x.token).unplaced := by
  have hx := Terminal.isLoose_of_isKept hkept
  have hterminal : y.terminal.gist = x.terminal.gist := congrArg Lexeme.terminal h
  have hy : y.terminal.isLoose = false := by
    rw [← Terminal.isLoose_gist, hterminal, Terminal.isLoose_gist, hx]
  have htext : y.gist.text = x.gist.text := congrArg Lexeme.text h
  rw [Terminal.gist_eq_self hx, Terminal.gist_eq_self hy] at hterminal
  simp only [gist, hx, hy, Bool.false_eq_true, if_false] at htext
  simp only [unplaced, Node.unplacedToken, token, hterminal, htext]

/-! ## Phrases -/

namespace Derivation

theorem giving_gist (s : Symbol) : giving s.gist = giving s := by
  cases s with
  | terminal t => exact congrArg (fun kept => if kept then 1 else 0) t.isKept_gist
  | phrase p => rfl

theorem givenBy_gist (r : List Symbol) : givenBy (r.map Symbol.gist) = givenBy r := by
  induction r with
  | nil => rfl
  | cons s r ih => rw [List.map_cons, givenBy, giving_gist, ih, givenBy]

theorem all_isWhole_gist (r : List Symbol) :
    (r.map Symbol.gist).all isWhole = r.all isWhole := by
  rw [List.all_map]
  congr 1
  funext s
  cases s <;> rfl

/-- Words on their own give tokens. -/
theorem isToken_of_leaves {e : Option Extent} {ds : List Derivation} {ns : List Node}
    (h : BuildsAll e ds ns) (hleaves : ∀ d ∈ ds, ∃ x, d = leaf x) :
    ∀ n ∈ ns.map unplaced, n.isToken = true := by
  induction ds generalizing ns with
  | nil =>
    rw [show ns = [] from h]
    exact fun _ hn => nomatch hn
  | cons d ds ih =>
    obtain ⟨ms, rest, hms, hrest, rfl⟩ := h
    obtain ⟨⟨x, rfl⟩, hds⟩ := List.forall_mem_cons.mp hleaves
    rw [List.map_append]
    refine List.forall_mem_append.mpr ⟨?_, ih hrest hds⟩
    rw [builds_leaf.mp hms]
    split
    · exact List.forall_mem_singleton.mpr rfl
    · exact fun _ hn => nomatch hn

theorem right_of_range : ∀ q ∈ Production.all, q.left = .range →
    q.right = [.terminal .string, .terminal .dotDot, .terminal .string] := by
  decide +kernel

theorem isToken_of_range {q : Production} {ds : List Derivation} {e : Option Extent}
    {ns : List Node} (hq : q ∈ Production.all) (hspell : ds.map symbol = q.right)
    (h : BuildsAll e ds ns) (hc : conversionOf q.left = some (.form .range)) :
    ∀ n ∈ ns.map unplaced, n.isToken = true := by
  have hleft : q.left = .range := by
    revert hc
    cases q.left <;> intro hc <;> first | rfl | cases hc
  refine isToken_of_leaves h fun d hd => ?_
  have hsymbol : d.symbol ∈ q.right := hspell ▸ List.mem_map_of_mem hd
  rw [right_of_range q hq hleft] at hsymbol
  cases d with
  | leaf x => exact ⟨x, rfl⟩
  | node q ds => simp [symbol] at hsymbol

/-! ## Whole derivations -/

/-- What is built from the first derivation is also built from the second, in other places. -/
def Rebuilds (d d' : Derivation) : Prop := ∀ (e e' : Option Extent) (ns : List Node),
  d.Builds e ns → ∃ ms, d'.Builds e' ms ∧ ms.map unplaced = ns.map unplaced

def RebuildsAll (ds ds' : List Derivation) : Prop := ∀ (e e' : Option Extent) (ns : List Node),
  BuildsAll e ds ns → ∃ ms, BuildsAll e' ds' ms ∧ ms.map unplaced = ns.map unplaced

theorem rebuilds_leaf {x y : Lexeme} (h : y.gist = x.gist) : Rebuilds (leaf x) (leaf y) := by
  intro e e' ns hns
  have hkept : y.terminal.isKept = x.terminal.isKept := by
    rw [← y.terminal.isKept_gist, ← x.terminal.isKept_gist]
    exact congrArg (fun z => z.terminal.isKept) h
  refine ⟨_, builds_leaf.mpr rfl, ?_⟩
  rw [builds_leaf.mp hns, hkept]
  split
  · rename_i hx
    exact congrArg (fun n => [n]) (Lexeme.unplaced_token_of_gist h hx)
  · rfl

/-- A phrase does with its parts what another one does that has the same name and as many parts. -/
theorem rebuilds_node {q q' : Production} {ds ds' : List Derivation} (hq : q ∈ Production.all)
    (hspell : ds.map symbol = q.right) (hspell' : ds'.map symbol = q'.right)
    (hleft : q'.left = q.left) (hright : q'.right.map Symbol.gist = q.right.map Symbol.gist)
    (h : RebuildsAll ds ds') : Rebuilds (node q ds) (node q' ds') := by
  intro e e' ns hns
  have hgiven : givenBy q'.right = givenBy q.right := by
    rw [← givenBy_gist, hright, givenBy_gist]
  have hwholes : q'.right.all isWhole = q.right.all isWhole := by
    rw [← all_isWhole_gist, hright, all_isWhole_gist]
  rcases Typed.phrase_cases q hq with hspliced | ⟨hwhole, htransparent, hall, hone⟩ |
    ⟨hwhole, hconverts, hmany⟩
  · obtain ⟨ms, hms, hsame⟩ := h e e' ns ((builds_spliced hspliced).mp hns)
    exact ⟨ms, (builds_spliced (hleft ▸ hspliced)).mpr hms, hsame⟩
  · have hparts := (builds_single hspell hwhole htransparent hall hone).mp hns
    obtain ⟨ms, hms, hsame⟩ := h _ (hull ds' <|> e') ns hparts
    refine ⟨ms, ?_, hsame⟩
    exact (builds_single hspell' (hleft ▸ hwhole) (hleft ▸ htransparent) (hwholes ▸ hall)
      (hgiven ▸ hone)).mpr hms
  · obtain ⟨c, hc⟩ := Option.isSome_iff_exists.mp hconverts
    obtain ⟨parts, n, hparts, hn, rfl⟩ := (builds_node hspell hwhole hmany hc).mp hns
    obtain ⟨parts', hparts', hsame⟩ := h none none parts hparts
    have hmade := Node.ofPhrase_congr (c := c) (hull ds <|> e) (hull ds' <|> e') hsame
      fun hrange => isToken_of_range hq hspell hparts (hrange ▸ hc)
    rw [hn] at hmade
    obtain ⟨n', hn', hsame'⟩ := exists_of_map_eq_ok hmade
    have hmany' : q'.left.isTransparent = true →
        q'.right.all isWhole = true ∧ givenBy q'.right ≠ 1 := by
      rw [hleft, hwholes, hgiven]
      exact hmany
    refine ⟨[n'], ?_, congrArg (fun m => [m]) hsame'⟩
    exact (builds_node hspell' (hleft ▸ hwhole) hmany' (hleft ▸ hc)).mpr
      ⟨parts', n', hparts', hn', rfl⟩

theorem rebuildsAll_cons {d d' : Derivation} {ds ds' : List Derivation} (hfirst : Rebuilds d d')
    (hrest : RebuildsAll ds ds') : RebuildsAll (d :: ds) (d' :: ds') := by
  rintro e e' _ ⟨ns, rest, hns, hbuilt, rfl⟩
  obtain ⟨ms, hms, hsame⟩ := hfirst e e' ns hns
  obtain ⟨rest', hbuilt', hsame'⟩ := hrest e e' rest hbuilt
  refine ⟨ms ++ rest', ⟨ms, rest', hms, hbuilt', rfl⟩, ?_⟩
  rw [List.map_append, hsame, hsame', List.map_append]

mutual

/-- What is built from a derivation is up to its gist. -/
theorem rebuilds_of_gist : ∀ d d' : Derivation, d.Valid → d'.Valid → d'.gist = d.gist →
    Rebuilds d d'
  | leaf x, d', _, _, h => by
    cases d' with
    | node q' ds' => cases h
    | leaf y => exact rebuilds_leaf (Derivation.leaf.inj h)
  | node q ds, d', ⟨hq, hspell, hds⟩, hvalid', h => by
    cases d' with
    | leaf y => cases h
    | node q' ds' =>
      obtain ⟨_, hspell', hds'⟩ := hvalid'
      obtain ⟨hproduction, hparts⟩ := Derivation.node.inj h
      obtain ⟨hleft, hright⟩ := Production.mk.inj hproduction
      have hall := rebuildsAll_of_gist ds ds' hds hds' hparts
      exact rebuilds_node hq hspell hspell' hleft hright hall

theorem rebuildsAll_of_gist : ∀ ds ds' : List Derivation, AllValid ds → AllValid ds' →
    gistAll ds' = gistAll ds → RebuildsAll ds ds'
  | [], ds', _, _, h => by
    cases ds' with
    | nil => exact fun e e' ns hns => ⟨[], rfl, by rw [show ns = [] from hns]⟩
    | cons d' ds' => cases h
  | d :: ds, ds', ⟨hd, hds⟩, hvalid', h => by
    cases ds' with
    | nil => cases h
    | cons d' ds' =>
      obtain ⟨hfirst, hrest⟩ := List.cons.inj h
      exact rebuildsAll_cons (rebuilds_of_gist d d' hd hvalid'.1 hfirst)
        (rebuildsAll_of_gist ds ds' hds hvalid'.2 hrest)

end

/-- Files that are built from derivations with the same gist say the same. -/
theorem exists_build_of_gist {d d' : Derivation} (hvalid : d.Valid) (hvalid' : d'.Valid)
    (hstart : d.symbol = .phrase .start) (hstart' : d'.symbol = .phrase .start)
    (h : d'.gist = d.gist) {file : Node} (hbuild : d.tree.build = .ok file) :
    ∃ file', d'.tree.build = .ok file' ∧ file'.unplaced = file.unplaced := by
  obtain ⟨ms, hms, hsame⟩ := rebuilds_of_gist d d' hvalid hvalid' h none none [file]
    ((build_tree_eq_ok hstart).mp hbuild)
  obtain ⟨file', rfl⟩ : ∃ file', ms = [file'] := by
    apply List.length_eq_one_iff.mp
    rw [← List.length_map, hsame]
    rfl
  exact ⟨file', (build_tree_eq_ok hstart').mpr hms, (List.cons.inj hsame).1⟩

end Derivation

end GrammarServer
