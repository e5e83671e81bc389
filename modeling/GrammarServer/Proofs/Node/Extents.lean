import GrammarServer.Proofs.Node.Nested

/-!
# Extents of what is built

Seen from above, a derivation covers the text from the start of its first lexeme to the end of its
last. So the nodes that are built from lexemes in their order are nested, and those that one
derivation gives to the phrase above it follow one another.
-/
namespace GrammarServer

namespace Extent

def join : Option Extent → Option Extent → Option Extent
  | none, f => f
  | some e, none => some e
  | some e, some f => some ⟨e.line, e.column, f.endLine, f.endColumn⟩

theorem join_assoc (e f g : Option Extent) : join (join e f) g = join e (join f g) := by
  cases e <;> cases f <;> cases g <;> rfl

theorem hull_cons (e : Option Extent) (es : List (Option Extent)) :
    hull (e :: es) = join e (hull es) := by
  cases e with
  | none => rfl
  | some x =>
    have hknown : (some x :: es).filterMap id = x :: es.filterMap id := rfl
    unfold hull
    rw [hknown]
    cases es.filterMap id with
    | nil => rfl
    | cons y ys =>
      have hlast := List.getLast?_eq_some_getLast (List.cons_ne_nil y ys)
      simp only [List.head?_cons, List.getLast?_cons_cons, hlast, join]

end Extent

namespace Lexeme

def span (xs : List Lexeme) : Option Extent := Extent.hull (xs.map fun x => some x.extent)

theorem span_cons (x : Lexeme) (xs : List Lexeme) :
    span (x :: xs) = Extent.join (some x.extent) (span xs) :=
  Extent.hull_cons _ _

theorem span_append (xs ys : List Lexeme) : span (xs ++ ys) = Extent.join (span xs) (span ys) := by
  induction xs with
  | nil => rfl
  | cons x xs ih => rw [List.cons_append, span_cons, span_cons, ih, Extent.join_assoc]

theorem exists_span_cons (x : Lexeme) (xs : List Lexeme) :
    ∃ e, span (x :: xs) = some e ∧ e.line = x.extent.line ∧ e.column = x.extent.column := by
  rw [span_cons]
  cases span xs with
  | none => exact ⟨_, rfl, rfl, rfl⟩
  | some f => exact ⟨_, rfl, rfl, rfl⟩

theorem Ordered.tail {x : Lexeme} {xs : List Lexeme} (h : Ordered (x :: xs)) : Ordered xs :=
  h.sublist (List.sublist_cons_self x xs)

theorem Ordered.precedes {x y : Lexeme} {xs : List Lexeme} (h : Ordered (x :: xs))
    (hy : y ∈ xs) : x.extent.Precedes y.extent :=
  List.rel_of_pairwise_cons h.pairwise hy

/-- Lexemes lie inside what they cover together. -/
theorem Ordered.covers_span {xs : List Lexeme} (h : Ordered xs) :
    ∀ x ∈ xs, Extent.Covers (span xs) x.extent := by
  induction xs with
  | nil => nofun
  | cons y ys ih =>
    have hy := (h.placed y List.mem_cons_self).isProper
    rw [span_cons]
    cases ys with
    | nil =>
      intro x hx
      rw [List.mem_singleton.mp hx]
      exact Extent.covers_self hy
    | cons z zs =>
      obtain ⟨f, hf, _, _⟩ := exists_span_cons z zs
      have hrest := ih h.tail
      rw [hf] at hrest ⊢
      have hz : f.Inside z.extent := hrest z List.mem_cons_self
      intro x hx
      rcases List.mem_cons.mp hx with rfl | hx
      · have hprecedes := h.precedes (y := z) List.mem_cons_self
        exact ⟨NotAfter.refl _ _, hy, hprecedes.trans (hz.proper.trans hz.stop)⟩
      · have hinside : f.Inside x.extent := hrest x hx
        exact ⟨hy.trans (h.precedes hx), hinside.proper, hinside.stop⟩

/-- What covers each of some lexemes covers them together. -/
theorem Ordered.covers_of_span {xs : List Lexeme} (h : Ordered xs) {outer : Option Extent}
    (hxs : ∀ x ∈ xs, Extent.Covers outer x.extent) :
    ∀ e, span xs = some e → Extent.Covers outer e := by
  induction xs with
  | nil => nofun
  | cons y ys ih =>
    intro e he
    have hy := hxs y List.mem_cons_self
    have hinside := h.covers_span y List.mem_cons_self
    rw [he] at hinside
    have hproper : e.IsProper := hinside.start.trans (hinside.proper.trans hinside.stop)
    rw [span_cons] at he
    cases hspan : span ys with
    | none =>
      rw [hspan] at he
      cases he
      exact hy
    | some f =>
      have hf := ih h.tail (fun x hx => hxs x (List.mem_cons_of_mem y hx)) f hspan
      rw [hspan] at he
      cases he
      cases outer with
      | none => exact hy.elim
      | some o => exact ⟨hy.start, hproper, hf.stop⟩

/-- What lexemes cover ends before what later ones cover starts. -/
theorem Ordered.precedes_of_append {xs ys : List Lexeme} (h : Ordered (xs ++ ys)) :
    ∀ e f, span xs = some e → span ys = some f → e.Precedes f := by
  induction xs with
  | nil => nofun
  | cons x xs ih =>
    intro e f he hf
    rw [span_cons] at he
    cases hspan : span xs with
    | some e' =>
      rw [hspan] at he
      cases he
      exact ih h.tail e' f hspan hf
    | none =>
      rw [hspan] at he
      cases he
      cases ys with
      | nil => cases hf
      | cons y ys =>
        obtain ⟨f', hf', hline, hcolumn⟩ := exists_span_cons y ys
        obtain rfl := Option.some.inj (hf'.symm.trans hf)
        rw [Extent.Precedes, hline, hcolumn]
        exact h.precedes (by simp)

end Lexeme

namespace Derivation

mutual

theorem extent_eq_span : ∀ d : Derivation,
    (Shaped.ofDerivation d).extent = Lexeme.span d.lexemes
  | leaf _ => rfl
  | node q ds => by
    rw [Shaped.ofDerivation, lexemes, ← hull_eq_span ds, hull, Shaped.ofParts]
    split
    · rfl
    · split <;> rfl

theorem hull_eq_span : ∀ ds : List Derivation, hull ds = Lexeme.span (lexemesOfAll ds)
  | [] => rfl
  | d :: ds => by
    rw [hull, Shaped.ofDerivations, List.map_cons, Extent.hull_cons, extent_eq_span d, ← hull,
      hull_eq_span ds, lexemesOfAll, Lexeme.span_append]

end

/-- A phrase hands on the nodes of its children, or lends a single one its extent, or makes a node
of them. -/
theorem builds_node_cases {e : Option Extent} {q : Production} {ds : List Derivation}
    {ns : List Node} (h : (node q ds).Builds e ns) :
    BuildsAll e ds ns ∨ (∃ n, ns = [n] ∧ BuildsAll (hull ds <|> e) ds ns) ∨
      ∃ parts n, ns = [n] ∧ BuildsAll none ds parts ∧
        match Node.conversionOf q.left with
        | some c => c.ofPhrase (hull ds <|> e) parts = .ok n
        | none => n = .tree q.left.label (hull ds <|> e) parts := by
  rw [Builds, Shaped.ofDerivation, Shaped.ofParts] at h
  split at h
  · exact Or.inl (buildsAll_iff.mpr h)
  split at h
  case h_1 n _ hn =>
    refine Or.inr (Or.inl ?_)
    obtain ⟨m, hm⟩ := List.length_eq_one_iff.mp (Node.length_of_buildAll h)
    refine ⟨m, hm, buildsAll_iff.mpr ?_⟩
    rw [hn, hull]
    simpa only [List.map_cons, List.map_nil, Shaped.placed_placed] using h
  case h_2 =>
    refine Or.inr (Or.inr ?_)
    simp only [List.map_cons, List.map_nil, Shaped.placed, Node.buildAll_cons_eq_ok,
      Node.buildAll_nil_eq_ok, Node.build, bind_eq_ok, Node.ofLabel?_label] at h
    obtain ⟨n, _, ⟨parts, hparts, hn⟩, rfl, rfl⟩ := h
    refine ⟨parts, n, rfl, ?_, ?_⟩
    · rwa [buildsAll_iff, Shaped.map_placed_none]
    · cases hc : Node.conversionOf q.left with
      | some c =>
        rw [hc] at hn
        exact Node.inPhrase_eq_ok.mp hn
      | none =>
        rw [hc] at hn
        exact (Except.ok.inj hn).symm

/-! ## What is built is nested -/

theorem ordered_of_mem {d : Derivation} {ds : List Derivation}
    (h : Lexeme.Ordered (lexemesOfAll (d :: ds))) :
    Lexeme.Ordered d.lexemes ∧ Lexeme.Ordered (lexemesOfAll ds) :=
  ⟨h.sublist (List.sublist_append_left _ _), h.sublist (List.sublist_append_right _ _)⟩

mutual

/-- All that is built from lexemes lies inside whatever covers them and the extent lent to it. -/
theorem nested_of_builds : ∀ (d : Derivation) {e outer : Option Extent} {ns : List Node},
    d.Builds e ns → Lexeme.Ordered d.lexemes →
    (∀ x ∈ d.lexemes, Extent.Covers outer x.extent) →
    (∀ x, e = some x → Extent.Covers outer x) → ∀ n ∈ ns, Node.Nested (Extent.Covers outer) n
  | leaf x, e, outer, ns, hbuilds, hordered, hcovers, _ => by
    have hplaced := hordered.placed x (by simp [lexemes])
    have hx := hcovers x (by simp [lexemes])
    intro n hn
    rw [builds_leaf.mp hbuilds] at hn
    split at hn
    · rw [List.mem_singleton.mp hn]
      refine ⟨⟨?_, nofun⟩, nofun⟩
      rintro t ⟨⟩ _
      exact ⟨x.extent, Lexeme.standsIn_token hplaced, hx⟩
    · cases hn
  | node q ds, e, outer, ns, hbuilds, hordered, hcovers, he => by
    rw [lexemes] at hordered hcovers
    -- the extent of the phrase, or else the one lent to it
    have hown : ∀ x, (hull ds <|> e) = some x → Extent.Covers outer x := by
      intro x hx
      rw [hull_eq_span] at hx
      cases hspan : Lexeme.span (lexemesOfAll ds) with
      | none =>
        rw [hspan] at hx
        exact he x hx
      | some own =>
        rw [hspan] at hx
        exact hordered.covers_of_span hcovers x (hspan.trans hx)
    rcases builds_node_cases hbuilds with hall | ⟨n, _, hall⟩ | ⟨parts, n, rfl, hall, hn⟩
    · exact nested_of_buildsAll ds hall hordered hcovers he
    · exact nested_of_buildsAll ds hall hordered hcovers hown
    · have hspan : ∀ x ∈ lexemesOfAll ds, Extent.Covers (hull ds <|> e) x.extent := by
        intro x hx
        have hinside := hordered.covers_span x hx
        rw [← hull_eq_span] at hinside
        cases hhull : hull ds with
        | none =>
          rw [hhull] at hinside
          exact hinside.elim
        | some own =>
          rw [hhull] at hinside
          exact hinside
      have hparts := nested_of_buildsAll ds hall hordered hspan nofun
      intro m hm
      rw [List.mem_singleton.mp hm]
      split at hn
      · exact Node.nested_ofPhrase hown hparts hn
      · rw [hn]
        exact Node.nested_part rfl rfl rfl hown hparts

theorem nested_of_buildsAll : ∀ (ds : List Derivation) {e outer : Option Extent}
    {ns : List Node}, BuildsAll e ds ns → Lexeme.Ordered (lexemesOfAll ds) →
    (∀ x ∈ lexemesOfAll ds, Extent.Covers outer x.extent) →
    (∀ x, e = some x → Extent.Covers outer x) → ∀ n ∈ ns, Node.Nested (Extent.Covers outer) n
  | [], _, _, _, hall, _, _, _ => by
    rw [show _ = [] from hall]
    nofun
  | d :: ds, _, _, _, ⟨ms, rest, hms, hrest, heq⟩, hordered, hcovers, he => by
    obtain ⟨hd, hds⟩ := ordered_of_mem hordered
    intro n hn
    rw [heq] at hn
    rcases List.mem_append.mp hn with hn | hn
    · exact nested_of_builds d hms hd (fun x hx => hcovers x (List.mem_append_left _ hx)) he n hn
    · exact nested_of_buildsAll ds hrest hds
        (fun x hx => hcovers x (List.mem_append_right _ hx)) he n hn

end

/-- Where both cover text, the first of two nodes ends before the second starts. -/
def Before (n m : Node) : Prop :=
  ∀ e f, n.extent = some e → m.extent = some f → e.Precedes f

theorem before_of_nested {xs ys : List Lexeme} (hordered : Lexeme.Ordered (xs ++ ys)) {n m : Node}
    (hn : Node.Nested (Extent.Covers (Lexeme.span xs)) n)
    (hm : Node.Nested (Extent.Covers (Lexeme.span ys)) m) : Before n m := by
  intro e f he hf
  exact Extent.Covers.precedes ((Node.nested_iff.mp hn).1.part e he)
    ((Node.nested_iff.mp hm).1.part f hf) hordered.precedes_of_append

mutual

/-- The nodes that a derivation gives to the phrase above it follow one another. -/
theorem pairwise_of_builds : ∀ (d : Derivation) {ns : List Node}, d.Builds none ns →
    Lexeme.Ordered d.lexemes → ns.Pairwise Before
  | leaf x, ns, hbuilds, _ => by
    rw [builds_leaf.mp hbuilds]
    split <;> simp
  | node q ds, ns, hbuilds, hordered => by
    rcases builds_node_cases hbuilds with hall | ⟨n, rfl, _⟩ | ⟨_, n, rfl, _⟩
    · exact pairwise_of_buildsAll ds hall hordered
    · exact List.pairwise_singleton _ n
    · exact List.pairwise_singleton _ n

theorem pairwise_of_buildsAll : ∀ (ds : List Derivation) {ns : List Node}, BuildsAll none ds ns →
    Lexeme.Ordered (lexemesOfAll ds) → ns.Pairwise Before
  | [], _, hall, _ => by
    rw [show _ = [] from hall]
    exact List.Pairwise.nil
  | d :: ds, _, ⟨ms, rest, hms, hrest, heq⟩, hordered => by
    obtain ⟨hd, hds⟩ := ordered_of_mem hordered
    rw [heq]
    refine List.pairwise_append.mpr
      ⟨pairwise_of_builds d hms hd, pairwise_of_buildsAll ds hrest hds, ?_⟩
    intro n hn m hm
    exact before_of_nested hordered
      (nested_of_builds d hms hd hd.covers_span nofun n hn)
      (nested_of_buildsAll ds hrest hds hds.covers_span nofun m hm)

end

end Derivation

end GrammarServer
