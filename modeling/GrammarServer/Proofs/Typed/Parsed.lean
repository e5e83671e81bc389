import GrammarServer.Proofs.Parse.Complete
import GrammarServer.Proofs.Typed.Canonical
import GrammarServer.Proofs.Typed.OfDerivation

/-!
# Written files are parsed

Whatever lexemes the words of a typed file are read as, they are derived from its phrase, and the
nodes built from that derivation say what the file says. The derivation is settled as long as no
name comes after it; if it cannot go on with a name, then also if one does.
-/
namespace GrammarServer.Typed

open GrammarServer.Derivation Terminal Chunk

/-- Whether a terminal may come next: a name may only if that is allowed. -/
def Permits (free : Bool) (t : Terminal) : Prop := free = true ∨ isName t = false

/-- Lexemes with these words are derived from a symbol, and the nodes built from them are as they
should be. -/
def Yields (free : Bool) (s : Symbol) (ws : List (Terminal × List Char))
    (P : List Node → Prop) : Prop :=
  ∀ xs : List Lexeme, xs.map Lexeme.key = ws → ∃ d : Derivation, d.Valid ∧ d.symbol = s ∧
    d.lexemes = xs ∧ (∀ t, Permits free t → d.Settled t) ∧ ∀ e, ∃ ns, d.Builds e ns ∧ P ns

def YieldsAll (free : Bool) (r : List Symbol) (ws : List (Terminal × List Char))
    (P : List Node → Prop) : Prop :=
  ∀ xs : List Lexeme, xs.map Lexeme.key = ws → ∃ ds : List Derivation, AllValid ds ∧
    ds.map symbol = r ∧ lexemesOfAll ds = xs ∧ (∀ t, Permits free t → AllSettled t ds) ∧
    ∀ e, ∃ ns, BuildsAll e ds ns ∧ P ns

/-- What comes after a part does not start with a name, or the part is free to be followed by
one. -/
def Guarded (free part : Bool) : List (Terminal × List Char) → Prop
  | [] => part = true ∨ free = false
  | (t, _) :: _ => Permits part t

section

variable {free part : Bool} {s : Symbol} {r : List Symbol} {p : Phrase}
  {w ws : List (Terminal × List Char)} {P Q : List Node → Prop}

theorem guarded_true (ws : List (Terminal × List Char)) : Guarded free true ws := by
  cases ws <;> exact Or.inl rfl

theorem yieldsAll_nil : YieldsAll free [] [] (· = []) := by
  intro xs hxs
  refine ⟨[], trivial, rfl, ?_, fun _ _ => trivial, fun _ => ⟨[], rfl, rfl⟩⟩
  exact (List.map_eq_nil_iff.mp hxs).symm

theorem permits_leading {ds : List Derivation} (hguard : Guarded free part ws)
    (hwords : (lexemesOfAll ds).map Lexeme.key = ws) {t : Terminal} (ht : Permits free t) :
    Permits part (leading t ds) := by
  unfold leading
  cases hds : lexemesOfAll ds with
  | nil =>
    rw [hds] at hwords
    obtain rfl : ws = [] := hwords.symm
    rcases hguard with hpart | hfree
    · exact Or.inl hpart
    · exact Or.inr (ht.resolve_left (by simp [hfree]))
  | cons x xs =>
    rw [hds] at hwords
    obtain rfl : ws = x.key :: xs.map Lexeme.key := hwords.symm
    exact hguard

theorem yieldsAll_cons (h : Yields part s w P) (hs : YieldsAll free r ws Q)
    (hguard : Guarded free part ws) :
    YieldsAll free (s :: r) (w ++ ws) fun ns => ∃ a b, P a ∧ Q b ∧ ns = a ++ b := by
  intro xs hxs
  obtain ⟨xs, ys, rfl, hxs, hys⟩ := List.map_eq_append_iff.mp hxs
  obtain ⟨d, hd, hsymbol, hlex, hsettled, hbuilds⟩ := h xs hxs
  obtain ⟨ds, hds, hsymbols, hlexs, hsettleds, hbuildss⟩ := hs ys hys
  refine ⟨d :: ds, ⟨hd, hds⟩, by rw [List.map_cons, hsymbol, hsymbols], ?_, ?_, ?_⟩
  · rw [lexemesOfAll, hlex, hlexs]
  · intro t ht
    refine ⟨hsettled _ (permits_leading hguard ?_ ht), hsettleds t ht⟩
    rw [hlexs, hys]
  · intro e
    obtain ⟨a, ha, hPa⟩ := hbuilds e
    obtain ⟨b, hb, hQb⟩ := hbuildss e
    exact ⟨a ++ b, ⟨a, b, ha, hb, rfl⟩, a, b, hPa, hQb, rfl⟩

theorem Yields.weaken (h : Yields true s ws P) : Yields false s ws P := by
  intro xs hxs
  obtain ⟨d, hd, hsymbol, hlex, hsettled, hbuilds⟩ := h xs hxs
  exact ⟨d, hd, hsymbol, hlex, fun t _ => hsettled t (Or.inl rfl), hbuilds⟩

theorem Yields.imp (h : Yields free s ws P) (himp : ∀ ns, P ns → Q ns) : Yields free s ws Q := by
  intro xs hxs
  obtain ⟨d, hd, hsymbol, hlex, hsettled, hbuilds⟩ := h xs hxs
  refine ⟨d, hd, hsymbol, hlex, hsettled, fun e => ?_⟩
  obtain ⟨ns, hns, hP⟩ := hbuilds e
  exact ⟨ns, hns, himp ns hP⟩

/-! ### One production -/

theorem goesOnWith_eq_false {t : Terminal} (ht : Permits free t)
    (hp : free = true → p ≠ .expansion ∧ p ≠ .declare) : Automaton.goesOnWith p t = false := by
  rcases ht with hfree | hname
  · obtain ⟨hexpansion, hdeclare⟩ := hp hfree
    simp [Automaton.goesOnWith, hexpansion, hdeclare]
  · cases t <;> simp_all [Automaton.goesOnWith, isName]

theorem Yields.spliced (h : YieldsAll free r ws P) (hq : ⟨p, r⟩ ∈ Production.all)
    (hp : p.isSpliced = true) : Yields free (.phrase p) ws P := by
  intro xs hxs
  obtain ⟨ds, hds, hsymbols, hlex, hsettled, hbuilds⟩ := h xs hxs
  refine ⟨.node ⟨p, r⟩ ds, ⟨hq, hsymbols, hds⟩, rfl, hlex, fun t ht => ?_, fun e => ?_⟩
  · refine ⟨goesOnWith_eq_false ht fun _ => ?_, hsettled t ht⟩
    constructor <;> (rintro rfl; cases hp)
  · obtain ⟨ns, hns, hP⟩ := hbuilds e
    exact ⟨ns, (builds_spliced hp).mpr hns, hP⟩

/-- Whether a phrase stands aside for the single node of its parts. -/
def standsAside (p : Phrase) (r : List Symbol) : Bool :=
  !p.isSpliced && p.isTransparent && r.all isWhole && givenBy r == 1

theorem Yields.single (h : YieldsAll free r ws P) (hq : ⟨p, r⟩ ∈ Production.all)
    (haside : standsAside p r = true) : Yields free (.phrase p) ws P := by
  simp only [standsAside, Bool.and_eq_true, Bool.not_eq_true', beq_iff_eq] at haside
  obtain ⟨⟨⟨hspliced, htransparent⟩, hwhole⟩, hone⟩ := haside
  intro xs hxs
  obtain ⟨ds, hds, hsymbols, hlex, hsettled, hbuilds⟩ := h xs hxs
  refine ⟨.node ⟨p, r⟩ ds, ⟨hq, hsymbols, hds⟩, rfl, hlex, fun t ht => ?_, fun e => ?_⟩
  · refine ⟨goesOnWith_eq_false ht fun _ => ?_, hsettled t ht⟩
    constructor <;> (rintro rfl; cases htransparent)
  · obtain ⟨ns, hns, hP⟩ := hbuilds (hull ds <|> e)
    exact ⟨ns, (builds_single hsymbols hspliced htransparent hwhole hone).mpr hns, hP⟩

/-- Whether a phrase makes a node of its own, and can be followed by a name if it should be free
to. -/
def makesNode (free : Bool) (p : Phrase) (r : List Symbol) : Bool :=
  !p.isSpliced && (!free || (p != .expansion && p != .declare)) &&
    (!p.isTransparent || (r.all isWhole && givenBy r != 1))

theorem Yields.tree {c : Node.Conversion} (h : YieldsAll free r ws P)
    (hq : ⟨p, r⟩ ∈ Production.all) (hnode : makesNode free p r = true)
    (hc : Node.conversionOf p = some c)
    (hn : ∀ e ns, P ns → ∃ n, c.ofPhrase e ns = .ok n ∧ Q [n]) : Yields free (.phrase p) ws Q := by
  simp only [makesNode, Bool.and_eq_true, Bool.not_eq_true', Bool.or_eq_true, bne_iff_ne] at hnode
  obtain ⟨⟨hspliced, hgoes⟩, hmany⟩ := hnode
  intro xs hxs
  obtain ⟨ds, hds, hsymbols, hlex, hsettled, hbuilds⟩ := h xs hxs
  refine ⟨.node ⟨p, r⟩ ds, ⟨hq, hsymbols, hds⟩, rfl, hlex, fun t ht => ?_, fun e => ?_⟩
  · refine ⟨goesOnWith_eq_false ht fun hfree => ?_, hsettled t ht⟩
    exact hgoes.resolve_left (by simp [hfree])
  · obtain ⟨ns, hns, hP⟩ := hbuilds none
    obtain ⟨n, hn, hQ⟩ := hn (hull ds <|> e) ns hP
    have hmany' : p.isTransparent = true → r.all isWhole = true ∧ givenBy r ≠ 1 :=
      fun htransparent => hmany.resolve_left (by simp [htransparent])
    refine ⟨[n], ?_, hQ⟩
    exact (builds_node (q := ⟨p, r⟩) hsymbols hspliced hmany' hc).mpr ⟨ns, n, hns, hn, rfl⟩

/-! ### Words -/

theorem yields_leaf {t : Terminal} {v : List Char}
    (h : ∀ x : Lexeme, x.key = (t, v) → P (if t.isKept then [.token x.token] else [])) :
    Yields true (.terminal t) [(t, v)] P := by
  intro xs hxs
  obtain ⟨x, rfl, hx⟩ := List.map_eq_singleton_iff.mp hxs
  obtain ⟨hterminal, _⟩ := Prod.mk.inj hx
  refine ⟨.leaf x, trivial, congrArg Symbol.terminal hterminal, rfl, fun _ _ => trivial,
    fun e => ⟨_, builds_leaf.mpr rfl, ?_⟩⟩
  rw [hterminal]
  exact h x hx

theorem yieldsAll_silent {t : Terminal} (ht : t.isKept = false) {v : List Char}
    (hs : YieldsAll free r ws P) : YieldsAll free (.terminal t :: r) ((t, v) :: ws) P := by
  have hleaf : Yields true (.terminal t) [(t, v)] (· = []) := yields_leaf fun x _ => by simp [ht]
  intro xs hxs
  obtain ⟨ds, hds, hsymbols, hlex, hsettled, hbuilds⟩ :=
    yieldsAll_cons hleaf hs (guarded_true ws) xs hxs
  refine ⟨ds, hds, hsymbols, hlex, hsettled, fun e => ?_⟩
  obtain ⟨_, hns, _, b, rfl, hb, rfl⟩ := hbuilds e
  exact ⟨_, hns, hb⟩

/-- A word at the end that makes no node. -/
theorem yieldsAll_closing {t : Terminal} (ht : t.isKept = false) (v : List Char) :
    YieldsAll free [.terminal t] [(t, v)] (· = []) := yieldsAll_silent ht yieldsAll_nil

theorem yieldsAll_then (h : Yields part s w P) (hs : YieldsAll free r ws (· = []))
    (hguard : Guarded free part ws) : YieldsAll free (s :: r) (w ++ ws) P := by
  intro xs hxs
  obtain ⟨ds, hds, hsymbols, hlex, hsettled, hbuilds⟩ := yieldsAll_cons h hs hguard xs hxs
  refine ⟨ds, hds, hsymbols, hlex, hsettled, fun e => ?_⟩
  obtain ⟨ns, hns, a, b, ha, rfl, rfl⟩ := hbuilds e
  refine ⟨a, ?_, ha⟩
  rwa [List.append_nil] at hns

theorem yieldsAll_single (h : Yields free s w P) : YieldsAll free [s] w P := by
  have hguard : Guarded free free [] := by cases free <;> simp [Guarded]
  have hall := yieldsAll_then h yieldsAll_nil hguard
  rwa [List.append_nil] at hall

end

/-! ## What nodes say -/

section

variable {α : Type} (node : α → Node) (canonical : α → α)

def Says (a : α) (ns : List Node) : Prop := ∃ b, canonical b = canonical a ∧ ns = [node b]

def SaysAll (as : List α) (ns : List Node) : Prop :=
  ∃ bs : List α, bs.map canonical = as.map canonical ∧ ns = bs.map node

variable {node canonical} {free : Bool} {p : Phrase} {r : List Symbol}
  {ws : List (Terminal × List Char)}

theorem Says.saysAll {a : α} {ns : List Node} (h : Says node canonical a ns) :
    SaysAll node canonical [a] ns := by
  obtain ⟨b, hb, rfl⟩ := h
  exact ⟨[b], by simp [hb], rfl⟩

/-- A list phrase goes on with one more element at a time. -/
theorem Yields.extend {w : α → List (Terminal × List Char)} (as : List α)
    (hq : ⟨p, .phrase p :: r⟩ ∈ Production.all) (hp : p.isSpliced = true)
    (hlast : ∀ a ∈ as, YieldsAll free r (w a) (Says node canonical a))
    (hguard : ∀ a ∈ as, Guarded free free (w a)) {done : List α}
    (hdone : Yields free (.phrase p) ws (SaysAll node canonical done)) :
    Yields free (.phrase p) (ws ++ as.flatMap w) (SaysAll node canonical (done ++ as)) := by
  induction as generalizing done ws with
  | nil => simpa using hdone
  | cons a as ih =>
    obtain ⟨hlast, hlasts⟩ := List.forall_mem_cons.mp hlast
    obtain ⟨hguard, hguards⟩ := List.forall_mem_cons.mp hguard
    have hstep : Yields free (.phrase p) (ws ++ w a) (SaysAll node canonical (done ++ [a])) := by
      refine (Yields.spliced (yieldsAll_cons hdone hlast hguard) hq hp).imp ?_
      rintro _ ⟨_, _, ⟨bs, hbs, rfl⟩, ⟨b, hb, rfl⟩, rfl⟩
      exact ⟨bs ++ [b], by simp [hbs, hb], by simp⟩
    have h := ih hlasts hguards hstep
    rwa [List.append_assoc, List.append_assoc, List.singleton_append,
      ← List.flatMap_cons] at h

end

section

variable {t : Terminal}

theorem Word.yields (x : Word t) (ht : t.isKept = true) :
    Yields true (.terminal t) [(t, x.text)] (Says Word.node Word.canonical x) := by
  apply yields_leaf
  intro y hy
  obtain ⟨hterminal, htext⟩ := Prod.mk.inj hy
  have hkey : x.lexeme.key = y.key := by
    rw [hy, Lexeme.key, x.terminal_eq]
    rfl
  refine ⟨⟨y, hterminal, Lexeme.isSpelled_of_key hkey x.spelled⟩, Word.canonical_eq htext, ?_⟩
  rw [if_pos ht]
  rfl

end

/-! ## Values -/

theorem Word.yields_first {t : Terminal} (x : Word t) (ht : t.isKept = true) {p : Phrase}
    (hq : ⟨p, [.terminal t]⟩ ∈ Production.all) (hnode : makesNode true p [.terminal t] = true)
    (hc : Node.conversionOf p = some .first) :
    Yields true (.phrase p) [(t, x.text)] (Says Word.node Word.canonical x) := by
  refine Yields.tree (yieldsAll_single (x.yields ht)) hq hnode hc ?_
  rintro e _ ⟨y, hy, rfl⟩
  exact ⟨y.node, rfl, y, hy, rfl⟩

theorem yields_terminal (x : Word .terminalName) :
    Yields true (.phrase .terminal) [(.terminalName, x.text)] (Says Word.node Word.canonical x) :=
  x.yields_first rfl (by decide) rfl rfl

theorem yields_nonterminal (x : Word .ruleName) :
    Yields true (.phrase .nonterminal) [(.ruleName, x.text)] (Says Word.node Word.canonical x) :=
  x.yields_first rfl (by decide) rfl rfl

def Values.toList : Values → List Value
  | .one v => [v]
  | .cons v rest => v :: rest.toList

def Exprs.toList : Exprs → List Expr
  | .nil => []
  | .cons x rest => x :: rest.toList

def Alternatives.toList : Alternatives → List Alternative
  | .one a => [a]
  | .cons a rest => a :: rest.toList

theorem Values.exists_of_map_canonical : ∀ (vs : Values) {us : List Value},
    us.map Value.canonical = vs.toList.map Value.canonical →
    ∃ vs' : Values, vs'.canonical = vs.canonical ∧ us.map Value.node = vs'.nodes
  | .one v, us, h => by
    obtain ⟨u, rfl, hu⟩ := List.map_eq_singleton_iff.mp h
    exact ⟨.one u, congrArg Values.one hu, rfl⟩
  | .cons v vs, us, h => by
    obtain ⟨u, us, rfl, hu, hus⟩ := List.map_eq_cons_iff.mp h
    obtain ⟨vs', hcanonical, hnodes⟩ := exists_of_map_canonical vs hus
    exact ⟨.cons u vs', by simp [canonical, hu, hcanonical], by simp [nodes, hnodes]⟩

theorem Exprs.exists_of_map_canonical : ∀ (xs : Exprs) {ys : List Expr},
    ys.map Expr.canonical = xs.toList.map Expr.canonical →
    ∃ xs' : Exprs, xs'.canonical = xs.canonical ∧ ys.map Expr.node = xs'.nodes
  | .nil, ys, h => by
    rw [List.map_eq_nil_iff.mp h]
    exact ⟨.nil, rfl, rfl⟩
  | .cons x xs, ys, h => by
    obtain ⟨y, ys, rfl, hy, hys⟩ := List.map_eq_cons_iff.mp h
    obtain ⟨xs', hcanonical, hnodes⟩ := exists_of_map_canonical xs hys
    exact ⟨.cons y xs', by simp [canonical, hy, hcanonical], by simp [nodes, hnodes]⟩

theorem Alternatives.exists_of_map_canonical : ∀ (as : Alternatives) {bs : List Alternative},
    bs.map Alternative.canonical = as.toList.map Alternative.canonical →
    ∃ as' : Alternatives, as'.canonical = as.canonical ∧ bs.map Alternative.node = as'.nodes
  | .one a, bs, h => by
    obtain ⟨b, rfl, hb⟩ := List.map_eq_singleton_iff.mp h
    exact ⟨.one b, congrArg Alternatives.one hb, rfl⟩
  | .cons a as, bs, h => by
    obtain ⟨b, bs, rfl, hb, hbs⟩ := List.map_eq_cons_iff.mp h
    obtain ⟨as', hcanonical, hnodes⟩ := exists_of_map_canonical as hbs
    exact ⟨.cons b as', by simp [canonical, hb, hcanonical], by simp [nodes, hnodes]⟩

def joined {α : Type} (w : α → List (Terminal × List Char)) (separator : Terminal × List Char) :
    List α → List (Terminal × List Char)
  | [] => []
  | a :: as => w a ++ as.flatMap fun b => separator :: w b

theorem joined_cons {α : Type} {w : α → List (Terminal × List Char)}
    {separator : Terminal × List Char} (a : α) {as : List α} (has : as ≠ []) :
    joined w separator (a :: as) = w a ++ separator :: joined w separator as := by
  obtain ⟨b, as, rfl⟩ := List.exists_cons_of_ne_nil has
  rfl

theorem Values.toList_ne_nil (vs : Values) : vs.toList ≠ [] := by
  cases vs <;> exact List.cons_ne_nil _ _

theorem Alternatives.toList_ne_nil (as : Alternatives) : as.toList ≠ [] := by
  cases as <;> exact List.cons_ne_nil _ _

theorem Values.words_chunks (vs : Values) : words vs.chunks =
    joined (fun v => words v.chunks) (.comma, fixedText .comma) vs.toList := by
  induction vs with
  | one v => simp [chunks, toList, joined]
  | cons v vs ih =>
    rw [toList, joined_cons v vs.toList_ne_nil, ← ih]
    simp [chunks]

theorem Alternatives.words_chunks (as : Alternatives) : words as.chunks =
    joined (fun a => words a.chunks) (.bar, fixedText .bar) as.toList := by
  induction as with
  | one a => simp [chunks, toList, joined]
  | cons a as ih =>
    rw [toList, joined_cons a as.toList_ne_nil, ← ih]
    simp [chunks]

theorem Alternatives.words_stack (indent : String) (as : Alternatives) :
    words (as.stack indent) =
      joined (fun a => words a.chunks) (.newlineBar, barText indent) as.toList := by
  induction as with
  | one a =>
    rw [stack, toList, joined, List.flatMap_nil, List.append_nil]
    unfold Alternative.spaced
    split
    · rfl
    · rfl
  | cons a as ih =>
    rw [toList, joined_cons a as.toList_ne_nil, ← ih]
    simp [stack]

theorem Exprs.words_chunksAfter (xs : Exprs) :
    words xs.chunksAfter = xs.toList.flatMap fun x => words x.chunks := by
  induction xs with
  | nil => rfl
  | cons x xs ih => simp [chunksAfter, toList, ih]

theorem Exprs.words_chunks (xs : Exprs) :
    words xs.chunks = xs.toList.flatMap fun x => words x.chunks := by
  cases xs with
  | nil => rfl
  | cons x xs => simp [chunks, toList, words_chunksAfter xs]

/-- A list phrase whose elements stand apart by a word that makes no node. -/
theorem yields_joined {α : Type} {node : α → Node} {canonical : α → α} {free : Bool}
    {p : Phrase} {s : Symbol} {t : Terminal} {v : List Char}
    {w : α → List (Terminal × List Char)} (hfirst : ⟨p, [s]⟩ ∈ Production.all)
    (hmore : ⟨p, [.phrase p, .terminal t, s]⟩ ∈ Production.all) (hp : p.isSpliced = true)
    (ht : t.isKept = false ∧ isName t = false) {as : List α} (hne : as ≠ [])
    (has : ∀ a ∈ as, Yields free s (w a) (Says node canonical a)) :
    Yields free (.phrase p) (joined w (t, v) as) (SaysAll node canonical as) := by
  obtain ⟨a, as, rfl⟩ := List.exists_cons_of_ne_nil hne
  obtain ⟨ha, has⟩ := List.forall_mem_cons.mp has
  have hone : Yields free (.phrase p) (w a) (SaysAll node canonical [a]) :=
    (Yields.spliced (yieldsAll_single ha) hfirst hp).imp fun _ => Says.saysAll
  exact hone.extend as hmore hp
    (fun b hb => yieldsAll_silent ht.1 (yieldsAll_single (has b hb)))
    fun _ _ => Or.inr ht.2

theorem Values.yields (vs : Values) (h : ∀ v ∈ vs.toList,
      Yields true (.phrase .value) (words v.chunks) (Says Value.node Value.canonical v)) :
    Yields true (.phrase .templateArgs) (words vs.chunks) fun ns =>
      ∃ us : Values, us.canonical = vs.canonical ∧ ns = us.nodes := by
  rw [vs.words_chunks]
  refine (yields_joined (by decide) (by decide) rfl ⟨rfl, rfl⟩ vs.toList_ne_nil h).imp ?_
  rintro _ ⟨us, hus, rfl⟩
  exact vs.exists_of_map_canonical hus

theorem Exprs.yields (xs : Exprs) (h : ∀ x ∈ xs.toList,
      Yields true (.phrase .expr) (words x.chunks) (Says Expr.node Expr.canonical x)) :
    Yields true (.phrase .exprs) (words xs.chunks) fun ns =>
      ∃ ys : Exprs, ys.canonical = xs.canonical ∧ ns = ys.nodes := by
  have hempty : Yields true (.phrase .exprs) [] (SaysAll Expr.node Expr.canonical []) :=
    (Yields.spliced yieldsAll_nil (by decide) rfl).imp fun _ h => ⟨[], rfl, h⟩
  have hall := hempty.extend xs.toList (r := [.phrase .expr]) (by decide) rfl
    (fun x hx => yieldsAll_single (h x hx)) fun x _ => guarded_true (words x.chunks)
  rw [xs.words_chunks]
  refine hall.imp ?_
  rintro _ ⟨ys, hys, rfl⟩
  exact xs.exists_of_map_canonical hys

/-- Alternatives with a bar of either kind between them. -/
theorem Alternatives.yields {t : Terminal} {v : List Char} (ht : t = .bar ∨ t = .newlineBar)
    (as : Alternatives) (h : ∀ a ∈ as.toList, Yields false (.phrase .aliasing) (words a.chunks)
      (Says Alternative.node Alternative.canonical a)) :
    Yields false (.phrase .expansions)
      (joined (fun a => words a.chunks) (t, v) as.toList) fun ns =>
        ∃ bs : Alternatives, bs.canonical = as.canonical ∧ ns = [.list bs.nodes] := by
  have hlist : Yields false (.phrase .alternatives)
      (joined (fun a => words a.chunks) (t, v) as.toList)
      (SaysAll Alternative.node Alternative.canonical as.toList) := by
    rcases ht with rfl | rfl
    · exact yields_joined (by decide) (by decide) rfl ⟨rfl, rfl⟩ as.toList_ne_nil h
    · exact yields_joined (by decide) (by decide) rfl ⟨rfl, rfl⟩ as.toList_ne_nil h
  refine Yields.tree (yieldsAll_single hlist) (by decide) rfl rfl ?_
  rintro e _ ⟨bs, hbs, rfl⟩
  obtain ⟨bs', hcanonical, hnodes⟩ := as.exists_of_map_canonical hbs
  exact ⟨.list bs'.nodes, by rw [hnodes]; rfl, bs', hcanonical, rfl⟩

theorem Value.yields_of {p : Phrase} {v : Value} {w : List (Terminal × List Char)}
    (h : Yields true (.phrase p) w (Says Value.node Value.canonical v))
    (hq : ⟨.value, [.phrase p]⟩ ∈ Production.all) :
    Yields true (.phrase .value) w (Says Value.node Value.canonical v) := by
  refine Yields.tree (yieldsAll_single h) hq rfl rfl ?_
  rintro e _ ⟨u, hu, rfl⟩
  exact ⟨u.node, rfl, u, hu, rfl⟩

theorem yields_range (e : Option Extent) (first last : Word .string) :
    Yields true (.phrase .range) (words (Value.range e first last).chunks)
      (Says Value.node Value.canonical (.range e first last)) := by
  have hparts := yieldsAll_cons (first.yields rfl)
    (yieldsAll_silent (t := .dotDot) (v := fixedText .dotDot) rfl
      (yieldsAll_single (last.yields rfl))) (guarded_true _)
  refine Yields.tree hparts (by decide) rfl rfl ?_
  rintro e' _ ⟨_, _, ⟨x, hx, rfl⟩, ⟨y, hy, rfl⟩, rfl⟩
  exact ⟨_, rfl, .range e' x y, by simp [Value.canonical, hx, hy], rfl⟩

theorem yields_usage (e : Option Extent) (rule : Word .ruleName) (arguments : Values)
    (h : ∀ v ∈ arguments.toList, Yields true (.phrase .value) (words v.chunks)
      (Says Value.node Value.canonical v)) :
    Yields true (.phrase .templateUsage) (words (Value.usage e rule arguments).chunks)
      (Says Value.node Value.canonical (.usage e rule arguments)) := by
  have harguments : YieldsAll true _ _ _ := yieldsAll_then (arguments.yields h)
    (yieldsAll_closing (t := .rightBrace) rfl (fixedText .rightBrace)) (guarded_true _)
  have hparts := yieldsAll_cons (yields_nonterminal rule)
    (yieldsAll_silent (t := .leftBrace) (v := fixedText .leftBrace) rfl harguments)
    (guarded_true _)
  have hwords : words (Value.usage e rule arguments).chunks =
      (.ruleName, rule.text) :: (.leftBrace, fixedText .leftBrace) ::
        (words arguments.chunks ++ [(.rightBrace, fixedText .rightBrace)]) := by
    simp [Value.chunks]
  rw [hwords]
  refine Yields.tree hparts (by decide) rfl rfl ?_
  rintro e' _ ⟨_, _, ⟨x, hx, rfl⟩, ⟨us, hus, rfl⟩, rfl⟩
  exact ⟨_, rfl, .usage e' x us, by simp [Value.canonical, hx, hus], rfl⟩

/-- Alternatives on one line, in brackets that make no node. -/
theorem yieldsAll_bracketed (opening closing : Terminal)
    (hopening : opening.isKept = false) (hclosing : closing.isKept = false ∧ isName closing = false)
    (as : Alternatives) (h : ∀ a ∈ as.toList, Yields false (.phrase .aliasing) (words a.chunks)
      (Says Alternative.node Alternative.canonical a)) :
    YieldsAll true [.terminal opening, .phrase .expansions, .terminal closing]
      (words (fixed opening :: (as.chunks ++ [fixed closing]))) fun ns =>
        ∃ bs : Alternatives, bs.canonical = as.canonical ∧ ns = [.list bs.nodes] := by
  have hbody := as.yields (t := .bar) (v := fixedText .bar) (Or.inl rfl) h
  have hclosed : YieldsAll true _ _ _ :=
    yieldsAll_then hbody (yieldsAll_closing hclosing.1 (fixedText closing)) (Or.inr hclosing.2)
  have hall := yieldsAll_silent hopening (v := fixedText opening) hclosed
  rw [← as.words_chunks] at hall
  simpa using hall

theorem yields_group (as : Alternatives) (h : ∀ a ∈ as.toList, Yields false (.phrase .aliasing)
      (words a.chunks) (Says Alternative.node Alternative.canonical a)) :
    Yields true (.phrase .atom) (words (Atom.group as).chunks)
      (Says Atom.node Atom.canonical (.group as)) := by
  refine (Yields.single (yieldsAll_bracketed .leftParen .rightParen rfl
    ⟨rfl, rfl⟩ as h) (by decide) rfl).imp ?_
  rintro _ ⟨bs, hbs, rfl⟩
  exact ⟨.group bs, by simp [Atom.canonical, hbs], rfl⟩

theorem yields_maybe (e : Option Extent) (as : Alternatives) (h : ∀ a ∈ as.toList,
      Yields false (.phrase .aliasing) (words a.chunks)
        (Says Alternative.node Alternative.canonical a)) :
    Yields true (.phrase .maybe) (words (Atom.maybe e as).chunks)
      (Says Atom.node Atom.canonical (.maybe e as)) := by
  refine Yields.tree (yieldsAll_bracketed .leftBracket .rightBracket rfl
    ⟨rfl, rfl⟩ as h) (by decide) rfl rfl ?_
  rintro e' _ ⟨bs, hbs, rfl⟩
  refine ⟨(Atom.maybe e' bs).node, ?_, .maybe e' bs, by simp [Atom.canonical, hbs], rfl⟩
  change ((Node.list bs.nodes).expansionsOf >>= fun expansions =>
    pure (Node.maybe e' expansions)) = _
  rw [expansionsOf_list]
  rfl

theorem Expr.yields_of (e : Option Extent) (atom : Atom) (count : Repetition)
    (h : Yields true (.phrase .atom) (words atom.chunks) (Says Atom.node Atom.canonical atom)) :
    Yields true (.phrase .expr) (words (Expr.mk e atom count).chunks)
      (Says Expr.node Expr.canonical (.mk e atom count)) := by
  rw [Expr.chunks, words_append]
  cases count with
  | once =>
    rw [Repetition.chunks, words_nil, List.append_nil]
    refine Yields.tree (yieldsAll_single h) (by decide) rfl rfl ?_
    rintro e' _ ⟨x, hx, rfl⟩
    exact ⟨_, rfl, .mk e' x .once, by simp [Expr.canonical, hx], rfl⟩
  | operator mark =>
    refine Yields.tree (yieldsAll_cons h (yieldsAll_single (mark.yields rfl)) (guarded_true _))
      (by decide) rfl rfl ?_
    rintro e' _ ⟨_, _, ⟨x, hx, rfl⟩, ⟨y, hy, rfl⟩, rfl⟩
    exact ⟨_, rfl, .mk e' x (.operator y),
      by simp [Expr.canonical, Repetition.canonical, hx, hy], rfl⟩
  | times mark number =>
    refine Yields.tree (yieldsAll_cons h (yieldsAll_cons (mark.yields rfl)
      (yieldsAll_single (number.yields rfl)) (guarded_true _)) (guarded_true _)) (by decide) rfl
      rfl ?_
    rintro e' _ ⟨_, _, ⟨x, hx, rfl⟩, ⟨_, _, ⟨y, hy, rfl⟩, ⟨z, hz, rfl⟩, rfl⟩, rfl⟩
    exact ⟨_, rfl, .mk e' x (.times y z),
      by simp [Expr.canonical, Repetition.canonical, hx, hy, hz], rfl⟩
  | between mark least most =>
    have hmost := yieldsAll_silent (t := .dotDot) (v := fixedText .dotDot) rfl
      (yieldsAll_single (most.yields rfl))
    refine Yields.tree (yieldsAll_cons h (yieldsAll_cons (mark.yields rfl)
      (yieldsAll_cons (least.yields rfl) hmost (guarded_true _)) (guarded_true _))
      (guarded_true _)) (by decide) rfl rfl ?_
    rintro e' _ ⟨_, _, ⟨x, hx, rfl⟩, ⟨_, _, ⟨y, hy, rfl⟩, ⟨_, _, ⟨z, hz, rfl⟩, ⟨w, hw, rfl⟩, rfl⟩,
      rfl⟩, rfl⟩
    exact ⟨_, rfl, .mk e' x (.between y z w),
      by simp [Expr.canonical, Repetition.canonical, hx, hy, hz, hw], rfl⟩

theorem yields_expansion (xs : Exprs) (h : ∀ x ∈ xs.toList,
      Yields true (.phrase .expr) (words x.chunks) (Says Expr.node Expr.canonical x)) :
    Yields false (.phrase .expansion) (words xs.chunks) fun ns =>
      ∃ (e : Option Extent) (ys : Exprs), ys.canonical = xs.canonical ∧
        ns = [.expansion e ys.nodes .absent] := by
  refine Yields.tree (yieldsAll_single (xs.yields h).weaken) (by decide) rfl rfl ?_
  rintro e _ ⟨ys, hys, rfl⟩
  exact ⟨_, rfl, e, ys, hys, rfl⟩

theorem yields_plain (e : Option Extent) (xs : Exprs) (h : ∀ x ∈ xs.toList,
      Yields true (.phrase .expr) (words x.chunks) (Says Expr.node Expr.canonical x)) :
    Yields false (.phrase .aliasing) (words (Alternative.plain e xs).chunks)
      (Says Alternative.node Alternative.canonical (.plain e xs)) := by
  refine (Yields.single (yieldsAll_single (yields_expansion xs h)) (by decide) rfl).imp ?_
  rintro _ ⟨e', ys, hys, rfl⟩
  exact ⟨.plain e' ys, by simp [Alternative.canonical, hys], rfl⟩

theorem words_named (e inner : Option Extent) (xs : Exprs) (name : Word .ruleName) :
    words (Alternative.named e inner xs name).chunks =
      words xs.chunks ++ [(.arrow, fixedText .arrow), (.ruleName, name.text)] := by
  cases xs with
  | nil => rfl
  | cons x xs => simp [Alternative.chunks, Exprs.chunks]

theorem yields_named (e inner : Option Extent) (xs : Exprs) (name : Word .ruleName)
    (h : ∀ x ∈ xs.toList,
      Yields true (.phrase .expr) (words x.chunks) (Says Expr.node Expr.canonical x)) :
    Yields false (.phrase .aliasing) (words (Alternative.named e inner xs name).chunks)
      (Says Alternative.node Alternative.canonical (.named e inner xs name)) := by
  have hname := yieldsAll_silent (t := .arrow) (v := fixedText .arrow) rfl
    (yieldsAll_single (yields_nonterminal name).weaken)
  rw [words_named]
  refine Yields.tree (yieldsAll_cons (yields_expansion xs h) hname (Or.inr rfl)) (by decide) rfl
    rfl ?_
  rintro e' _ ⟨_, _, ⟨e'', ys, hys, rfl⟩, ⟨x, hx, rfl⟩, rfl⟩
  exact ⟨_, rfl, .named e' e'' ys x, by simp [Alternative.canonical, hys, hx], rfl⟩

mutual

theorem Value.yields : ∀ v : Value,
    Yields true (.phrase .value) (words v.chunks) (Says Value.node Value.canonical v)
  | .name (.rule x) => by
    refine Value.yields_of ((yields_nonterminal x).imp ?_) (by decide)
    rintro _ ⟨y, hy, rfl⟩
    exact ⟨.name (.rule y), by simp [Value.canonical, Name.canonical, hy], rfl⟩
  | .name (.terminal x) => by
    refine Value.yields_of ((yields_terminal x).imp ?_) (by decide)
    rintro _ ⟨y, hy, rfl⟩
    exact ⟨.name (.terminal y), by simp [Value.canonical, Name.canonical, hy], rfl⟩
  | .string x => by
    refine Value.yields_of ((x.yields_first (p := .literal) rfl (by decide) rfl rfl).imp ?_)
      (by decide)
    rintro _ ⟨y, hy, rfl⟩
    exact ⟨.string y, by simp [Value.canonical, hy], rfl⟩
  | .regexp x => by
    refine Value.yields_of ((x.yields_first (p := .literal) rfl (by decide) rfl rfl).imp ?_)
      (by decide)
    rintro _ ⟨y, hy, rfl⟩
    exact ⟨.regexp y, by simp [Value.canonical, hy], rfl⟩
  | .range e first last => Value.yields_of (yields_range e first last) (by decide)
  | .usage e rule arguments =>
    Value.yields_of (yields_usage e rule arguments (Values.yields_all arguments)) (by decide)

theorem Values.yields_all : ∀ (vs : Values), ∀ v ∈ vs.toList,
    Yields true (.phrase .value) (words v.chunks) (Says Value.node Value.canonical v)
  | .one v => by
    have hv := Value.yields v
    exact List.forall_mem_singleton.mpr hv
  | .cons v vs => by
    have hv := Value.yields v
    have hvs := Values.yields_all vs
    exact List.forall_mem_cons.mpr ⟨hv, hvs⟩

theorem Atom.yields : ∀ x : Atom,
    Yields true (.phrase .atom) (words x.chunks) (Says Atom.node Atom.canonical x)
  | .value v => by
    refine (Yields.single (yieldsAll_single (Value.yields v)) (by decide) rfl).imp ?_
    rintro _ ⟨u, hu, rfl⟩
    exact ⟨.value u, by simp [Atom.canonical, hu], rfl⟩
  | .group body => yields_group body (Alternatives.yields_all body)
  | .maybe e body => Yields.single
    (yieldsAll_single (yields_maybe e body (Alternatives.yields_all body))) (by decide) rfl

theorem Expr.yields : ∀ x : Expr,
    Yields true (.phrase .expr) (words x.chunks) (Says Expr.node Expr.canonical x)
  | .mk e atom count => Expr.yields_of e atom count (Atom.yields atom)

theorem Exprs.yields_all : ∀ (xs : Exprs), ∀ x ∈ xs.toList,
    Yields true (.phrase .expr) (words x.chunks) (Says Expr.node Expr.canonical x)
  | .nil => by simp [Exprs.toList]
  | .cons x xs => by
    have hx := Expr.yields x
    have hxs := Exprs.yields_all xs
    exact List.forall_mem_cons.mpr ⟨hx, hxs⟩

theorem Alternative.yields : ∀ a : Alternative, Yields false (.phrase .aliasing)
    (words a.chunks) (Says Alternative.node Alternative.canonical a)
  | .plain e xs => yields_plain e xs (Exprs.yields_all xs)
  | .named e inner xs name => yields_named e inner xs name (Exprs.yields_all xs)

theorem Alternatives.yields_all : ∀ (as : Alternatives), ∀ a ∈ as.toList,
    Yields false (.phrase .aliasing) (words a.chunks)
      (Says Alternative.node Alternative.canonical a)
  | .one a => by
    have ha := Alternative.yields a
    exact List.forall_mem_singleton.mpr ha
  | .cons a as => by
    have ha := Alternative.yields a
    have has := Alternatives.yields_all as
    exact List.forall_mem_cons.mpr ⟨ha, has⟩

end

/-! ## Names -/

theorem Name.yields (x : Name) :
    Yields true (.phrase .name) [x.key] (Says Name.node Name.canonical x) := by
  cases x with
  | rule x =>
    refine (Yields.single (yieldsAll_single (x.yields rfl)) (by decide) rfl).imp ?_
    rintro _ ⟨y, hy, rfl⟩
    exact ⟨.rule y, by simp [Name.canonical, hy], rfl⟩
  | terminal x =>
    refine (Yields.single (yieldsAll_single (x.yields rfl)) (by decide) rfl).imp ?_
    rintro _ ⟨y, hy, rfl⟩
    exact ⟨.terminal y, by simp [Name.canonical, hy], rfl⟩

theorem Name.yields_symbol (x : Name) :
    Yields true (.phrase .symbol) [x.key] (Says Name.node Name.canonical x) := by
  cases x with
  | rule x =>
    refine (Yields.single (yieldsAll_single (yields_nonterminal x)) (by decide) rfl).imp ?_
    rintro _ ⟨y, hy, rfl⟩
    exact ⟨.rule y, by simp [Name.canonical, hy], rfl⟩
  | terminal x =>
    refine (Yields.single (yieldsAll_single (yields_terminal x)) (by decide) rfl).imp ?_
    rintro _ ⟨y, hy, rfl⟩
    exact ⟨.terminal y, by simp [Name.canonical, hy], rfl⟩

theorem yields_declareArgs (x : Name) (xs : List Name) :
    Yields true (.phrase .declareArgs) (words (x.chunk :: xs.flatMap fun y => [.gap, y.chunk]))
      (SaysAll Name.node Name.canonical (x :: xs)) := by
  have hone : Yields true (.phrase .declareArgs) [x.key] (SaysAll Name.node Name.canonical [x]) :=
    (Yields.spliced (yieldsAll_single x.yields_symbol) (by decide) rfl).imp fun _ => Says.saysAll
  have hall := hone.extend xs (r := [.phrase .symbol]) (by decide) rfl
    (fun y _ => yieldsAll_single y.yields_symbol) fun _ _ => guarded_true _
  simpa [words_flatMap] using hall

theorem words_listed {α : Type} {chunk : α → Chunk} {key : α → Terminal × List Char}
    (h : ∀ a cs, words (chunk a :: cs) = key a :: words cs) (a : α) (as : List α) :
    words (listed (chunk a) (as.map chunk)) =
      joined (fun b => [key b]) (.comma, fixedText .comma) (a :: as) := by
  simp [listed, h, joined, words_flatMap, List.flatMap_map]

theorem yields_nameList (x : Name) (xs : List Name) :
    Yields true (.phrase .nameList) (words (listed x.chunk (xs.map Name.chunk))) fun ns =>
      ∃ (y : Name) (ys : List Name), y.canonical = x.canonical ∧
        ys.map Name.canonical = xs.map Name.canonical ∧
        ns = [.list ((y :: ys).map Name.node)] := by
  have hnames : Yields true (.phrase .names)
      (joined (fun y : Name => [y.key]) (.comma, fixedText .comma) (x :: xs))
      (SaysAll Name.node Name.canonical (x :: xs)) :=
    yields_joined (by decide) (by decide) rfl ⟨rfl, rfl⟩ (List.cons_ne_nil _ _)
      fun y _ => y.yields
  rw [words_listed Name.words_chunk]
  refine Yields.tree (yieldsAll_single hnames) (by decide) rfl rfl ?_
  rintro e _ ⟨ys, hys, rfl⟩
  obtain ⟨y, ys, rfl, hy, hys⟩ := List.map_eq_cons_iff.mp hys
  exact ⟨_, rfl, y, ys, hy, hys, rfl⟩

theorem yields_templateParams (xs : List (Word .ruleName)) :
    Yields true (.phrase .templateParams) (words (parameterChunks xs)) fun ns =>
      ∃ (n : Node) (ys : List (Word .ruleName)), ns = [n] ∧
        ys.map Word.canonical = xs.map Word.canonical ∧
        n.orElse (.list []) = .list (ys.map Word.node) := by
  cases xs with
  | nil =>
    refine Yields.tree yieldsAll_nil (by decide) rfl rfl ?_
    rintro e _ rfl
    exact ⟨.absent, rfl, .absent, [], rfl, rfl, rfl⟩
  | cons x xs =>
    have hnames : Yields true (.phrase .templateParamNames)
        (joined (fun y : Word .ruleName => [(.ruleName, y.text)]) (.comma, fixedText .comma)
          (x :: xs)) (SaysAll Word.node Word.canonical (x :: xs)) :=
      yields_joined (by decide) (by decide) rfl ⟨rfl, rfl⟩ (List.cons_ne_nil _ _)
        fun y _ => y.yields rfl
    have hclosed : YieldsAll true _ _ _ := yieldsAll_then hnames
      (yieldsAll_closing (t := .rightBrace) rfl (fixedText .rightBrace)) (guarded_true _)
    have hparts := yieldsAll_silent (t := .leftBrace) (v := fixedText .leftBrace) rfl hclosed
    have hwords := words_listed (fun y cs => Word.words_chunk y cs) x xs
    rw [parameterChunks, words_fixed, words_append, hwords]
    refine Yields.tree hparts (by decide) rfl rfl ?_
    rintro e _ ⟨ys, hys, rfl⟩
    obtain ⟨y, ys, rfl, hy, hys⟩ := List.map_eq_cons_iff.mp hys
    exact ⟨_, rfl, _, y :: ys, rfl, by simp [hy, hys], rfl⟩

/-! ## Imports -/

theorem Path.words_chunks (p : Path) : words p.chunks =
    (if p.relative then [(.dot, fixedText .dot)] else []) ++
      joined (fun x : Name => [x.key]) (.dot, fixedText .dot) (p.init ++ [p.last]) := by
  have hinit : ∀ xs : List Name,
      words (xs.flatMap (fun x => [x.chunk, fixed .dot]) ++ [p.last.chunk]) =
        joined (fun x : Name => [x.key]) (.dot, fixedText .dot) (xs ++ [p.last]) := by
    intro xs
    induction xs with
    | nil => simp [joined]
    | cons x xs ih =>
      rw [List.cons_append, joined_cons x (by simp), ← ih]
      simp
  rw [Path.chunks, words_append, hinit]
  cases p.relative <;> rfl

theorem Path.yields (p : Path) :
    Yields true (.phrase .importPath) (words p.chunks) fun ns =>
      ∃ q : Path, q.canonical = p.canonical ∧ ns = [.list [.text q.text, q.last.node]] := by
  have hnames : Yields true (.phrase .importArgs)
      (joined (fun x : Name => [x.key]) (.dot, fixedText .dot) (p.init ++ [p.last]))
      (SaysAll Name.node Name.canonical (p.init ++ [p.last])) :=
    yields_joined (by decide) (by decide) rfl ⟨rfl, rfl⟩ (by simp) fun x _ => x.yields
  have hsplit : ∀ ys : List Name, ys.map Name.canonical = (p.init ++ [p.last]).map Name.canonical →
      ∃ zs z, ys = zs ++ [z] ∧ (⟨p.relative, zs, z⟩ : Path).canonical = p.canonical := by
    intro ys hys
    rw [List.map_append] at hys
    obtain ⟨zs, l, rfl, hzs, hl⟩ := List.map_eq_append_iff.mp hys
    obtain ⟨z, rfl, hz⟩ := List.map_eq_singleton_iff.mp hl
    exact ⟨zs, z, rfl, by simp [Path.canonical, hzs, hz]⟩
  rw [p.words_chunks]
  cases hrelative : p.relative with
  | false =>
    refine Yields.spliced (yieldsAll_single (Yields.tree (yieldsAll_single hnames) (p := .importLib)
      (by decide) rfl rfl ?_)) (by decide) rfl
    rintro e _ ⟨ys, hys, rfl⟩
    obtain ⟨zs, z, rfl, hcanonical⟩ := hsplit ys hys
    refine ⟨_, importSource_names "" zs z, _, hcanonical, ?_⟩
    rw [Path.text, hrelative]
    rfl
  | true =>
    refine Yields.spliced (yieldsAll_single (Yields.tree (yieldsAll_silent (t := .dot) rfl
      (yieldsAll_single hnames)) (p := .importRel) (by decide) rfl rfl ?_)) (by decide) rfl
    rintro e _ ⟨ys, hys, rfl⟩
    obtain ⟨zs, z, rfl, hcanonical⟩ := hsplit ys hys
    refine ⟨_, importSource_names "." zs z, _, hcanonical, ?_⟩
    rw [Path.text, hrelative]
    rfl

theorem Source.yields (indent : String) (e : Option Extent) (x : Source) :
    Yields true (.phrase .imports) (words ((Statement.imports e x).chunks indent))
      (Says Statement.node Statement.canonical (.imports e x)) := by
  rw [Statement.chunks, words_fixed, words_gap]
  cases x with
  | whole path =>
    refine Yields.tree (yieldsAll_silent rfl (yieldsAll_single path.yields)) (by decide) rfl rfl ?_
    rintro e' _ ⟨q, hq, rfl⟩
    exact ⟨_, rfl, .imports e' (.whole q), by simp [Statement.canonical, Source.canonical, hq], rfl⟩
  | renamed path name =>
    have hname := yieldsAll_silent (t := .arrow) (v := fixedText .arrow) rfl
      (yieldsAll_single name.yields)
    have hwords : words (Source.renamed path name).chunks =
        words path.chunks ++ [(.arrow, fixedText .arrow), name.key] := by simp [Source.chunks]
    rw [hwords]
    refine Yields.tree (yieldsAll_silent rfl (yieldsAll_cons path.yields hname (guarded_true _)))
      (by decide) rfl rfl ?_
    rintro e' _ ⟨_, _, ⟨q, hq, rfl⟩, ⟨y, hy, rfl⟩, rfl⟩
    exact ⟨_, makeImport_renamed q y, .imports e' (.renamed q y),
      by simp [Statement.canonical, Source.canonical, hq, hy], rfl⟩
  | listed path first more =>
    have hnames : YieldsAll true _ _ _ := yieldsAll_then (yields_nameList first more)
      (yieldsAll_closing (t := .rightParen) rfl (fixedText .rightParen)) (guarded_true _)
    have hclosed := yieldsAll_silent (t := .leftParen) (v := fixedText .leftParen) rfl hnames
    have hwords : words (Source.listed path first more).chunks =
        words path.chunks ++ (.leftParen, fixedText .leftParen) ::
          (words (Typed.listed first.chunk (more.map Name.chunk)) ++
            [(.rightParen, fixedText .rightParen)]) := by simp [Source.chunks]
    rw [hwords]
    refine Yields.tree (yieldsAll_silent rfl (yieldsAll_cons path.yields hclosed (guarded_true _)))
      (by decide) rfl rfl ?_
    rintro e' _ ⟨_, _, ⟨q, hq, rfl⟩, ⟨y, ys, hy, hys, rfl⟩, rfl⟩
    exact ⟨_, makeImport_listed q y ys, .imports e' (.listed q y ys),
      by simp [Statement.canonical, Source.canonical, hq, hy, hys], rfl⟩

/-! ## Definitions -/

theorem Alternatives.yields_stack (indent : String) (as : Alternatives) :
    Yields false (.phrase .expansions) (words (as.stack indent)) fun ns =>
      ∃ bs : Alternatives, bs.canonical = as.canonical ∧ ns = [.list bs.nodes] := by
  rw [as.words_stack]
  exact as.yields (Or.inr rfl) as.yields_all

theorem yields_ruleModifiers (signs : Option (Word .modifiers)) :
    Yields true (.phrase .ruleModifiers) (words (signChunks signs)) fun ns =>
      ∃ (n : Node) (signs' : Option (Word .modifiers)), ns = [n] ∧
        signs'.map Word.canonical = signs.map Word.canonical ∧
        n.orElse (.list []) =
          .list ((signChars signs').map fun c => .text (String.singleton c)) := by
  cases signs with
  | none =>
    refine Yields.tree yieldsAll_nil (by decide) rfl rfl ?_
    rintro e _ rfl
    exact ⟨.absent, rfl, .absent, none, rfl, rfl, rfl⟩
  | some x =>
    refine Yields.tree (yieldsAll_single (x.yields rfl)) (by decide) rfl rfl ?_
    rintro e _ ⟨y, hy, rfl⟩
    refine ⟨.list (Node.letters (String.ofList y.text)), ?_, _, some y, rfl, by simp [hy], ?_⟩
    · simp only [Node.Conversion.ofPhrase, y.leadingValue_node]
    · obtain ⟨c, cs, hcs⟩ := List.exists_cons_of_ne_nil y.text_ne_nil
      simp [Node.orElse, Node.isPresent, Node.letters, signChars, hcs]

def Priority.word (p : Priority) : Word .number :=
  .ofText .number (Text.numeral p.value) (Text.isRun_numeral p.value).ne_nil
    (Text.isRun_numeral p.value)

theorem yields_priority (p : Priority) :
    Yields true (.phrase .priority) (words p.chunks) fun ns =>
      ∃ n : Node, ns = [n] ∧ n.orElse (.number 0) = .number p.value := by
  rw [Priority.chunks]
  split
  · rename_i hzero
    refine Yields.tree yieldsAll_nil (by decide) rfl rfl ?_
    rintro e _ rfl
    exact ⟨.absent, rfl, .absent, rfl, by rw [hzero]; rfl⟩
  · rename_i hne
    refine Yields.tree (yieldsAll_silent rfl (yieldsAll_single (p.word.yields rfl))) (by decide) rfl
      rfl ?_
    rintro e _ ⟨x, hx, rfl⟩
    have htext : x.text = Text.numeral p.value := congrArg Word.text hx
    refine ⟨.number p.value, ?_, _, rfl, by simp [Node.orElse, Node.isPresent, hne]⟩
    simp only [Node.Conversion.ofPhrase, x.leadingValue_node, htext,
      Text.readInteger_numeral p.length_le]

theorem yields_rule (indent : String) (e : Option Extent) (signs : Option (Word .modifiers))
    (name : Word .ruleName) (parameters : List (Word .ruleName)) (priority : Priority)
    (body : Alternatives) :
    Yields false (.phrase .rule)
      (words ((Definition.rule e signs name parameters priority body).chunks indent))
      (Says Definition.node Definition.canonical
        (.rule e signs name parameters priority body)) := by
  have hbody := yieldsAll_silent (t := .colon) (v := fixedText .colon) rfl
    (yieldsAll_single (body.yields_stack indent))
  have hparts := yieldsAll_cons (yields_ruleModifiers signs) (yieldsAll_cons (name.yields rfl)
    (yieldsAll_cons (yields_templateParams parameters) (yieldsAll_cons (yields_priority priority)
      hbody (guarded_true _)) (guarded_true _)) (guarded_true _)) (guarded_true _)
  have hwords : words ((Definition.rule e signs name parameters priority body).chunks indent) =
      words (signChunks signs) ++ ([(.ruleName, name.text)] ++
        (words (parameterChunks parameters) ++ (words priority.chunks ++
          (.colon, fixedText .colon) :: words (body.stack indent)))) := by
    simp [Definition.chunks]
  rw [hwords]
  refine Yields.tree hparts (by decide) rfl rfl ?_
  rintro e' _ ⟨_, _, ⟨marks, signs', rfl, hsigns, hmarks⟩, ⟨_, _, ⟨x, hx, rfl⟩, ⟨_, _,
    ⟨params, ps, rfl, hps, hparams⟩, ⟨_, _, ⟨prior, rfl, hprior⟩, ⟨bs, hbs, rfl⟩, rfl⟩, rfl⟩,
    rfl⟩, rfl⟩
  exact ⟨_, make_rule hmarks hparams hprior x bs, .rule e' signs' x ps priority bs,
    by simp [Definition.canonical, hsigns, hx, hps, hbs], rfl⟩

theorem yields_term (indent : String) (e : Option Extent) (name : Word .terminalName)
    (priority : Option (Word .number)) (body : Alternatives) :
    Yields false (.phrase .term) (words ((Definition.term e name priority body).chunks indent))
      (Says Definition.node Definition.canonical (.term e name priority body)) := by
  have hbody := yieldsAll_silent (t := .colon) (v := fixedText .colon) rfl
    (yieldsAll_single (body.yields_stack indent))
  cases priority with
  | none =>
    refine Yields.tree (yieldsAll_cons (name.yields rfl) hbody (guarded_true _)) (by decide) rfl
      rfl ?_
    rintro e' _ ⟨_, _, ⟨x, hx, rfl⟩, ⟨bs, hbs, rfl⟩, rfl⟩
    exact ⟨_, make_term_plain x bs, .term e' x none bs,
      by simp [Definition.canonical, hx, hbs], rfl⟩
  | some number =>
    have hnumber := yieldsAll_silent (t := .dot) (v := fixedText .dot) rfl
      (yieldsAll_cons (number.yields rfl) hbody (guarded_true _))
    refine Yields.tree (yieldsAll_cons (name.yields rfl) hnumber (guarded_true _)) (by decide) rfl
      rfl ?_
    rintro e' _ ⟨_, _, ⟨x, hx, rfl⟩, ⟨_, _, ⟨y, hy, rfl⟩, ⟨bs, hbs, rfl⟩, rfl⟩, rfl⟩
    exact ⟨_, make_term_priority x y bs, .term e' x (some y) bs,
      by simp [Definition.canonical, hx, hy, hbs], rfl⟩

/-! ## Statements and files -/

theorem Statement.yields_of {p : Phrase} {s : Statement} {w : List (Terminal × List Char)}
    (h : Yields false (.phrase p) w (Says Statement.node Statement.canonical s))
    (hq : ⟨.item, [.phrase p]⟩ ∈ Production.all) :
    Yields false (.phrase .item) w (Says Statement.node Statement.canonical s) :=
  Yields.spliced (yieldsAll_single h) hq rfl

theorem yields_definition {p : Phrase} {d : Definition} {w : List (Terminal × List Char)}
    (h : Yields false (.phrase p) w (Says Definition.node Definition.canonical d))
    (hq : ⟨.item, [.phrase p]⟩ ∈ Production.all) :
    Yields false (.phrase .item) w (Says Statement.node Statement.canonical (.definition d)) := by
  refine Statement.yields_of (h.imp ?_) hq
  rintro _ ⟨d', hd, rfl⟩
  exact ⟨.definition d', by simp [Statement.canonical, hd], rfl⟩

theorem yields_extend {p : Phrase} {d : Definition} {w : List (Terminal × List Char)}
    (e : Option Extent)
    (h : Yields false (.phrase p) w (Says Definition.node Definition.canonical d))
    (hq : ⟨.extend, [.terminal .extendWord, .phrase p]⟩ ∈ Production.all) :
    Yields false (.phrase .item) ((.extendWord, fixedText .extendWord) :: w)
      (Says Statement.node Statement.canonical (.extend e d)) := by
  refine Statement.yields_of (Yields.tree (p := .extend) (yieldsAll_silent rfl (yieldsAll_single h))
    hq rfl rfl ?_) (by decide)
  rintro e' _ ⟨d', hd, rfl⟩
  exact ⟨_, rfl, .extend e' d', by simp [Statement.canonical, hd], rfl⟩

theorem yields_ignore (indent : String) (e : Option Extent) (body : Alternatives) :
    Yields false (.phrase .item) (words ((Statement.ignore e body).chunks indent))
      (Says Statement.node Statement.canonical (.ignore e body)) := by
  refine Statement.yields_of (Yields.tree (p := .ignore) (yieldsAll_silent rfl
    (yieldsAll_single (body.yields_stack Layout.usualIndent))) (by decide) rfl rfl ?_) (by decide)
  rintro e' _ ⟨bs, hbs, rfl⟩
  refine ⟨(Statement.ignore e' bs).node, ?_, .ignore e' bs, by simp [Statement.canonical, hbs], rfl⟩
  change ((Node.list bs.nodes).expansionsOf >>= fun expansions =>
    pure (Node.ignore e' expansions)) = _
  rw [expansionsOf_list]
  rfl

theorem yields_declare (indent : String) (e : Option Extent) (first : Name) (more : List Name) :
    Yields false (.phrase .item) (words ((Statement.declare e first more).chunks indent))
      (Says Statement.node Statement.canonical (.declare e first more)) := by
  refine Statement.yields_of (Yields.tree (p := .declare) (yieldsAll_silent rfl
    (yieldsAll_single (yields_declareArgs first more).weaken)) (by decide) rfl rfl ?_) (by decide)
  rintro e' _ ⟨ys, hys, rfl⟩
  obtain ⟨y, ys, rfl, hy, hys⟩ := List.map_eq_cons_iff.mp hys
  exact ⟨_, rfl, .declare e' y ys, by simp [Statement.canonical, hy, hys], rfl⟩

theorem yields_comment (indent : String) (e : Option Extent) (x : Word .comment) :
    Yields false (.phrase .item) (words ((Statement.comment e x).chunks indent))
      (Says Statement.node Statement.canonical (.comment e x)) := by
  refine Statement.yields_of (Yields.tree (p := .comment)
    (yieldsAll_single ((trimmedComment x).yields rfl).weaken) (by decide) rfl rfl ?_) (by decide)
  rintro e' _ ⟨y, hy, rfl⟩
  refine ⟨_, rfl, .comment e' y, ?_, rfl⟩
  have htext : y.text = Text.stripChars x.text := congrArg Word.text hy
  have hstrip := Text.stripChars_solid (solid_stripChars_of_isComment x.spells)
  simp only [Statement.canonical, trimmedComment, htext, hstrip]

theorem Statement.yields (indent : String) (s : Statement) (hs : s.Faithful) :
    Yields false (.phrase .item) (words (s.chunks indent))
      (Says Statement.node Statement.canonical s) := by
  match s with
  | .definition (.rule e signs name parameters priority body) =>
    exact yields_definition (yields_rule indent e signs name parameters priority body) (by decide)
  | .definition (.term e name priority body) =>
    exact yields_definition (yields_term indent e name priority body) (by decide)
  | .override _ _ => exact absurd hs id
  | .extend e (.rule e' signs name parameters priority body) =>
    exact yields_extend e (yields_rule Layout.usualIndent e' signs name parameters priority body)
      (by decide)
  | .extend e (.term e' name priority body) =>
    exact yields_extend e (yields_term Layout.usualIndent e' name priority body) (by decide)
  | .ignore e body => exact yields_ignore indent e body
  | .declare e first more => exact yields_declare indent e first more
  | .imports e source => exact Statement.yields_of (source.yields indent e).weaken (by decide)
  | .comment e x => exact yields_comment indent e x

/-- A new line says nothing, and after it a name may follow. -/
theorem yields_newline {P : List Node → Prop} {w : List (Terminal × List Char)}
    (h : Yields false (.phrase .list) w P) :
    Yields true (.phrase .list) (w ++ [(.newline, fixedText .newline)]) P := by
  have hitem : Yields true (.phrase .item) [(.newline, fixedText .newline)] (· = []) :=
    Yields.spliced (yieldsAll_closing (t := .newline) rfl (fixedText .newline)) (by decide) rfl
  exact Yields.spliced (yieldsAll_then h (yieldsAll_single hitem) (Or.inr rfl)) (by decide) rfl

theorem yields_list (indent : String) {w : List (Terminal × List Char)} {done : List Statement}
    (hdone : Yields false (.phrase .list) w (SaysAll Statement.node Statement.canonical done))
    (ss : List Statement) (hss : ∀ s ∈ ss, s.Faithful) :
    Yields false (.phrase .list) (w ++ words (chunksAfter indent ss))
      (SaysAll Statement.node Statement.canonical (done ++ ss)) := by
  induction ss generalizing w done with
  | nil => simpa [chunksAfter] using hdone
  | cons s ss ih =>
    obtain ⟨hs, hss⟩ := List.forall_mem_cons.mp hss
    have hstep := Yields.spliced (p := .list) (yieldsAll_cons (yields_newline hdone)
      (yieldsAll_single (s.yields indent hs)) (guarded_true _)) (by decide) rfl
    have hsnoc : Yields false (.phrase .list)
        (w ++ [(.newline, fixedText .newline)] ++ words (s.chunks indent))
        (SaysAll Statement.node Statement.canonical (done ++ [s])) := by
      refine hstep.imp ?_
      rintro _ ⟨_, _, ⟨ts, hts, rfl⟩, ⟨t, ht, rfl⟩, rfl⟩
      exact ⟨ts ++ [t], by simp [hts, ht], by simp⟩
    simpa [chunksAfter] using ih hsnoc hss

/-- A file that is written is parsed as one that says the same. -/
theorem yields_file (indent : String) (s : Statement) (ss : List Statement)
    (h : ∀ t ∈ s :: ss, t.Faithful) :
    Yields false (.phrase .start) (words (fileChunks indent s ss)) fun ns =>
      ∃ (e : Option Extent) (ts : List Statement),
        ts.map Statement.canonical = (s :: ss).map Statement.canonical ∧
        ns = [.file e (ts.map Statement.node)] := by
  obtain ⟨hs, hss⟩ := List.forall_mem_cons.mp h
  have hone : Yields false (.phrase .list) (words (s.chunks indent))
      (SaysAll Statement.node Statement.canonical [s]) :=
    (Yields.spliced (yieldsAll_single (s.yields indent hs)) (by decide) rfl).imp
      fun _ => Says.saysAll
  rw [fileChunks, words_append]
  refine Yields.tree (yieldsAll_single (yields_list indent hone ss hss)) (by decide) rfl rfl ?_
  rintro e _ ⟨ts, hts, rfl⟩
  refine ⟨_, rfl, e, ts, hts, ?_⟩
  rw [filter_isPart_nodes]

end GrammarServer.Typed
