import GrammarServer.Proofs.Layout.RoundTrip
import GrammarServer.Proofs.Node.Statements
import GrammarServer.Proofs.Node.Unplaced
import GrammarServer.Proofs.Symbol.Mentioned
import GrammarServer.Proofs.Typed.Total

/-!
# What becomes of the path of an import

An import statement names a module by a dotted path, and what it takes from there. If it lists the
names in parentheses, its node is built with the last two parts of the path run together. If it does
not, and its path is a single name, then there is nothing in front of the name but perhaps a dot;
the layout puts one more dot there, and what is read from it is another import or none.
-/
namespace GrammarServer

def Node.importParts : Node → Option (Option String × List (Option String) × Option String)
  | .imports _ path (.list symbols) given => some (path.text?, symbols.map text?, given.text?)
  | _ => none

/-- The layout of a node is read as a single import of the same parts. -/
def Node.IsReadAgain (indent : String) (n : Node) : Prop :=
  ∃ text file m, Layout.text indent n = .ok text ∧ ofSource text = .ok file ∧
    file.statements = [m] ∧ m.importParts = n.importParts

/-- What an import statement says. -/
structure WrittenImport where
  /-- Whether the path starts with a dot. -/
  relative : Bool
  path : List String
  /-- The names in parentheses, if there are parentheses. -/
  listed : Option (List String)
  newName : Option String

namespace WrittenImport

def namesIn (xs : List Lexeme) : List String :=
  (xs.filter fun x => Derivation.isName x.terminal).map fun x => String.ofList x.text

def endsPath (x : Lexeme) : Bool := x.terminal == .leftParen || x.terminal == .arrow

/-- Read off the lexemes up to the end of the path, and off the others. -/
def ofParts (front rest : List Lexeme) : WrittenImport where
  relative := front.tail.head?.any (·.terminal == .dot)
  path := namesIn front
  listed := if rest.head?.any (·.terminal == .leftParen) then some (namesIn rest) else none
  newName := if rest.head?.any (·.terminal == .arrow) then (namesIn rest).head? else none

def ofLexemes (xs : List Lexeme) : WrittenImport :=
  ofParts (xs.takeWhile (!endsPath ·)) (xs.dropWhile (!endsPath ·))

def start (w : WrittenImport) : String := if w.relative then "." else ""

/-- The dotted path of the module. Without a list the last name is that of what is imported. -/
def module (w : WrittenImport) : String :=
  w.start ++ ".".intercalate (if w.listed.isSome then w.path else w.path.dropLast)

/-- The path in the node: the last name of the module in front of a list has no dot. -/
def nodePath (w : WrittenImport) : String :=
  w.start ++ ".".intercalate w.path.dropLast ++
    if w.listed.isSome then w.path.getLast?.getD "" else ""

def symbols (w : WrittenImport) : List String := w.listed.getD w.path.getLast?.toList

/-- With a list the module is named by one name, without a list by at least one. -/
def IsKept (w : WrittenImport) : Prop :=
  if w.listed.isSome then w.path.length = 1 else 2 ≤ w.path.length

instance (w : WrittenImport) : Decidable w.IsKept :=
  inferInstanceAs (Decidable (if w.listed.isSome then w.path.length = 1 else 2 ≤ w.path.length))

@[simp] theorem namesIn_nil : namesIn [] = [] := rfl

@[simp] theorem namesIn_append (xs ys : List Lexeme) :
    namesIn (xs ++ ys) = namesIn xs ++ namesIn ys := by
  simp [namesIn]

theorem namesIn_cons {x : Lexeme} (hx : Derivation.isName x.terminal = false) (xs : List Lexeme) :
    namesIn (x :: xs) = namesIn xs := by
  simp [namesIn, hx]

theorem ofLexemes_append {front rest : List Lexeme} (hfront : ∀ x ∈ front, endsPath x = false)
    (hrest : ∀ x ∈ rest.head?, endsPath x = true) :
    ofLexemes (front ++ rest) = ofParts front rest := by
  have hfront' : ∀ x ∈ front, (!endsPath x) = true := fun x hx => by simp [hfront x hx]
  have htake : rest.takeWhile (!endsPath ·) = [] ∧ rest.dropWhile (!endsPath ·) = rest := by
    cases rest with
    | nil => exact ⟨rfl, rfl⟩
    | cons x xs => simp [hrest x rfl]
  rw [ofLexemes, List.takeWhile_append_of_pos hfront', List.dropWhile_append_of_pos hfront',
    htake.1, htake.2, List.append_nil]

theorem nodePath_ne_empty {w : WrittenImport} (h : w.relative = true) : w.nodePath ≠ "" := by
  simp [nodePath, start, h]

/-- The path in the node is that of the module unless names are listed from a longer path. -/
theorem nodePath_eq_module_iff {w : WrittenImport} (hw : w.path ≠ []) :
    w.nodePath = w.module ↔ w.listed = none ∨ w.path.length = 1 := by
  obtain ⟨xs, x, hpath⟩ : ∃ xs x, w.path = xs ++ [x] :=
    ⟨_, _, (List.dropLast_concat_getLast hw).symm⟩
  cases hlisted : w.listed with
  | none => simp [nodePath, module, hlisted]
  | some ys =>
    have hlength : (xs ++ [x]).length = 1 ↔ xs = [] := by simp
    simp only [nodePath, module, hlisted, hpath, Option.isSome_some, if_true, List.dropLast_concat,
      List.getLast?_concat, Option.getD_some, hlength, reduceCtorEq, false_or]
    constructor
    · intro h
      by_contra hxs
      rw [String.intercalate_append_of_ne_nil hxs (List.cons_ne_nil x []),
        String.intercalate_singleton] at h
      have hlength := congrArg String.length h
      have hdot : ".".length = 1 := rfl
      simp only [String.length_append] at hlength
      omega
    · rintro rfl
      simp

end WrittenImport

open WrittenImport (namesIn endsPath)

theorem Node.importParts_unplaced (n : Node) : n.unplaced.importParts = n.importParts := by
  cases n with
  | imports e path symbols given =>
    cases symbols with
    | list ns => simp [unplaced, importParts, text?_unplaced, unplacedAll_eq_map]
    | _ => rfl
  | _ => rfl

namespace Derivation

/-! ## What stands in an import -/

def isPathPart : Symbol → Bool
  | .terminal t => t == .dot || isName t
  | .phrase p =>
    p == .importPath || p == .importLib || p == .importRel || p == .importArgs || p == .name

theorem isPathPart_right : ∀ q ∈ Production.all,
    isPathPart q.left = true → q.right.all isPathPart = true := by
  decide

def isDotted : Symbol → Bool
  | .terminal t => isName t
  | .phrase p => p == .importArgs || p == .name

theorem isDotted_right : ∀ q ∈ Production.all,
    isDotted q.left = true → q.right.head?.any isDotted = true := by
  decide

/-- What can stand in an import: neither two dots nor the end of a line. -/
def isInImport : Symbol → Bool
  | .terminal t => t != .dotDot && t != .newline
  | .phrase p => p == .imports || isImportPart p

theorem isInImport_right : ∀ q ∈ Production.all,
    isInImport q.left = true → q.right.all isInImport = true := by
  decide

def isInOther : Symbol → Bool
  | .terminal t => t != .importWord
  | .phrase p => p != .imports && !isListing p

theorem isInOther_right : ∀ q ∈ Production.all,
    isInOther q.left = true → q.right.all isInOther = true := by
  decide

/-- Only an import starts with its word. -/
theorem Makes.symbol_eq_imports {d : Derivation} {n : Node} (h : d.Makes n) {x : Lexeme}
    (hx : x ∈ d.lexemes) (hword : x.terminal = .importWord) : d.symbol = .phrase .imports := by
  obtain ⟨p, hp, hstatement⟩ := h.statement
  by_contra hne
  have hother : isInOther d.symbol = true := by
    rw [hp] at hne ⊢
    cases p <;> revert hstatement hne <;> decide
  have hall := forall_lexemes isInOther_right d h.valid hother x hx
  rw [hword] at hall
  cases hall

/-- In an import there are neither two dots nor the ends of lines. -/
theorem Makes.isInImport_lexemes {d : Derivation} {n : Node} (h : d.Makes n)
    (hd : d.symbol = .phrase .imports) :
    ∀ x ∈ d.lexemes, x.terminal ≠ .dotDot ∧ x.terminal ≠ .newline := by
  intro x hx
  have hall := forall_lexemes isInImport_right d h.valid (by rw [hd]; rfl) x hx
  simpa [isInImport] using hall

theorem eq_nil_of_builds_leaf {x : Lexeme} {e : Option Extent} {ns : List Node}
    (h : (leaf x).Builds e ns) (hx : x.terminal.isKept = false) : ns = [] := by
  rw [builds_leaf.mp h, if_neg (by simp [hx])]

theorem namesIn_lexemes {d : Derivation} {xs : List Typed.Name} (hvalid : d.Valid)
    (hpart : isImportPart d.symbol = true) (h : Typed.TellsNames d xs) :
    namesIn d.lexemes = xs.map fun x => String.ofList x.text := by
  have hnames : d.names = xs.map Typed.Name.lexeme :=
    (uses_of_isImportPart d hvalid hpart).1.symm.trans h.uses
  rw [namesIn, ← names, hnames, List.map_map]
  exact List.map_congr_left fun x _ => by cases x <;> rfl

end Derivation

namespace Typed

open Terminal Chunk

/-! ## Import statements -/

def Path.names (p : Path) : List String := (p.init ++ [p.last]).map fun x => String.ofList x.text

/-- The names of a path, and the dot of a relative one, as they stand in lexemes. -/
structure Path.StandsIn (p : Path) (xs : List Lexeme) : Prop where
  names : namesIn xs = p.names
  relative : xs.head?.any (·.terminal == .dot) = p.relative

namespace Source

def writing : Source → WrittenImport
  | whole path => ⟨path.relative, path.names, none, none⟩
  | renamed path name => ⟨path.relative, path.names, none, some (String.ofList name.text)⟩
  | listed path first more =>
    ⟨path.relative, path.names, some ((first :: more).map fun x => String.ofList x.text), none⟩

theorem path_writing_ne_nil (x : Source) : x.writing.path ≠ [] := by
  cases x <;> simp [writing, Path.names]

theorem importParts_node (e : Option Extent) (x : Source) : (x.node e).importParts =
    some (some x.writing.nodePath, x.writing.symbols.map some, x.writing.newName) := by
  have htext : ∀ s, (Node.text s).text? = some s := fun _ => rfl
  have habsent : Node.absent.text? = none := rfl
  cases x <;> simp [node, Node.importParts, writing, WrittenImport.nodePath, WrittenImport.start,
    WrittenImport.symbols, Path.names, Path.text, Name.text?_node, htext, habsent]

end Source

section

variable {d : Derivation} (hspelled : ∀ x ∈ d.lexemes, x.IsSpelled)

include hspelled

theorem exists_dotted (hvalid : d.Valid) (hd : d.symbol = .phrase .importArgs)
    {e : Option Extent} {ns : List Node} (h : d.Builds e ns) :
    ∃ (xs : List Name) (x : Name), ns = (xs ++ [x]).map Name.node ∧
      namesIn d.lexemes = (xs ++ [x]).map (fun x => String.ofList x.text) ∧
      d.lexemes.head?.any (·.terminal == .dot) = false := by
  have hsense := sense_of_builds d hvalid hspelled e ns h
  rw [hd] at hsense
  obtain ⟨xs, x, rfl, _, htells⟩ := hsense
  refine ⟨xs, x, rfl, Derivation.namesIn_lexemes hvalid (by rw [hd]; rfl) htells, ?_⟩
  have hhead := Derivation.head_lexemes Derivation.isDotted_right d hvalid (by rw [hd]; rfl)
  obtain ⟨y, hy, hname⟩ := (Option.any_eq_true _ _).mp hhead
  rw [hy, Option.any_some, beq_eq_false_iff_ne]
  intro hdot
  rw [hdot] at hname
  cases hname

theorem exists_path_of_importLib (hvalid : d.Valid) (hd : d.symbol = .phrase .importLib)
    {e : Option Extent} {ns : List Node} (h : d.Builds e ns) :
    ∃ p : Path, ns = [.list [.text p.text, p.last.node]] ∧ p.StandsIn d.lexemes := by
  obtain ⟨r, ds, rfl, hr, hspell, hds⟩ := Derivation.exists_parts hvalid hd
  obtain rfl := List.mem_singleton.mp hr
  obtain ⟨a, rfl, ha⟩ := List.map_eq_singleton_iff.mp hspell
  obtain ⟨_, n, ⟨ms, _, hms, rfl, rfl⟩, hn, rfl⟩ :=
    (Derivation.builds_node hspell rfl (by rintro ⟨⟩) rfl).mp h
  simp only [Derivation.lexemes, Derivation.lexemesOfAll, List.append_nil] at hspelled ⊢
  obtain ⟨xs, x, rfl, hnames, hdot⟩ := exists_dotted hspelled hds.1 ha hms
  rw [List.append_nil, Node.Conversion.ofPhrase, importSource_names] at hn
  cases hn
  exact ⟨⟨false, xs, x⟩, rfl, hnames, hdot⟩

theorem exists_path_of_importRel (hvalid : d.Valid) (hd : d.symbol = .phrase .importRel)
    {e : Option Extent} {ns : List Node} (h : d.Builds e ns) :
    ∃ p : Path, ns = [.list [.text p.text, p.last.node]] ∧ p.StandsIn d.lexemes := by
  obtain ⟨r, ds, rfl, hr, hspell, hds⟩ := Derivation.exists_parts hvalid hd
  obtain rfl := List.mem_singleton.mp hr
  obtain ⟨l, _, rfl, hl, htail⟩ := List.map_eq_cons_iff.mp hspell
  obtain ⟨a, rfl, ha⟩ := List.map_eq_singleton_iff.mp htail
  obtain ⟨y, rfl, hy⟩ := Derivation.exists_leaf hl
  obtain ⟨_, n, ⟨front, _, hfront, ⟨ms, _, hms, rfl, rfl⟩, rfl⟩, hn, rfl⟩ :=
    (Derivation.builds_node hspell rfl (by rintro ⟨⟩) rfl).mp h
  obtain rfl := Derivation.eq_nil_of_builds_leaf hfront (by rw [hy]; rfl)
  simp only [Derivation.lexemes, Derivation.lexemesOfAll, List.append_nil,
    List.singleton_append] at hspelled ⊢
  obtain ⟨xs, x, rfl, hnames, _⟩ :=
    exists_dotted (List.forall_mem_cons.mp hspelled).2 hds.2.1 ha hms
  rw [List.append_nil, List.nil_append, Node.Conversion.ofPhrase, importSource_names] at hn
  cases hn
  refine ⟨⟨true, xs, x⟩, rfl, ?_, by simp [hy]⟩
  exact (WrittenImport.namesIn_cons (by rw [hy]; rfl) _).trans hnames

theorem exists_path (hvalid : d.Valid) (hd : d.symbol = .phrase .importPath)
    {e : Option Extent} {ns : List Node} (h : d.Builds e ns) :
    ∃ p : Path, ns = [.list [.text p.text, p.last.node]] ∧ p.StandsIn d.lexemes := by
  obtain ⟨r, ds, rfl, hr, hspell, hds⟩ := Derivation.exists_parts hvalid hd
  have hparts := (Derivation.builds_spliced rfl).mp h
  obtain _ | ⟨_, _ | ⟨_, ⟨⟩⟩⟩ := hr
  all_goals
    obtain ⟨l, rfl, hl⟩ := List.map_eq_singleton_iff.mp hspell
    obtain ⟨ms, _, hms, rfl, rfl⟩ := hparts
    simp only [Derivation.lexemes, Derivation.lexemesOfAll, List.append_nil] at hspelled ⊢
  · exact exists_path_of_importLib hspelled hds.1 hl hms
  · exact exists_path_of_importRel hspelled hds.1 hl hms

end

theorem endsPath_of_path {d : Derivation} (hvalid : d.Valid) (hd : d.symbol = .phrase .importPath) :
    ∀ x ∈ d.lexemes, endsPath x = false := by
  intro x hx
  have hpart :=
    Derivation.forall_lexemes Derivation.isPathPart_right d hvalid (by rw [hd]; rfl) x hx
  rw [endsPath]
  revert hpart
  cases x.terminal <;> decide

/-- What an import says is said by its path and what follows it. -/
theorem ofLexemes_of_path {w : Lexeme} (hw : w.terminal = .importWord) {d : Derivation}
    (hvalid : d.Valid) (hd : d.symbol = .phrase .importPath) {p : Path}
    (hp : p.StandsIn d.lexemes) (rest : List Lexeme) (hrest : ∀ x ∈ rest.head?, endsPath x = true) :
    WrittenImport.ofLexemes (w :: (d.lexemes ++ rest)) =
      { WrittenImport.ofParts [] rest with relative := p.relative, path := p.names } := by
  have hfront : ∀ x ∈ w :: d.lexemes, endsPath x = false :=
    List.forall_mem_cons.mpr ⟨by simp [endsPath, hw], endsPath_of_path hvalid hd⟩
  rw [← List.cons_append, WrittenImport.ofLexemes_append hfront hrest, WrittenImport.ofParts,
    WrittenImport.namesIn_cons (by rw [hw]; rfl), hp.names, List.tail_cons, hp.relative]
  rfl

section

variable {ds : List Derivation} (hvalid : Derivation.AllValid ds)
  (hspelled : ∀ x ∈ Derivation.lexemesOfAll ds, x.IsSpelled)

include hvalid hspelled

theorem exists_listed
    (hspell : ds.map Derivation.symbol =
      [.terminal .leftParen, .phrase .nameList, .terminal .rightParen])
    {ns : List Node} (h : Derivation.BuildsAll none ds ns) :
    ∃ (x : Name) (xs : List Name) (y : Lexeme), ns = [.list ((x :: xs).map Name.node)] ∧
      (Derivation.lexemesOfAll ds).head? = some y ∧ y.terminal = .leftParen ∧
      namesIn (Derivation.lexemesOfAll ds) = (x :: xs).map fun x => String.ofList x.text := by
  obtain ⟨a, _, rfl, ha, htail⟩ := List.map_eq_cons_iff.mp hspell
  obtain ⟨b, _, rfl, hb, htail⟩ := List.map_eq_cons_iff.mp htail
  obtain ⟨c, rfl, hc⟩ := List.map_eq_singleton_iff.mp htail
  obtain ⟨y, rfl, hy⟩ := Derivation.exists_leaf ha
  obtain ⟨z, rfl, hz⟩ := Derivation.exists_leaf hc
  obtain ⟨_, _, hys, ⟨ms, _, hms, ⟨_, _, hzs, rfl, rfl⟩, rfl⟩, rfl⟩ := h
  obtain rfl := Derivation.eq_nil_of_builds_leaf hys (by rw [hy]; rfl)
  obtain rfl := Derivation.eq_nil_of_builds_leaf hzs (by rw [hz]; rfl)
  simp only [Derivation.lexemes, Derivation.lexemesOfAll, List.singleton_append,
    List.append_nil, List.forall_mem_cons, List.forall_mem_append] at hspelled ⊢
  have hsense := sense_of_builds b hvalid.2.1 hspelled.2.1 none ms hms
  rw [hb] at hsense
  obtain ⟨x, xs, rfl, htells⟩ := hsense
  refine ⟨x, xs, y, rfl, rfl, hy, ?_⟩
  rw [WrittenImport.namesIn_cons (by rw [hy]; rfl), WrittenImport.namesIn_append,
    WrittenImport.namesIn_cons (by rw [hz]; rfl), WrittenImport.namesIn_nil, List.append_nil]
  exact Derivation.namesIn_lexemes hvalid.2.1 (by rw [hb]; rfl) htells

theorem exists_renamed
    (hspell : ds.map Derivation.symbol = [.terminal .arrow, .phrase .name])
    {ns : List Node} (h : Derivation.BuildsAll none ds ns) :
    ∃ (x : Name) (y : Lexeme), ns = [x.node] ∧
      (Derivation.lexemesOfAll ds).head? = some y ∧ y.terminal = .arrow ∧
      namesIn (Derivation.lexemesOfAll ds) = [String.ofList x.text] := by
  obtain ⟨a, _, rfl, ha, htail⟩ := List.map_eq_cons_iff.mp hspell
  obtain ⟨b, rfl, hb⟩ := List.map_eq_singleton_iff.mp htail
  obtain ⟨y, rfl, hy⟩ := Derivation.exists_leaf ha
  obtain ⟨_, _, hys, ⟨ms, _, hms, rfl, rfl⟩, rfl⟩ := h
  obtain rfl := Derivation.eq_nil_of_builds_leaf hys (by rw [hy]; rfl)
  simp only [Derivation.lexemes, Derivation.lexemesOfAll, List.singleton_append,
    List.append_nil, List.forall_mem_cons] at hspelled ⊢
  have hsense := sense_of_builds b hvalid.2.1 hspelled.2 none ms hms
  rw [hb] at hsense
  obtain ⟨x, rfl, _, htells⟩ := hsense
  refine ⟨x, y, rfl, rfl, hy, ?_⟩
  rw [WrittenImport.namesIn_cons (by rw [hy]; rfl)]
  exact Derivation.namesIn_lexemes hvalid.2.1 (by rw [hb]; rfl) htells

end

def endings : List (List Symbol) :=
  [[], [.terminal .leftParen, .phrase .nameList, .terminal .rightParen],
    [.terminal .arrow, .phrase .name]]

/-- An import statement is built as what it says. -/
theorem exists_source {d : Derivation} {n : Node} (h : d.Makes n)
    (hd : d.symbol = .phrase .imports) : ∃ (e : Option Extent) (x : Source),
      n = x.node e ∧ WrittenImport.ofLexemes d.lexemes = x.writing := by
  obtain ⟨-, hvalid, hspelled, e, hbuilds⟩ := h
  obtain ⟨r, ds, rfl, hr, hspell, hds⟩ := Derivation.exists_parts hvalid hd
  obtain ⟨parts, _, hparts, hn, hsingle⟩ :=
    (Derivation.builds_node hspell rfl (by rintro ⟨⟩) rfl).mp hbuilds
  obtain rfl := (List.cons.inj hsingle).1
  obtain ⟨rest, rfl, hrest⟩ : ∃ rest, r = .terminal .importWord :: .phrase .importPath :: rest ∧
      rest ∈ endings := by
    obtain _ | ⟨_, _ | ⟨_, _ | ⟨_, ⟨⟩⟩⟩⟩ := hr <;> exact ⟨_, rfl, by decide⟩
  obtain ⟨l, _, rfl, hl, htail⟩ := List.map_eq_cons_iff.mp hspell
  obtain ⟨a, ds, rfl, ha, htail⟩ := List.map_eq_cons_iff.mp htail
  obtain ⟨w, rfl, hw⟩ := Derivation.exists_leaf hl
  obtain ⟨front, _, hfront, ⟨ms, others, hms, hothers, rfl⟩, rfl⟩ := hparts
  obtain rfl := Derivation.eq_nil_of_builds_leaf hfront (by rw [hw]; rfl)
  simp only [Derivation.lexemes, Derivation.lexemesOfAll, List.singleton_append,
    List.forall_mem_cons, List.forall_mem_append] at hspelled ⊢
  obtain ⟨-, hspelled, hspelled'⟩ := hspelled
  obtain ⟨-, hpath, hds⟩ := hds
  obtain ⟨p, rfl, hp⟩ := exists_path hspelled hpath ha hms
  have hwritten := ofLexemes_of_path hw hpath ha hp (Derivation.lexemesOfAll ds)
  obtain _ | ⟨_, _ | ⟨_, _ | ⟨_, ⟨⟩⟩⟩⟩ := hrest
  · obtain rfl := List.map_eq_nil_iff.mp htail
    obtain rfl : others = [] := hothers
    cases hn
    exact ⟨_, .whole p, rfl, hwritten (by rintro _ ⟨⟩)⟩
  · obtain ⟨x, xs, y, rfl, hhead, hy, hnames⟩ := exists_listed hds hspelled' htail hothers
    obtain rfl := Except.ok.inj ((makeImport_listed p x xs).symm.trans hn)
    refine ⟨_, .listed p x xs, rfl, ?_⟩
    rw [hwritten (by simp [hhead, endsPath, hy])]
    simp [WrittenImport.ofParts, hhead, hnames, hy, Source.writing]
  · obtain ⟨x, y, rfl, hhead, hy, hnames⟩ := exists_renamed hds hspelled' htail hothers
    obtain rfl := Except.ok.inj ((makeImport_renamed p x).symm.trans hn)
    refine ⟨_, .renamed p x, rfl, ?_⟩
    rw [hwritten (by simp [hhead, endsPath, hy])]
    simp [WrittenImport.ofParts, hhead, hnames, hy, Source.writing]

/-! ## Reading the layout -/

/-- What is read from a legible text is built from its words. -/
theorem exists_derivation_of_ofSource {cs : List Chunk} (hcs : Legible cs) {file : Node}
    (h : Node.ofSource (written cs) = .ok file) :
    ∃ d : Derivation, d.Valid ∧ d.symbol = .phrase .start ∧ (∀ x ∈ d.lexemes, x.IsSpelled) ∧
      d.lexemes.map Lexeme.key = words cs ∧ d.tree.build = .ok file := by
  rw [Node.ofSource] at h
  split at h
  case h_1 => cases h
  case h_2 d hstrict =>
    obtain ⟨hvalid, hstart, hlexemes⟩ := Parse.valid_of_strict hstrict
    refine ⟨d, hvalid, hstart, isSpelled_of_recovering (Parse.recovering_of_strict hstrict), ?_, ?_⟩
    · obtain ⟨xs, hpieces, hwords⟩ := Piece.exists_lexemes_of_legible cs hcs .origin
      rw [Piece.ofSource, written, String.toList_ofList, hpieces] at hlexemes
      rw [← List.map_injective_iff.mpr (fun _ _ => Piece.lexeme.inj) hlexemes, hwords]
    · split at h
      case h_1 hbuild => rw [hbuild, Except.ok.inj h]
      case h_2 => cases h

/-- If a text that starts with the word of an import is read as a single statement, then the import
is all of the text. -/
theorem exists_import_of_ofSource {cs : List Chunk} (hcs : Legible cs) {t : Terminal}
    {u v : List Char} {rest : List (Terminal × List Char)}
    (hwords : words cs = (.importWord, u) :: (t, v) :: rest) (ht : t ≠ .newline) {file m : Node}
    (h : Node.ofSource (written cs) = .ok file) (hfile : file.statements = [m]) :
    ∃ (d : Derivation) (x y : Lexeme) (ys : List Lexeme), d.Makes m ∧
      d.symbol = .phrase .imports ∧ d.lexemes = x :: y :: ys ∧ x.terminal = .importWord ∧
      y.terminal = t := by
  obtain ⟨d, hvalid, hstart, hspelled, hkeys, hbuild⟩ := exists_derivation_of_ofSource hcs h
  have hmakes := Derivation.forall₂_makes_statements hvalid hstart hspelled hbuild
  rw [hfile, List.forall₂_cons_right_iff] at hmakes
  obtain ⟨part, _, hpart, hnil, hparts⟩ := hmakes
  obtain rfl := List.forall₂_nil_right_iff.mp hnil
  rw [hwords] at hkeys
  obtain ⟨x, _, hlexemes, hx, hkeys⟩ := List.map_eq_cons_iff.mp hkeys
  obtain ⟨y, ys, rfl, hy, -⟩ := List.map_eq_cons_iff.mp hkeys
  replace hx : x.terminal = .importWord := congrArg Prod.fst hx
  replace hy : y.terminal = t := congrArg Prod.fst hy
  -- Whatever does not end a line stands in the only statement, which has the word of an import.
  have hlines := Derivation.inLines_lexemes_statements hvalid hstart
  rw [hparts, List.flatMap_singleton, hlexemes, Derivation.inLines_cons (by simp [hx]),
    Derivation.inLines_cons (by rwa [hy])] at hlines
  have hmem : x ∈ part.lexemes := List.mem_of_mem_filter (hlines ▸ List.mem_cons_self)
  have himports := hpart.symbol_eq_imports hmem hx
  rw [Derivation.inLines_eq_self fun z hz => (hpart.isInImport_lexemes himports z hz).2] at hlines
  exact ⟨part, x, y, _, hpart, himports, hlines.symm, hx, hy⟩

namespace Source

theorem isReadAgain_of_faithful (indent : String) (e : Option Extent) {x : Source}
    (hx : x.Faithful) : (x.node e).IsReadAgain indent := by
  have hindent : Terminal.IsIndent "" := by decide
  obtain ⟨e', ts, hread, hts⟩ :=
    ofSource_written hindent (.imports e x) [] (List.forall_mem_singleton.mpr hx)
  have hunplaced := unplaced_congr hts
  obtain ⟨t, rfl, _⟩ := List.map_eq_singleton_iff.mp hts
  rw [fileChunks, chunksAfter, List.flatMap_nil, List.append_nil] at hread
  refine ⟨_, _, t.node, x.layout indent e hx, hread, rfl, ?_⟩
  rw [← Node.importParts_unplaced, (List.cons.inj hunplaced).1, Node.importParts_unplaced]
  rfl

def single (relative : Bool) (last : Name) : Option Name → Source
  | none => .whole ⟨relative, [], last⟩
  | some name => .renamed ⟨relative, [], last⟩ name

/-- How it is laid out: with one dot more than it was written with. -/
def singleChunks (relative : Bool) (last : Name) (given : Option Name) : List Chunk :=
  fixed .importWord :: .gap :: fixed (if relative then .dotDot else .dot) :: last.chunk ::
    given.toList.flatMap fun name => [.gap, fixed .arrow, .gap, name.chunk]

theorem layout_single (indent : String) (e : Option Extent) (relative : Bool) (last : Name)
    (given : Option Name) : Layout.text indent ((single relative last given).node e) =
      .ok (written (singleChunks relative last given)) := by
  have hsolid : Text.Solid (Chunk.text (singleChunks relative last given)) := by
    cases given with
    | none =>
      have h := solid_import (' ' :: (if relative then dotDot else dot).fixedText) last.solid
      simpa [singleChunks] using h
    | some name =>
      have h := solid_import (' ' :: ((if relative then dotDot else dot).fixedText ++
        (last.text ++ [' ', '-', '>', ' ']))) name.solid
      simpa [singleChunks, fixedText] using h
  cases given with
  | none =>
    rw [single, Source.node, Layout.text]
    apply congrArg Except.ok
    apply strip_eq_written (a := []) (b := [' ']) hsolid _ (by simp) Text.isBlank_space
    cases relative <;> simp [toText_text, Name.toText_node, Path.text, singleChunks, fixedText,
      Node.isPresent]
  | some name =>
    rw [single, Source.node, Layout.text]
    apply congrArg Except.ok
    apply strip_eq_written (a := []) (b := [' ']) hsolid _ (by simp) Text.isBlank_space
    cases relative <;> simp [toText_text, Name.toText_node, Path.text, singleChunks, fixedText,
      name.isPresent_node]

theorem legible_single (relative : Bool) (last : Name) (given : Option Name) :
    Legible (singleChunks relative last given) := by
  have hlast : Legible (last.chunk ::
      given.toList.flatMap fun name => [.gap, fixed .arrow, .gap, name.chunk]) := by
    cases given with
    | none => exact last.legible trivial trivial
    | some name =>
      exact last.legible (legible_fixed (t := .arrow) rfl (name.legible trivial trivial))
        (breaks_gap _)
  apply legible_fixed (t := .importWord) rfl
  cases relative with
  | false => exact last.legible_dot hlast
  | true => exact legible_fixed (t := .dotDot) rfl hlast

/-- The layout of an import of a single name is not read as the same import. -/
theorem not_isReadAgain_single (indent : String) (e : Option Extent) (relative : Bool)
    (last : Name) (given : Option Name) :
    ¬ ((single relative last given).node e).IsReadAgain indent := by
  rintro ⟨text, file, m, hlayout, hread, hstatements, hparts⟩
  obtain rfl := Except.ok.inj ((layout_single indent e relative last given).symm.trans hlayout)
  have hdots : (if relative then dotDot else dot) ≠ .newline := by cases relative <;> decide
  obtain ⟨d, x, y, ys, hmakes, hd, hlexemes, hx, hy⟩ := exists_import_of_ofSource
    (legible_single relative last given) rfl hdots hread hstatements
  -- Two dots cannot stand in an import, so there is one, and the path has become relative.
  have hrelative : relative = false := by
    have hdot := (hmakes.isInImport_lexemes hd y (by simp [hlexemes])).1
    rw [hy] at hdot
    cases relative with
    | false => rfl
    | true => exact absurd rfl hdot
  subst hrelative
  obtain ⟨e', z, rfl, hz⟩ := exists_source hmakes hd
  have hstart : z.writing.relative = true := by
    rw [← hz, hlexemes]
    simp [WrittenImport.ofLexemes, WrittenImport.ofParts, endsPath, hx, hy]
  rw [importParts_node, importParts_node] at hparts
  have hpath := Option.some.inj (Prod.mk.inj (Option.some.inj hparts)).1
  apply WrittenImport.nodePath_ne_empty hstart
  rw [hpath]
  cases given <;> rfl

/-- An import that is kept is built as one whose layout is faithful. -/
theorem exists_faithful {x : Source} (hx : x.writing.IsKept) (e : Option Extent) :
    ∃ y : Source, y.Faithful ∧ x.node e = y.node e := by
  cases x with
  | whole p | renamed p name =>
    refine ⟨_, ?_, rfl⟩
    intro hinit
    simp [writing, WrittenImport.IsKept, Path.names, hinit] at hx
  | listed p first more =>
    have hinit : p.init = [] := by simpa [writing, WrittenImport.IsKept, Path.names] using hx
    cases more with
    | nil =>
      exact ⟨.whole ⟨p.relative, [p.last], first⟩, List.cons_ne_nil _ _, node_listed_nil hinit⟩
    | cons second more =>
      exact ⟨.listed p first (second :: more), ⟨hinit, List.cons_ne_nil _ _⟩, rfl⟩

theorem isReadAgain_iff_isKept (indent : String) (e : Option Extent) (x : Source) :
    x.writing.nodePath = x.writing.module ∧ (x.node e).IsReadAgain indent ↔ x.writing.IsKept := by
  rw [WrittenImport.nodePath_eq_module_iff x.path_writing_ne_nil]
  constructor
  · rintro ⟨hpath, hread⟩
    cases x with
    | whole p =>
      obtain ⟨relative, _ | ⟨y, ys⟩, last⟩ := p
      · exact absurd hread (not_isReadAgain_single indent e relative last none)
      · simp [writing, WrittenImport.IsKept, Path.names]
    | renamed p name =>
      obtain ⟨relative, _ | ⟨y, ys⟩, last⟩ := p
      · exact absurd hread (not_isReadAgain_single indent e relative last (some name))
      · simp [writing, WrittenImport.IsKept, Path.names]
    | listed p first more => simpa [writing, WrittenImport.IsKept] using hpath
  · intro hkept
    obtain ⟨y, hy, hnode⟩ := exists_faithful hkept e
    refine ⟨?_, hnode ▸ isReadAgain_of_faithful indent e hy⟩
    cases x with
    | whole p | renamed p name => exact Or.inl rfl
    | listed p first more => exact Or.inr hkept

end Source

end Typed

open Typed

/-- An import keeps its path, and is read again from its layout, exactly if the module is named by
one name in front of a list or by at least one without a list. -/
theorem Layout.import_kept_iff {source : String} (indent : String) {d : Derivation}
    (hparse : (Parse.recovering source).result = .ok d) :
    (d.HasReadablePriorities → ∃ file, d.tree.build = .ok file) ∧
    ∀ file, d.tree.build = .ok file →
      List.Forall₂ (fun part n => part.symbol = .phrase .imports →
        let w := WrittenImport.ofLexemes part.lexemes
        n.importParts = some (some w.nodePath, w.symbols.map some, w.newName) ∧
        (w.nodePath = w.module ↔ w.listed = none ∨ w.path.length = 1) ∧
        (w.nodePath = w.module ∧ n.IsReadAgain indent ↔ w.IsKept))
      d.statements file.statements := by
  refine ⟨exists_file hparse, fun file hbuild => ?_⟩
  obtain ⟨hvalid, hstart, _⟩ := Parse.valid_of_recovering hparse
  have hmakes := Derivation.forall₂_makes_statements hvalid hstart
    (isSpelled_of_recovering hparse) hbuild
  refine hmakes.imp fun part n hpart himports => ?_
  obtain ⟨e, x, rfl, hx⟩ := exists_source hpart himports
  rw [hx]
  exact ⟨x.importParts_node e, WrittenImport.nodePath_eq_module_iff x.path_writing_ne_nil,
    x.isReadAgain_iff_isKept indent e⟩

open GrammarServer.Derivation in
/-- How `%import .a.b->c` is derived. -/
def renamedImport : Derivation :=
  ofItems
    (ofParts .imports [
      ofWord .importWord ⟨0, 1, 1⟩ "%import",
      ofParts .importPath [ofParts .importRel [
        ofWord .dot ⟨8, 1, 9⟩ ".",
        ofParts .importArgs [
          ofParts .importArgs [ofParts .name [ofWord .ruleName ⟨9, 1, 10⟩ "a"]],
          ofWord .dot ⟨10, 1, 11⟩ ".",
          ofParts .name [ofWord .ruleName ⟨11, 1, 12⟩ "b"]]]],
      ofWord .arrow ⟨12, 1, 13⟩ "->",
      ofParts .name [ofWord .ruleName ⟨14, 1, 15⟩ "c"]])
    []

theorem Layout.import_kept_iff_renamedImport :
    Parse.strict "%import .a.b->c" = .ok renamedImport ∧
    ∃ file part n, renamedImport.tree.build = .ok file ∧ renamedImport.statements = [part] ∧
      file.statements = [n] ∧ part.symbol = .phrase .imports ∧
      (WrittenImport.ofLexemes part.lexemes).module = ".a" ∧
      n.importParts = some (some ".a", [some "b"], some "c") ∧ n.IsReadAgain "\t" := by
  have hparse : Parse.strict "%import .a.b->c" = .ok renamedImport :=
    Parse.strict_of_settled (by decide) rfl (by decide) (by decide +kernel)
  obtain ⟨part, hpart, himports, hkept, hwritten⟩ : ∃ part, renamedImport.statements = [part] ∧
      part.symbol = .phrase .imports ∧ (WrittenImport.ofLexemes part.lexemes).IsKept ∧
      (let w := WrittenImport.ofLexemes part.lexemes
       (w.module, w.nodePath, w.symbols, w.newName) = (".a", ".a", ["b"], some "c")) :=
    ⟨_, rfl, rfl, by decide +kernel, by decide +kernel⟩
  obtain ⟨hbuilds, hall⟩ := Layout.import_kept_iff "\t" (Parse.recovering_of_strict hparse)
  obtain ⟨file, hbuild⟩ := hbuilds (by decide)
  replace hall := hall file hbuild
  rw [hpart, List.forall₂_cons_left_iff] at hall
  obtain ⟨n, _, hn, hnil, hstatements⟩ := hall
  obtain rfl := List.forall₂_nil_left_iff.mp hnil
  obtain ⟨hparts, -, hagain⟩ := hn himports
  simp only [Prod.mk.injEq] at hwritten
  obtain ⟨hmodule, hpath, hsymbols, hname⟩ := hwritten
  rw [hpath, hsymbols, hname] at hparts
  exact ⟨hparse, file, part, n, hbuild, hpart, hstatements, himports, hmodule, hparts,
    (hagain.mpr hkept).2⟩

open GrammarServer.Derivation in
/-- How `%import a.b (c, d)` is derived. -/
def listedImport : Derivation :=
  ofItems
    (ofParts .imports [
      ofWord .importWord ⟨0, 1, 1⟩ "%import",
      ofParts .importPath [ofParts .importLib [ofParts .importArgs [
        ofParts .importArgs [ofParts .name [ofWord .ruleName ⟨8, 1, 9⟩ "a"]],
        ofWord .dot ⟨9, 1, 10⟩ ".",
        ofParts .name [ofWord .ruleName ⟨10, 1, 11⟩ "b"]]]],
      ofWord .leftParen ⟨12, 1, 13⟩ "(",
      ofParts .nameList [ofParts .names [
        ofParts .names [ofParts .name [ofWord .ruleName ⟨13, 1, 14⟩ "c"]],
        ofWord .comma ⟨14, 1, 15⟩ ",",
        ofParts .name [ofWord .ruleName ⟨16, 1, 17⟩ "d"]]],
      ofWord .rightParen ⟨17, 1, 18⟩ ")"])
    []

/-- If names are listed, the dot in front of the last part of the path is lost. -/
theorem Layout.importParts_listedImport :
    Parse.strict "%import a.b (c, d)" = .ok listedImport ∧
    listedImport.statements.map (fun part => (WrittenImport.ofLexemes part.lexemes).module) =
      ["a.b"] ∧
    ∃ file, listedImport.tree.build = .ok file ∧ file.statements.map Node.importParts =
      [some (some "ab", [some "c", some "d"], none)] := by
  have hview : listedImport.tree.build.toOption.any (fun file =>
      file.statements.map Node.importParts ==
        [some (some "ab", [some "c", some "d"], none)]) = true := by
    decide +kernel
  obtain ⟨file, hfile, hparts⟩ := (Option.any_eq_true _ _).mp hview
  exact ⟨Parse.strict_of_settled (by decide) rfl (by decide) (by decide +kernel),
    by decide +kernel, file, eq_ok_of_toOption hfile, eq_of_beq hparts⟩

end GrammarServer
