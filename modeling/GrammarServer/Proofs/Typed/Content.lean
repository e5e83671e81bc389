import GrammarServer.Proofs.Typed.Symbols
import GrammarServer.Proofs.Typed.Written

/-!
# What a derivation tells

Two things are read off a derivation from left to right: the names that are looked up in it, and
the words with content in which it is laid out. A typed value tells the same as the derivation it
comes from.
-/
namespace GrammarServer

namespace Terminal

/-- The terminals whose texts are what a file says. The others give it its shape. -/
def isContent : Terminal → Bool
  | ruleName | terminalName | string | regexp | number | comment => true
  | _ => false

end Terminal

namespace Chunk

def contents (cs : List Chunk) : List (Terminal × List Char) :=
  (words cs).filter fun w => w.1.isContent

@[simp] theorem contents_nil : contents [] = [] := rfl

@[simp] theorem contents_append (cs ds : List Chunk) :
    contents (cs ++ ds) = contents cs ++ contents ds := by
  rw [contents, words_append, List.filter_append, contents, contents]

@[simp] theorem contents_gap (cs : List Chunk) : contents (gap :: cs) = contents cs := rfl

theorem contents_word {t : Terminal} (ht : t.isContent = true) (w : List Char)
    (cs : List Chunk) : contents (word t w :: cs) = (t, w) :: contents cs :=
  List.filter_cons_of_pos ht

theorem contents_skip {t : Terminal} (ht : t.isContent = false) (w : List Char)
    (cs : List Chunk) : contents (word t w :: cs) = contents cs :=
  List.filter_cons_of_neg (by simp [ht])

@[simp] theorem contents_fixed (t : Terminal) (cs : List Chunk) :
    contents (fixed t :: cs) = if t.isContent then (t, t.fixedText) :: contents cs
      else contents cs :=
  List.filter_cons

theorem contents_flatMap {α : Type} (f : α → List Chunk) (as : List α) :
    contents (as.flatMap f) = as.flatMap fun a => contents (f a) := by
  induction as with
  | nil => rfl
  | cons a as ih => rw [List.flatMap_cons, contents_append, ih, List.flatMap_cons]

end Chunk

/-- How a lexeme is laid out: a comment loses the blanks at its end. -/
def Lexeme.laidOut (x : Lexeme) : Terminal × List Char :=
  (x.terminal, if x.terminal = .comment then Text.stripChars x.text else x.text)

/-- How a lexeme is laid out in the priority of a rule: the number is written anew, and zero is not
written at all. -/
def Lexeme.laidOutAnew (x : Lexeme) : List (Terminal × List Char) :=
  if x.terminal = .number then
    match Text.readInteger (String.ofList x.text) with
    | .ok k => if k = 0 then [] else [(.number, Text.numeral k)]
    | .error _ => []
  else [x.laidOut]

theorem Lexeme.laidOutAnew_of_number {x : Lexeme} (hx : x.terminal = .number) {k : Int}
    (hread : Text.readInteger (String.ofList x.text) = .ok k) :
    x.laidOutAnew = if k = 0 then [] else [(.number, Text.numeral k)] := by
  rw [laidOutAnew, if_pos hx, hread]

namespace Derivation

/-- The names in a phrase, given those of its parts. Those of an import are the last of its path or
the list after it, and the new name. -/
def namesOfNode : Phrase → List (List Lexeme) → List Lexeme
  | .imports, [_, path] => path.getLast?.toList
  | .imports, [_, path, _, name] => path.getLast?.toList ++ name
  | .imports, [_, _, _, names, _] => names
  | _, parts => parts.flatten

/-- The names that are looked up in a phrase. A group in parentheses has none. -/
def usesOfNode : Phrase → List (List Lexeme) → List Lexeme
  | .atom, [_, _, _] => []
  | p, parts => namesOfNode p parts

mutual

def uses : Derivation → List Lexeme
  | leaf x => if isName x.terminal then [x] else []
  | node q ds => usesOfNode q.left (usesOfAll ds)

def usesOfAll : List Derivation → List (List Lexeme)
  | [] => []
  | d :: ds => uses d :: usesOfAll ds

end

theorem namesOfNode_sublist (p : Phrase) (parts : List (List Lexeme)) :
    (namesOfNode p parts).Sublist parts.flatten := by
  have hlast : ∀ path : List Lexeme, path.getLast?.toList.Sublist path := by
    intro path
    rcases List.eq_nil_or_concat path with rfl | ⟨init, x, rfl⟩
    · exact List.nil_sublist []
    · simp
  unfold namesOfNode
  split
  · rename_i path
    simpa using (hlast path).trans (List.sublist_append_right _ _)
  · rename_i first path arrow name
    have hname : name.Sublist (arrow ++ name) := List.sublist_append_right _ _
    simpa using ((hlast path).append hname).trans (List.sublist_append_right first _)
  · rename_i first path left names right
    have hnames : names.Sublist (names ++ right) := List.sublist_append_left _ _
    have hfront := List.sublist_append_right (first ++ path ++ left) (names ++ right)
    simpa using hnames.trans hfront
  · exact List.Sublist.refl _

theorem usesOfNode_sublist (p : Phrase) (parts : List (List Lexeme)) :
    (usesOfNode p parts).Sublist parts.flatten := by
  unfold usesOfNode
  split
  · exact List.nil_sublist _
  · exact namesOfNode_sublist _ _

mutual

/-- What is looked up stands in the derivation, in the same order. -/
theorem uses_sublist : ∀ d : Derivation, d.uses.Sublist d.lexemes
  | leaf x => by
    rw [uses, lexemes]
    split
    · exact List.Sublist.refl _
    · exact List.nil_sublist _
  | node q ds => (usesOfNode_sublist q.left _).trans (usesOfAll_sublist ds)

theorem usesOfAll_sublist : ∀ ds : List Derivation,
    (usesOfAll ds).flatten.Sublist (lexemesOfAll ds)
  | [] => List.Sublist.refl _
  | d :: ds => (uses_sublist d).append (usesOfAll_sublist ds)

end

mutual

/-- The words with content in which a derivation is laid out. -/
def wording : Derivation → List (Terminal × List Char)
  | leaf x => if x.terminal.isContent then [x.laidOut] else []
  | node q ds =>
    if q.left = .priority then
      ((lexemesOfAll ds).filter fun x => x.terminal.isContent).flatMap Lexeme.laidOutAnew
    else wordingOfAll ds

def wordingOfAll : List Derivation → List (Terminal × List Char)
  | [] => []
  | d :: ds => wording d ++ wordingOfAll ds

end

end Derivation

namespace Typed

open Chunk

/-! ## Words of typed values -/

@[simp] theorem Word.contents_chunk {t : Terminal} (x : Word t) (cs : List Chunk) :
    contents (x.chunk :: cs) = if t.isContent then (t, x.text) :: contents cs else contents cs :=
  List.filter_cons

@[simp] theorem Name.contents_chunk (x : Name) (cs : List Chunk) :
    contents (x.chunk :: cs) = x.key :: contents cs := by
  cases x <;> rfl

theorem Values.contents_snoc (vs : Values) (v : Value) :
    contents (vs.snoc v).chunks = contents vs.chunks ++ contents v.chunks := by
  induction vs with
  | one u => simp [snoc, chunks, Terminal.isContent]
  | cons u vs ih => simp [snoc, chunks, Terminal.isContent, ih]

theorem Exprs.contents_chunksAfter (xs : Exprs) :
    contents xs.chunksAfter = contents xs.chunks := by
  cases xs with
  | nil => rfl
  | cons x xs => rfl

theorem Exprs.contents_snoc (xs : Exprs) (x : Expr) :
    contents (xs.snoc x).chunks = contents xs.chunks ++ contents x.chunks := by
  induction xs with
  | nil => simp [snoc, chunks, chunksAfter]
  | cons y ys ih => simp [snoc, chunks, contents_chunksAfter, ih]

theorem Alternative.contents_named (e inner : Option Extent) (xs : Exprs)
    (name : Word .ruleName) : contents (Alternative.named e inner xs name).chunks =
      contents xs.chunks ++ [(.ruleName, name.text)] := by
  cases xs with
  | nil => simp [chunks, Exprs.chunks, Terminal.isContent]
  | cons x xs => simp [chunks, Exprs.chunks, Terminal.isContent]

theorem Alternatives.contents_snoc (as : Alternatives) (a : Alternative) :
    contents (as.snoc a).chunks = contents as.chunks ++ contents a.chunks := by
  induction as with
  | one b => simp [snoc, chunks, Terminal.isContent]
  | cons b as ih => simp [snoc, chunks, Terminal.isContent, ih]

theorem Alternative.contents_spaced (a : Alternative) :
    contents a.spaced = contents a.chunks := by
  unfold Alternative.spaced
  split <;> rfl

theorem Alternatives.contents_stack (indent : String) (as : Alternatives) :
    contents (as.stack indent) = contents as.chunks := by
  induction as with
  | one a => exact a.contents_spaced
  | cons a as ih =>
    simp [stack, chunks, contents_skip (t := .newlineBar) rfl, Terminal.isContent, ih]

theorem contents_listed (c : Chunk) (cs : List Chunk) :
    contents (listed c cs) = contents (c :: cs) := by
  have hmore : contents (cs.flatMap fun c => [fixed .comma, .gap, c]) = contents cs := by
    rw [contents_flatMap]
    induction cs with
    | nil => rfl
    | cons d ds ih =>
      rw [List.flatMap_cons, ih, ← List.singleton_append (l := ds), contents_append]
      simp [Terminal.isContent]
  rw [listed, ← List.singleton_append, contents_append, hmore, ← contents_append,
    List.singleton_append]

theorem contents_names (xs : List Name) : contents (xs.map Name.chunk) = xs.map Name.key := by
  induction xs with
  | nil => rfl
  | cons x xs ih => rw [List.map_cons, Name.contents_chunk, ih, List.map_cons]

theorem contents_ruleNames (xs : List (Word .ruleName)) :
    contents (xs.map Word.chunk) = xs.map fun x => (Name.rule x).key := by
  induction xs with
  | nil => rfl
  | cons x xs ih => rw [List.map_cons, Word.contents_chunk, ih]; rfl

theorem contents_parameterChunks (xs : List (Word .ruleName)) :
    contents (parameterChunks xs) = xs.map fun x => (Name.rule x).key := by
  cases xs with
  | nil => rfl
  | cons x xs =>
    rw [← contents_ruleNames, List.map_cons, ← contents_listed]
    simp [parameterChunks, Terminal.isContent]

theorem Path.contents_chunks (p : Path) :
    contents p.chunks = (p.init ++ [p.last]).map Name.key := by
  have hinit : contents (p.init.flatMap fun x => [x.chunk, fixed .dot]) =
      p.init.map Name.key := by
    rw [contents_flatMap]
    induction p.init with
    | nil => rfl
    | cons x xs ih =>
      rw [List.flatMap_cons, ih]
      simp [Terminal.isContent]
  rw [Path.chunks, contents_append, contents_append, hinit]
  cases p.relative <;> simp [Terminal.isContent]

theorem Source.contents_listed (p : Path) (x : Name) (xs : List Name) :
    contents (Source.listed p x xs).chunks =
      (p.init ++ [p.last]).map Name.key ++ (x :: xs).map Name.key := by
  rw [Source.chunks, contents_append, p.contents_chunks, contents_gap, contents_fixed,
    contents_append, Typed.contents_listed, ← List.map_cons (f := Name.chunk), contents_names]
  simp [Terminal.isContent]

/-- The words with content do not depend on the indentation. -/
def Definition.contents (d : Definition) : List (Terminal × List Char) :=
  Chunk.contents (d.chunks Layout.usualIndent)

def Statement.contents (s : Statement) : List (Terminal × List Char) :=
  Chunk.contents (s.chunks Layout.usualIndent)

theorem contents_spaced (x : Name) (xs : List Name) :
    contents (x.chunk :: xs.flatMap fun x => [.gap, x.chunk]) = (x :: xs).map Name.key := by
  rw [Name.contents_chunk, contents_flatMap, List.map_cons]
  congr 1
  induction xs with
  | nil => rfl
  | cons y ys ih => rw [List.flatMap_cons, ih, contents_gap, Name.contents_chunk]; rfl

theorem Definition.contents_chunks (indent : String) (d : Definition) :
    Chunk.contents (d.chunks indent) = d.contents := by
  cases d with
  | rule e signs name parameters priority body =>
    simp [Definition.contents, Definition.chunks, body.contents_stack]
  | term e name priority body =>
    simp [Definition.contents, Definition.chunks, body.contents_stack]

theorem Definition.contents_rule (e : Option Extent) (signs : Option (Word .modifiers))
    (name : Word .ruleName) (parameters : List (Word .ruleName)) (priority : Priority)
    (body : Alternatives) : (rule e signs name parameters priority body).contents =
      [(Name.rule name).key] ++ ((parameters.map .rule).map Name.key ++
        (Chunk.contents priority.chunks ++ Chunk.contents body.chunks)) := by
  have hsigns : Chunk.contents (signChunks signs) = [] := by cases signs <;> rfl
  simp [Definition.contents, Definition.chunks, hsigns, contents_parameterChunks,
    body.contents_stack, Terminal.isContent, Name.key]

theorem Definition.contents_term (e : Option Extent) (name : Word .terminalName)
    (priority : Option (Word .number)) (body : Alternatives) :
    (term e name priority body).contents =
      [(Name.terminal name).key] ++ (Chunk.contents (termPriorityChunks priority) ++
        Chunk.contents body.chunks) := by
  simp [Definition.contents, Definition.chunks, body.contents_stack, Terminal.isContent, Name.key]

theorem Statement.contents_chunks (indent : String) (s : Statement) :
    Chunk.contents (s.chunks indent) = s.contents := by
  cases s with
  | definition d => exact (d.contents_chunks indent).trans (d.contents_chunks _).symm
  | _ => rfl

/-! ## Uses of typed values -/

theorem Values.uses_snoc (vs : Values) (v : Value) : (vs.snoc v).uses = vs.uses ++ v.uses := by
  induction vs with
  | one u => rfl
  | cons u vs ih => rw [snoc, uses, ih, uses, List.append_assoc]

theorem Exprs.uses_snoc (xs : Exprs) (x : Expr) : (xs.snoc x).uses = xs.uses ++ x.uses := by
  induction xs with
  | nil => exact List.append_nil x.uses
  | cons y ys ih => rw [snoc, uses, ih, uses, List.append_assoc]

theorem Alternatives.uses_snoc (as : Alternatives) (a : Alternative) :
    (as.snoc a).uses = as.uses ++ a.uses := by
  induction as with
  | one b => rfl
  | cons b as ih => rw [snoc, uses, ih, uses, List.append_assoc]

/-! ## Agreement -/

structure Tells (d : Derivation) (names : List Name) (words : List (Terminal × List Char)) :
    Prop where
  uses : d.uses = names.map Name.lexeme
  words : d.wording = words

/-- A derivation that consists of names, apart from signs between them. -/
def TellsNames (d : Derivation) (xs : List Name) : Prop := Tells d xs (xs.map Name.key)

inductive TellsAll : List Derivation → List Name → List (Terminal × List Char) → Prop
  | nil : TellsAll [] [] []
  | cons {d : Derivation} {ds : List Derivation} {xs ys : List Name}
      {v w : List (Terminal × List Char)} :
      Tells d xs v → TellsAll ds ys w → TellsAll (d :: ds) (xs ++ ys) (v ++ w)

theorem TellsAll.flatten {ds : List Derivation} {xs : List Name}
    {w : List (Terminal × List Char)} (h : TellsAll ds xs w) :
    (Derivation.usesOfAll ds).flatten = xs.map Name.lexeme ∧ Derivation.wordingOfAll ds = w := by
  induction h with
  | nil => exact ⟨rfl, rfl⟩
  | cons hd hds ih =>
    rw [Derivation.usesOfAll, List.flatten_cons, hd.uses, ih.1, List.map_append,
      Derivation.wordingOfAll, hd.words, ih.2]
    exact ⟨rfl, rfl⟩

/-- A phrase tells what its parts tell, but for groups, imports and priorities. -/
theorem TellsAll.node {p : Phrase} {r : List Symbol} {ds : List Derivation} {xs : List Name}
    {w : List (Terminal × List Char)} (h : TellsAll ds xs w)
    (huses : Derivation.usesOfNode p (Derivation.usesOfAll ds) =
      (Derivation.usesOfAll ds).flatten)
    (hpriority : p ≠ .priority) : Tells (.node ⟨p, r⟩ ds) xs w := by
  refine ⟨?_, ?_⟩
  · rw [Derivation.uses, huses, h.flatten.1]
  · rw [Derivation.wording, if_neg hpriority, h.flatten.2]

theorem TellsAll.cons_last {d : Derivation} {xs : List Name} {w : List (Terminal × List Char)}
    (h : Tells d xs w) : TellsAll [d] xs w := by
  simpa using TellsAll.cons h .nil

theorem tells_silent {t : Terminal} (x : Word t) (ht : t.isContent = false) :
    Tells (.leaf x.lexeme) [] [] := by
  have hname : Derivation.isName t = false := by cases t <;> first | rfl | cases ht
  refine ⟨?_, ?_⟩
  · rw [Derivation.uses, x.terminal_eq, hname]
    rfl
  · rw [Derivation.wording, x.terminal_eq, ht]
    rfl

/-- A word that is laid out as it stands and is no name. -/
theorem tells_word {t : Terminal} (x : Word t) (ht : t.isContent = true)
    (hname : Derivation.isName t = false) (hcomment : t ≠ .comment) :
    Tells (.leaf x.lexeme) [] [(t, x.text)] := by
  refine ⟨?_, ?_⟩
  · rw [Derivation.uses, x.terminal_eq, hname]
    rfl
  · rw [Derivation.wording, Lexeme.laidOut, x.terminal_eq, ht, if_neg hcomment]
    rfl

theorem tellsNames_leaf (x : Name) : TellsNames (.leaf x.lexeme) [x] := by
  cases x with
  | rule x =>
    refine ⟨?_, ?_⟩
    · rw [Name.lexeme, Derivation.uses, x.terminal_eq]
      rfl
    · rw [Name.lexeme, Derivation.wording, Lexeme.laidOut, x.terminal_eq]
      rfl
  | terminal x =>
    refine ⟨?_, ?_⟩
    · rw [Name.lexeme, Derivation.uses, x.terminal_eq]
      rfl
    · rw [Name.lexeme, Derivation.wording, Lexeme.laidOut, x.terminal_eq]
      rfl

section

variable {p : Phrase} {r : List Symbol} {s t : Terminal} {d d' : Derivation} {xs ys : List Name}
  {v w : List (Terminal × List Char)}

theorem tells_single (hp : p ≠ .priority) (h : Tells d xs w) :
    Tells (.node ⟨p, r⟩ [d]) xs w := by
  refine (TellsAll.cons_last h).node ?_ hp
  cases p <;> rfl

/-- Two parts with a word without content between them. -/
theorem tells_apart (hp : p ∉ [.atom, .imports, .priority]) (ht : t.isContent = false)
    {x : Word t} (h : Tells d xs v) (h' : Tells d' ys w) :
    Tells (.node ⟨p, r⟩ [d, .leaf x.lexeme, d']) (xs ++ ys) (v ++ w) := by
  have hparts := TellsAll.cons h (.cons (tells_silent x ht) (.cons_last h'))
  refine hparts.node ?_ fun hpriority => hp (by simp [hpriority])
  cases p <;> first | rfl | exact absurd (by decide) hp

/-- A part between words without content. -/
theorem tells_enclosed (hp : p ∉ [.atom, .imports, .priority]) (hs : s.isContent = false)
    (ht : t.isContent = false) {x : Word s} {y : Word t} (h : Tells d xs w) :
    Tells (.node ⟨p, r⟩ [.leaf x.lexeme, d, .leaf y.lexeme]) xs w := by
  have hparts := TellsAll.cons (tells_silent x hs) (.cons h (.cons_last (tells_silent y ht)))
  rw [List.append_nil, List.append_nil] at hparts
  refine hparts.node ?_ fun hpriority => hp (by simp [hpriority])
  cases p <;> first | rfl | exact absurd (by decide) hp

theorem tellsNames_single (hp : p ≠ .priority) (h : TellsNames d xs) :
    TellsNames (.node ⟨p, r⟩ [d]) xs :=
  tells_single hp h

theorem tellsNames_apart (hp : p ∉ [.atom, .imports, .priority]) (ht : t.isContent = false)
    {x : Word t} (h : TellsNames d xs) (h' : TellsNames d' ys) :
    TellsNames (.node ⟨p, r⟩ [d, .leaf x.lexeme, d']) (xs ++ ys) := by
  rw [TellsNames, List.map_append]
  exact tells_apart hp ht h h'

/-- An atom with its repetition. -/
theorem tells_repeated {e : Option Extent} {x : Atom} {count : Repetition}
    {rest : List Derivation} (hrest : TellsAll rest ys w)
    (hw : ys = [] ∧ contents count.chunks = w) (h : Tells d x.uses (contents x.chunks)) :
    Tells (.node ⟨.expr, r⟩ (d :: rest)) (Expr.mk e x count).uses
      (contents (Expr.mk e x count).chunks) := by
  obtain ⟨rfl, rfl⟩ := hw
  have hparts := (TellsAll.cons h hrest).node (p := .expr) (r := r) rfl (by decide)
  rwa [List.append_nil, ← contents_append] at hparts

/-- A priority is laid out as the number that it is read as. -/
theorem tells_priority {p : Priority} (x : Word .dot) (y : Word .number)
    (hread : Text.readInteger (String.ofList y.text) = .ok p.value) :
    Tells (.node ⟨.priority, r⟩ [.leaf x.lexeme, .leaf y.lexeme]) [] (contents p.chunks) := by
  have hanew : y.lexeme.laidOutAnew = contents p.chunks := by
    rw [Lexeme.laidOutAnew_of_number y.terminal_eq hread, Priority.chunks]
    by_cases hzero : p.value = 0
    · simp [hzero]
    · simp [hzero, contents_word (t := .number) rfl, Terminal.isContent]
  refine ⟨?_, ?_⟩
  · rw [Derivation.uses, Derivation.usesOfAll, Derivation.usesOfAll, Derivation.usesOfAll,
      (tells_silent x rfl).uses, (tells_word y rfl rfl (by decide)).uses]
    rfl
  · rw [Derivation.wording, if_pos rfl, ← hanew]
    simp [Derivation.lexemesOfAll, Derivation.lexemes, x.terminal_eq, y.terminal_eq,
      Terminal.isContent]

/-- The names looked up in an import are not all that stand in it. -/
theorem tells_imports {ds : List Derivation} {e : Option Extent} {source : Source}
    (h : TellsAll ds xs w)
    (huses : Derivation.namesOfNode .imports (Derivation.usesOfAll ds) =
      source.uses.map Name.lexeme)
    (hwords : w = contents source.chunks) :
    Tells (.node ⟨.imports, r⟩ ds) (Statement.imports e source).uses
      (Statement.imports e source).contents := by
  refine ⟨huses, ?_⟩
  rw [Derivation.wording, if_neg (by simp), h.flatten.2, hwords]
  rfl

end

end Typed

end GrammarServer
