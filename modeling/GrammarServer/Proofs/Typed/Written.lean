import GrammarServer.Layout
import GrammarServer.Proofs.Text.Numeral
import GrammarServer.Proofs.Typed.Faithful

/-!
# How typed files are written

The words and gaps in which a typed file is laid out. If the file is faithful its text is legible:
each word is followed by a character that does not belong to it.
-/
namespace GrammarServer

namespace Terminal

def fixedText : Terminal → List Char
  | extendWord => ['%', 'e', 'x', 't', 'e', 'n', 'd']
  | ignoreWord => ['%', 'i', 'g', 'n', 'o', 'r', 'e']
  | declareWord => ['%', 'd', 'e', 'c', 'l', 'a', 'r', 'e']
  | importWord => ['%', 'i', 'm', 'p', 'o', 'r', 't']
  | newline => ['\n', '\n']
  | dotDot => ['.', '.']
  | arrow => ['-', '>']
  | dot => ['.']
  | leftBracket => ['[']
  | leftBrace => ['\x7b']
  | leftParen => ['(']
  | bar => ['|']
  | rightBracket => [']']
  | rightBrace => ['\x7d']
  | rightParen => [')']
  | colon => [':']
  | comma => [',']
  | _ => []

def isSure : Terminal → Bool
  | extendWord | ignoreWord | declareWord | importWord | dotDot | arrow | leftBracket | leftBrace
  | leftParen | bar | rightBracket | rightBrace | rightParen | colon | comma => true
  | _ => false

theorem reads_fixedText {t : Terminal} (ht : t.isSure = true) (r : List Char) :
    Reads t (fixedText t) r := by
  cases t <;> first | exact ⟨_, _, rfl, rfl⟩ | cases ht

theorem reads_dot {r : List Char} (hr : startsWith (· == '.') r = false) :
    Reads dot (fixedText dot) r := by
  refine ⟨'.', [], rfl, atFront_of_reach (by simp [reach, hr]) ?_⟩
  intro u hu
  by_cases hdots : u = dotDot
  · rw [hdots]
    simp [reach, hr]
  · exact reach_eq_none (by revert u; decide) _

def barText (indent : String) : List Char := '\n' :: (indent.toList ++ ['|'])

def IsIndent (indent : String) : Prop := ∀ c ∈ indent.toList, c = ' ' ∨ c = '\t'

-- Along the text: other instances would go through all characters there are.
instance (indent : String) : Decidable (IsIndent indent) :=
  List.decidableBAll (fun c => c = ' ' ∨ c = '\t') indent.toList

theorem isBlank_of_isIndent {indent : String} (h : IsIndent indent) :
    ∀ c ∈ indent.toList, Text.isBlank c = true := by
  intro c hc
  rcases h c hc with rfl | rfl
  · decide
  · decide

theorem reads_newlineBar {indent : String} (h : IsIndent indent) (r : List Char) :
    Reads newlineBar (barText indent) r := by
  have hfront : frontLength Text.isBlank (indent.toList ++ '|' :: r) = indent.toList.length :=
    (frontLength_append_eq_iff _ _).mpr ⟨isBlank_of_isIndent h, by simp [startsWith]; decide⟩
  refine ⟨'\n', indent.toList ++ ['|'], rfl, atFront_of_opens ?_ (by decide)⟩
  simp [reach, newlineBarReach, newlineReach, hfront, startsWith]

/-- A text goes on with something that is neither a blank nor a bar. -/
def Resumes (r : List Char) : Prop :=
  startsWith Text.isBlank r = false ∧ startsWith (· == '|') r = false

theorem reads_newline {r : List Char} (hr : Resumes r) : Reads newline (fixedText newline) r := by
  have hfront : frontLength Text.isBlank ('\n' :: r) = 1 :=
    (frontLength_append_eq_iff ['\n'] r).mpr ⟨List.forall_mem_singleton.mpr rfl, hr.1⟩
  refine ⟨'\n', ['\n'], rfl, atFront_of_reach (by simp [reach, newlineReach, hfront]) ?_⟩
  intro u hu
  by_cases hbar : u = newlineBar
  · rw [hbar]
    simp [reach, newlineBarReach, newlineReach, hfront, hr.2]
  · exact reach_eq_none (by revert u; decide) _

end Terminal

namespace Chunk

def fixed (t : Terminal) : Chunk := word t t.fixedText

@[simp] theorem chars_fixed (t : Terminal) : (fixed t).chars = t.fixedText := rfl

@[simp] theorem words_fixed (t : Terminal) (cs : List Chunk) :
    words (fixed t :: cs) = (t, t.fixedText) :: words cs := rfl

theorem legible_fixed {t : Terminal} (ht : t.isSure = true) {rest : List Chunk}
    (hrest : Legible rest) : Legible (fixed t :: rest) := by
  refine ⟨?_, Terminal.reads_fixedText ht _, hrest⟩
  cases t <;> first | rfl | cases ht

end Chunk

namespace Typed

open Chunk Terminal

/-! ## Words -/

namespace Word

variable {t : Terminal}

def chunk (x : Word t) : Chunk := .word t x.text

@[simp] theorem chars_chunk (x : Word t) : x.chunk.chars = x.text := rfl

@[simp] theorem words_chunk (x : Word t) (cs : List Chunk) :
    words (x.chunk :: cs) = (t, x.text) :: words cs := rfl

/-- A word before a break is read as it is meant to be. -/
theorem legible (x : Word t) {rest : List Chunk} (hrest : Legible rest)
    (hbreak : Breaks (Chunk.text rest))
    (ht : t ∈ [ruleName, terminalName, string, number, operator, tilde]) :
    Legible (x.chunk :: rest) := by
  have hspells := x.spells
  simp only [List.mem_cons, List.not_mem_nil, or_false] at ht
  rcases ht with rfl | rfl | rfl | rfl | rfl | rfl
  · exact ⟨rfl, reads_ruleName hspells (hbreak.startsWith_eq_false (by decide)), hrest⟩
  · exact ⟨rfl, reads_terminalName hspells (hbreak.startsWith_eq_false (by decide)), hrest⟩
  · exact ⟨rfl, reads_string hspells (hbreak.startsWith_eq_false (by decide)), hrest⟩
  · exact ⟨rfl, reads_number hspells (hbreak.startsWith_eq_false (by decide)), hrest⟩
  · exact ⟨rfl, reads_operator hspells hbreak, hrest⟩
  · refine ⟨rfl, ?_, hrest⟩
    rw [show x.text = ['~'] from hspells]
    exact ⟨'~', [], rfl, rfl⟩

/-- Before another word, a tilde needs no break. -/
theorem legible_tilde (x : Word .tilde) {rest : List Chunk} (hrest : Legible rest) :
    Legible (x.chunk :: rest) := by
  refine ⟨rfl, ?_, hrest⟩
  rw [show x.text = ['~'] from x.spells]
  exact ⟨'~', [], rfl, rfl⟩

theorem legible_regexp (x : Word .regexp) (hx : closingEscapes x.text % 2 = 0)
    {rest : List Chunk} (hrest : Legible rest) (hbreak : Breaks (Chunk.text rest)) :
    Legible (x.chunk :: rest) :=
  ⟨rfl, reads_regexp (x.spells hx) (hbreak.startsWith_eq_false (by decide)), hrest⟩

end Word

def Name.chunk : Name → Chunk
  | rule x => x.chunk
  | terminal x => x.chunk

def Name.key : Name → Terminal × List Char
  | .rule x => (.ruleName, x.text)
  | .terminal x => (.terminalName, x.text)

@[simp] theorem Name.words_chunk (x : Name) (cs : List Chunk) :
    words (x.chunk :: cs) = x.key :: words cs := by
  cases x <;> rfl

theorem Name.legible (x : Name) {rest : List Chunk} (hrest : Legible rest)
    (hbreak : Breaks (Chunk.text rest)) : Legible (x.chunk :: rest) := by
  cases x with
  | rule x => exact x.legible hrest hbreak (by decide)
  | terminal x => exact x.legible hrest hbreak (by decide)

def Repetition.chunks : Repetition → List Chunk
  | once => []
  | operator x => [x.chunk]
  | times mark count => [mark.chunk, count.chunk]
  | between mark least most => [mark.chunk, least.chunk, fixed .dotDot, most.chunk]

/-! ## Expressions -/

mutual

def Value.chunks : Value → List Chunk
  | .name x => [x.chunk]
  | .string x => [x.chunk]
  | .regexp x => [x.chunk]
  | .range _ first last => [first.chunk, fixed .dotDot, last.chunk]
  | .usage _ rule arguments =>
    rule.chunk :: fixed .leftBrace :: (arguments.chunks ++ [fixed .rightBrace])

def Values.chunks : Values → List Chunk
  | .one v => v.chunks
  | .cons v rest => v.chunks ++ fixed .comma :: .gap :: rest.chunks

def Atom.chunks : Atom → List Chunk
  | .value v => v.chunks
  | .group body => fixed .leftParen :: (body.chunks ++ [fixed .rightParen])
  | .maybe _ body => fixed .leftBracket :: (body.chunks ++ [fixed .rightBracket])

def Expr.chunks : Expr → List Chunk
  | .mk _ atom count => atom.chunks ++ count.chunks

def Exprs.chunks : Exprs → List Chunk
  | .nil => []
  | .cons x rest => x.chunks ++ rest.chunksAfter

def Exprs.chunksAfter : Exprs → List Chunk
  | .nil => []
  | .cons x rest => .gap :: (x.chunks ++ rest.chunksAfter)

def Alternative.chunks : Alternative → List Chunk
  | .plain _ body => body.chunks
  | .named _ _ .nil name => [fixed .arrow, .gap, name.chunk]
  | .named _ _ (.cons x rest) name =>
    x.chunks ++ (rest.chunksAfter ++ [.gap, fixed .arrow, .gap, name.chunk])

def Alternatives.chunks : Alternatives → List Chunk
  | .one a => a.chunks
  | .cons a rest => a.chunks ++ .gap :: fixed .bar :: .gap :: rest.chunks

end

theorem breaks_gap (rest : List Chunk) : Breaks (Chunk.text (.gap :: rest)) := by
  change ' ' ∈ breaks
  decide

theorem breaks_fixed {t : Terminal} (rest : List Chunk)
    (ht : t ∈ [dotDot, leftBrace, rightBrace, comma, rightParen, rightBracket, colon, dot,
      newline]) : Breaks (Chunk.text (fixed t :: rest)) := by
  simp only [List.mem_cons, List.not_mem_nil, or_false] at ht
  rcases ht with rfl | rfl | rfl | rfl | rfl | rfl | rfl | rfl | rfl
  all_goals
    rw [Chunk.text_cons]
    simp only [fixed, Chunk.chars, fixedText, List.cons_append, Breaks]
    decide

theorem breaks_word {t : Terminal} (x : Word t) (ht : t ∈ [operator, tilde]) (rest : List Chunk) :
    Breaks (Chunk.text (x.chunk :: rest)) := by
  have hspells := x.spells
  simp only [List.mem_cons, List.not_mem_nil, or_false] at ht
  rw [Chunk.text_cons, Word.chunk, Chunk.chars]
  rcases ht with rfl | rfl
  · simp only [Spells, operatorTexts, List.mem_cons, List.not_mem_nil, or_false] at hspells
    rcases hspells with h | h | h
    all_goals
      rw [h, List.singleton_append, Breaks]
      decide
  · rw [show x.text = ['~'] from hspells, List.singleton_append, Breaks]
    decide

theorem Repetition.breaks (n : Repetition) {rest : List Chunk}
    (hbreak : Breaks (Chunk.text rest)) : Breaks (Chunk.text (n.chunks ++ rest)) := by
  cases n with
  | once => exact hbreak
  | operator x => exact breaks_word x (by decide) _
  | times mark count => exact breaks_word mark (by decide) _
  | between mark least most => exact breaks_word mark (by decide) _

theorem Repetition.legible (n : Repetition) {rest : List Chunk} (hrest : Legible rest)
    (hbreak : Breaks (Chunk.text rest)) : Legible (n.chunks ++ rest) := by
  cases n with
  | once => exact hrest
  | operator x => exact x.legible hrest hbreak (by decide)
  | times mark count => exact mark.legible_tilde (count.legible hrest hbreak (by decide))
  | between mark least most =>
    apply mark.legible_tilde
    apply least.legible _ (breaks_fixed _ (by decide)) (by decide)
    exact legible_fixed rfl (most.legible hrest hbreak (by decide))

theorem Exprs.breaks_chunksAfter (xs : Exprs) {rest : List Chunk}
    (hbreak : Breaks (Chunk.text rest)) : Breaks (Chunk.text (xs.chunksAfter ++ rest)) := by
  cases xs with
  | nil => exact hbreak
  | cons x xs => exact breaks_gap _

mutual

theorem Value.legible : ∀ v : Value, v.Faithful → ∀ {rest : List Chunk}, Legible rest →
    Breaks (Chunk.text rest) → Legible (v.chunks ++ rest)
  | .name x, _, _, hrest, hbreak => x.legible hrest hbreak
  | .string x, _, _, hrest, hbreak => x.legible hrest hbreak (by decide)
  | .regexp x, hx, _, hrest, hbreak => x.legible_regexp hx hrest hbreak
  | .range _ first last, _, _, hrest, hbreak => by
    apply first.legible _ (breaks_fixed _ (by decide)) (by decide)
    exact legible_fixed rfl (last.legible hrest hbreak (by decide))
  | .usage _ rule arguments, harguments, rest, hrest, _ => by
    have hlegible :=
      Values.legible arguments harguments (legible_fixed (t := .rightBrace) rfl hrest)
      (breaks_fixed _ (by decide))
    rw [Value.chunks, List.cons_append, List.cons_append, List.append_assoc]
    exact rule.legible (legible_fixed rfl hlegible) (breaks_fixed _ (by decide)) (by decide)

theorem Values.legible : ∀ vs : Values, vs.Faithful → ∀ {rest : List Chunk}, Legible rest →
    Breaks (Chunk.text rest) → Legible (vs.chunks ++ rest)
  | .one v, hv, _, hrest, hbreak => Value.legible v hv hrest hbreak
  | .cons v vs, ⟨hv, hvs⟩, rest, hrest, hbreak => by
    have hlegible := Values.legible vs hvs hrest hbreak
    rw [Values.chunks, List.append_assoc]
    exact Value.legible v hv (legible_fixed rfl hlegible) (breaks_fixed _ (by decide))

theorem Atom.legible : ∀ x : Atom, x.Faithful → ∀ {rest : List Chunk}, Legible rest →
    Breaks (Chunk.text rest) → Legible (x.chunks ++ rest)
  | .value v, hv, _, hrest, hbreak => Value.legible v hv hrest hbreak
  | .group body, hbody, rest, hrest, _ => by
    rw [Atom.chunks, List.cons_append, List.append_assoc]
    exact legible_fixed rfl (Alternatives.legible body hbody.2
      (legible_fixed (t := .rightParen) rfl hrest) (breaks_fixed _ (by decide)))
  | .maybe _ body, hbody, rest, hrest, _ => by
    rw [Atom.chunks, List.cons_append, List.append_assoc]
    exact legible_fixed rfl (Alternatives.legible body hbody
      (legible_fixed (t := .rightBracket) rfl hrest) (breaks_fixed _ (by decide)))

theorem Expr.legible : ∀ x : Expr, x.Faithful → ∀ {rest : List Chunk}, Legible rest →
    Breaks (Chunk.text rest) → Legible (x.chunks ++ rest)
  | .mk _ atom count, hatom, rest, hrest, hbreak => by
    rw [Expr.chunks, List.append_assoc]
    exact Atom.legible atom hatom (count.legible hrest hbreak) (count.breaks hbreak)

theorem Exprs.legible : ∀ xs : Exprs, xs.Faithful → ∀ {rest : List Chunk}, Legible rest →
    Breaks (Chunk.text rest) → Legible (xs.chunks ++ rest)
  | .nil, _, _, hrest, _ => hrest
  | .cons x xs, ⟨hx, hxs⟩, rest, hrest, hbreak => by
    rw [Exprs.chunks, List.append_assoc]
    exact Expr.legible x hx (Exprs.legible_chunksAfter xs hxs hrest hbreak)
      (xs.breaks_chunksAfter hbreak)

theorem Exprs.legible_chunksAfter : ∀ xs : Exprs, xs.Faithful → ∀ {rest : List Chunk},
    Legible rest → Breaks (Chunk.text rest) → Legible (xs.chunksAfter ++ rest)
  | .nil, _, _, hrest, _ => hrest
  | .cons x xs, ⟨hx, hxs⟩, rest, hrest, hbreak => by
    rw [Exprs.chunksAfter, List.cons_append, List.append_assoc]
    exact Expr.legible x hx (Exprs.legible_chunksAfter xs hxs hrest hbreak)
      (xs.breaks_chunksAfter hbreak)

theorem Alternative.legible : ∀ a : Alternative, a.Faithful → ∀ {rest : List Chunk},
    Legible rest → Breaks (Chunk.text rest) → Legible (a.chunks ++ rest)
  | .plain _ body, hbody, _, hrest, hbreak => Exprs.legible body hbody hrest hbreak
  | .named _ _ .nil name, _, _, hrest, hbreak =>
    legible_fixed (t := .arrow) rfl (name.legible hrest hbreak (by decide))
  | .named _ _ (.cons x xs) name, ⟨hx, hxs⟩, rest, hrest, hbreak => by
    have hname : Legible ([.gap, fixed .arrow, .gap, name.chunk] ++ rest) :=
      legible_fixed (t := .arrow) rfl (name.legible hrest hbreak (by decide))
    rw [Alternative.chunks, List.append_assoc, List.append_assoc]
    exact Expr.legible x hx (Exprs.legible_chunksAfter xs hxs hname (breaks_gap _))
      (xs.breaks_chunksAfter (breaks_gap _))

theorem Alternatives.legible : ∀ as : Alternatives, as.Faithful → ∀ {rest : List Chunk},
    Legible rest → Breaks (Chunk.text rest) → Legible (as.chunks ++ rest)
  | .one a, ha, _, hrest, hbreak => Alternative.legible a ha hrest hbreak
  | .cons a as, ⟨ha, has⟩, rest, hrest, hbreak => by
    have hlegible := Alternatives.legible as has hrest hbreak
    rw [Alternatives.chunks, List.append_assoc]
    exact Alternative.legible a ha (legible_fixed (t := .bar) rfl hlegible) (breaks_gap _)

end

/-! ## Statements -/

/-- An alternative after a blank; an empty one needs none. -/
def Alternative.spaced : Alternative → List Chunk
  | .plain _ .nil => []
  | a => .gap :: a.chunks

def Alternatives.stack (indent : String) : Alternatives → List Chunk
  | .one a => a.spaced
  | .cons a rest => .gap :: (a.chunks ++ .word .newlineBar (barText indent) :: rest.stack indent)

def listed (first : Chunk) (more : List Chunk) : List Chunk :=
  first :: more.flatMap fun c => [fixed .comma, .gap, c]

def parameterChunks : List (Word .ruleName) → List Chunk
  | [] => []
  | x :: xs => fixed .leftBrace :: (listed x.chunk (xs.map Word.chunk) ++ [fixed .rightBrace])

def Priority.chunks (p : Priority) : List Chunk :=
  if p.value = 0 then [] else [fixed .dot, .word .number (Text.numeral p.value)]

def signChunks : Option (Word .modifiers) → List Chunk
  | none => []
  | some x => [x.chunk]

def termPriorityChunks : Option (Word .number) → List Chunk
  | none => []
  | some x => [fixed .dot, x.chunk]

def Definition.chunks (indent : String) : Definition → List Chunk
  | rule _ signs name parameters priority body =>
    signChunks signs ++ name.chunk :: (parameterChunks parameters ++ (priority.chunks ++
      fixed .colon :: body.stack indent))
  | term _ name priority body =>
    name.chunk :: (termPriorityChunks priority ++ fixed .colon :: body.stack indent)

def Path.chunks (p : Path) : List Chunk :=
  (if p.relative then [fixed .dot] else []) ++
    (p.init.flatMap (fun x => [x.chunk, fixed .dot]) ++ [p.last.chunk])

def Source.chunks : Source → List Chunk
  | whole path => path.chunks
  | renamed path name => path.chunks ++ [.gap, fixed .arrow, .gap, name.chunk]
  | listed path first more =>
    path.chunks ++ .gap :: fixed .leftParen ::
      (Typed.listed first.chunk (more.map Name.chunk) ++ [fixed .rightParen])

def Statement.chunks (indent : String) : Statement → List Chunk
  | definition d => d.chunks indent
  | override _ d | extend _ d => fixed .extendWord :: .gap :: d.chunks Layout.usualIndent
  | ignore _ body => fixed .ignoreWord :: body.stack Layout.usualIndent
  | declare _ first more =>
    fixed .declareWord :: .gap :: first.chunk :: more.flatMap fun x => [.gap, x.chunk]
  | imports _ source => fixed .importWord :: .gap :: source.chunks
  | comment _ x => [.word .comment (Text.stripChars x.text)]

def chunksAfter (indent : String) (ss : List Statement) : List Chunk :=
  ss.flatMap fun s => fixed .newline :: s.chunks indent

def fileChunks (indent : String) (s : Statement) (ss : List Statement) : List Chunk :=
  s.chunks indent ++ chunksAfter indent ss

theorem Alternative.legible_spaced (a : Alternative) (ha : a.Faithful) {rest : List Chunk}
    (hrest : Legible rest) (hbreak : Breaks (Chunk.text rest)) :
    Legible (a.spaced ++ rest) := by
  unfold Alternative.spaced
  split
  · exact hrest
  · exact Alternative.legible a ha hrest hbreak

theorem Alternatives.legible_stack {indent : String} (hindent : IsIndent indent) :
    ∀ as : Alternatives, as.Faithful → ∀ {rest : List Chunk}, Legible rest →
      Breaks (Chunk.text rest) → Legible (as.stack indent ++ rest)
  | .one a, ha, _, hrest, hbreak => a.legible_spaced ha hrest hbreak
  | .cons a as, ⟨ha, has⟩, rest, hrest, hbreak => by
    have hstack := legible_stack hindent as has hrest hbreak
    rw [stack, List.cons_append, List.append_assoc]
    refine Alternative.legible a ha ⟨rfl, reads_newlineBar hindent _, hstack⟩ ?_
    change '\n' ∈ breaks
    decide

/-- A chunk that is read as it is meant to be before a break. -/
def Breakable (c : Chunk) : Prop :=
  ∀ {rest : List Chunk}, Legible rest → Breaks (Chunk.text rest) → Legible (c :: rest)

theorem legible_listed {c : Chunk} {cs : List Chunk} (hc : Breakable c)
    (hcs : ∀ c ∈ cs, Breakable c) {rest : List Chunk} (hrest : Legible rest)
    (hbreak : Breaks (Chunk.text rest)) : Legible (listed c cs ++ rest) := by
  induction cs generalizing c with
  | nil => exact hc hrest hbreak
  | cons d cs ih =>
    rw [List.forall_mem_cons] at hcs
    have hlegible := ih hcs.1 hcs.2
    exact hc (legible_fixed rfl hlegible) (breaks_fixed _ (by decide))

theorem Name.breakable (x : Name) : Breakable x.chunk := x.legible

theorem Word.breakable_ruleName (x : Word .ruleName) : Breakable x.chunk :=
  fun hrest hbreak => x.legible hrest hbreak (by decide)

theorem legible_parameterChunks (xs : List (Word .ruleName)) {rest : List Chunk}
    (hrest : Legible rest) : Legible (parameterChunks xs ++ rest) := by
  cases xs with
  | nil => exact hrest
  | cons x xs =>
    rw [parameterChunks, List.cons_append, List.append_assoc]
    apply legible_fixed rfl
    apply legible_listed x.breakable_ruleName _ (legible_fixed rfl hrest)
      (breaks_fixed _ (by decide))
    intro c hc
    obtain ⟨y, _, rfl⟩ := List.mem_map.mp hc
    exact y.breakable_ruleName

theorem breaks_parameterChunks (xs : List (Word .ruleName)) {rest : List Chunk}
    (hbreak : Breaks (Chunk.text rest)) : Breaks (Chunk.text (parameterChunks xs ++ rest)) := by
  cases xs with
  | nil => exact hbreak
  | cons x xs => exact breaks_fixed _ (by decide)

theorem startsWith_of_isRun {mark first next : Char → Bool} {w : List Char}
    (hw : IsRun mark first next w) (r : List Char) :
    startsWith (fun c => mark c || first c) (w ++ r) = true := by
  obtain ⟨c, cs, rfl⟩ := List.exists_cons_of_ne_nil hw.ne_nil
  rw [List.cons_append, startsWith, Bool.or_eq_true]
  exact hw.1.symm.imp_left (·.1)

theorem startsWith_eq_false_of_isRun {mark first next p : Char → Bool} {w : List Char}
    (hw : IsRun mark first next w) (hp : ∀ c, p c = true → (mark c || first c) = false)
    (r : List Char) : startsWith p (w ++ r) = false := by
  have hstart := startsWith_of_isRun hw r
  obtain ⟨c, cs, rfl⟩ := List.exists_cons_of_ne_nil hw.ne_nil
  rw [List.cons_append, startsWith] at hstart ⊢
  rw [Bool.eq_false_iff]
  intro hc
  exact absurd hstart (by rw [hp c hc]; exact Bool.false_ne_true)

theorem eq_dot {p : Char → Bool} (hp : p '.' = false) (c : Char) (hc : (c == '.') = true) :
    p c = false := by
  rw [eq_of_beq hc, hp]

/-- A dot and a number after it. -/
theorem legible_dotted {w : List Char} (hw : IsRun isSign Text.isDigit Text.isDigit w)
    {rest : List Chunk} (hrest : Legible rest) (hbreak : Breaks (Chunk.text rest)) :
    Legible (fixed .dot :: .word .number w :: rest) :=
  ⟨rfl, reads_dot (startsWith_eq_false_of_isRun hw (eq_dot (by decide)) _),
    rfl, reads_number hw (hbreak.startsWith_eq_false (by decide)), hrest⟩

theorem Priority.legible (p : Priority) {rest : List Chunk} (hrest : Legible rest)
    (hbreak : Breaks (Chunk.text rest)) : Legible (p.chunks ++ rest) := by
  rw [Priority.chunks]
  split
  · exact hrest
  · exact legible_dotted (Text.isRun_numeral p.value) hrest hbreak

theorem Priority.breaks (p : Priority) {rest : List Chunk} (hbreak : Breaks (Chunk.text rest)) :
    Breaks (Chunk.text (p.chunks ++ rest)) := by
  rw [Priority.chunks]
  split
  · exact hbreak
  · exact breaks_fixed _ (by decide)

theorem Definition.legible {indent : String} (hindent : IsIndent indent) (d : Definition)
    (hd : d.Faithful) {rest : List Chunk} (hrest : Legible rest)
    (hbreak : Breaks (Chunk.text rest)) : Legible (d.chunks indent ++ rest) := by
  cases d with
  | rule e signs name parameters priority body =>
    have hbody : Legible (fixed .colon :: (body.stack indent ++ rest)) :=
      legible_fixed rfl (body.legible_stack hindent hd hrest hbreak)
    have hcolon : Breaks (Chunk.text (fixed .colon :: (body.stack indent ++ rest))) :=
      breaks_fixed _ (by decide)
    have hname : Legible (name.chunk :: (parameterChunks parameters ++ (priority.chunks ++
        fixed .colon :: (body.stack indent ++ rest)))) :=
      name.legible (legible_parameterChunks parameters (priority.legible hbody hcolon))
        (breaks_parameterChunks parameters (priority.breaks hcolon)) (by decide)
    simp only [Definition.chunks, List.append_assoc, List.cons_append]
    cases signs with
    | none => exact hname
    | some x => exact ⟨rfl, reads_modifiers x.spells (startsWith_of_isRun name.spells _), hname⟩
  | term e name priority body =>
    have hbody : Legible (fixed .colon :: (body.stack indent ++ rest)) :=
      legible_fixed rfl (body.legible_stack hindent hd hrest hbreak)
    have hcolon : Breaks (Chunk.text (fixed .colon :: (body.stack indent ++ rest))) :=
      breaks_fixed _ (by decide)
    simp only [Definition.chunks, List.append_assoc, List.cons_append]
    cases priority with
    | none => exact name.legible hbody hcolon (by decide)
    | some x =>
      exact name.legible (legible_dotted x.spells hbody hcolon) (breaks_fixed _ (by decide))
        (by decide)

/-! ### Imports -/

theorem Name.legible_dot (x : Name) {rest : List Chunk} (h : Legible (x.chunk :: rest)) :
    Legible (fixed .dot :: x.chunk :: rest) := by
  refine ⟨rfl, reads_dot ?_, h⟩
  cases x with
  | rule x => exact startsWith_eq_false_of_isRun x.spells (eq_dot (by decide)) _
  | terminal x => exact startsWith_eq_false_of_isRun x.spells (eq_dot (by decide)) _

theorem legible_path (xs : List Name) (x : Name) {rest : List Chunk} (hrest : Legible rest)
    (hbreak : Breaks (Chunk.text rest)) :
    ∃ (y : Name) (more : List Chunk),
      xs.flatMap (fun x => [x.chunk, fixed .dot]) ++ x.chunk :: rest = y.chunk :: more ∧
      Legible (y.chunk :: more) := by
  induction xs with
  | nil => exact ⟨x, rest, rfl, x.legible hrest hbreak⟩
  | cons y ys ih =>
    obtain ⟨z, more, hmore, hlegible⟩ := ih
    refine ⟨y, fixed .dot :: z.chunk :: more, ?_, ?_⟩
    · rw [List.flatMap_cons, List.append_assoc, hmore]
      rfl
    · exact y.legible (z.legible_dot hlegible) (breaks_fixed _ (by decide))

theorem Path.legible (p : Path) {rest : List Chunk} (hrest : Legible rest)
    (hbreak : Breaks (Chunk.text rest)) : Legible (p.chunks ++ rest) := by
  obtain ⟨y, more, hmore, hlegible⟩ := legible_path p.init p.last hrest hbreak
  rw [Path.chunks, List.append_assoc, List.append_assoc, List.singleton_append, hmore]
  cases p.relative with
  | false => exact hlegible
  | true => exact y.legible_dot hlegible

theorem Source.legible (x : Source) {rest : List Chunk} (hrest : Legible rest)
    (hbreak : Breaks (Chunk.text rest)) : Legible (x.chunks ++ rest) := by
  match x with
  | .whole path => exact path.legible hrest hbreak
  | .renamed path name =>
    rw [Source.chunks, List.append_assoc]
    exact path.legible (legible_fixed (t := .arrow) rfl (name.legible hrest hbreak)) (breaks_gap _)
  | .listed path first more =>
    simp only [Source.chunks, List.append_assoc, List.cons_append]
    apply path.legible _ (breaks_gap _)
    apply legible_fixed (t := .leftParen) rfl
    apply legible_listed first.breakable _ (legible_fixed rfl hrest) (breaks_fixed _ (by decide))
    intro c hc
    obtain ⟨y, _, rfl⟩ := List.mem_map.mp hc
    exact y.breakable

/-! ### Whole statements -/

/-- A comment starts with a mark that is not blank. -/
theorem exists_cons_of_isComment {w : List Char} (hw : IsComment w) :
    ∃ c tl, w = c :: tl ∧ Text.isBlank c = false := by
  match w, hw with
  | c :: tl, ⟨hc, _⟩ =>
    refine ⟨c, tl, rfl, ?_⟩
    rcases hc with rfl | ⟨rfl, _⟩
    · decide
    · decide

theorem solid_stripChars_of_isComment {w : List Char} (hw : IsComment w) :
    Text.Solid (Text.stripChars w) := by
  obtain ⟨c, tl, rfl, hc⟩ := exists_cons_of_isComment hw
  exact Text.solid_stripChars_cons hc tl

theorem stripChars_of_isComment {w : List Char} (hw : IsComment w) :
    Text.stripChars w = Text.trimEnd w := by
  obtain ⟨c, tl, rfl, hc⟩ := exists_cons_of_isComment hw
  rw [Text.stripChars_cons hc, Text.trimEnd_cons hc]

theorem isComment_stripChars {w : List Char} (hw : IsComment w) :
    IsComment (Text.stripChars w) := by
  obtain ⟨c, tl, rfl, hblank⟩ := exists_cons_of_isComment hw
  obtain ⟨hc, hfeed⟩ := hw
  rw [Text.stripChars_cons hblank]
  refine ⟨hc.imp_right fun ⟨hslash, hstart⟩ => ⟨hslash, ?_⟩,
    fun hmem => hfeed (Text.mem_of_mem_trimEnd hmem)⟩
  obtain ⟨d, tl, rfl⟩ : ∃ d tl', tl = d :: tl' := by
    cases tl with
    | nil => cases hstart
    | cons d tl => exact ⟨d, tl, rfl⟩
  have hd : d = '/' := eq_of_beq hstart
  rw [hd, Text.trimEnd_cons (by decide)]
  rfl

theorem legible_names (x : Name) (xs : List Name) {rest : List Chunk} (hrest : Legible rest)
    (hbreak : Breaks (Chunk.text rest)) :
    Legible (x.chunk :: (xs.flatMap (fun x => [.gap, x.chunk]) ++ rest)) := by
  induction xs generalizing x with
  | nil => exact x.legible hrest hbreak
  | cons y ys ih => exact x.legible (ih y) (breaks_gap _)

/-- The chunks after a statement: none, or a new line. -/
def Ends (rest : List Chunk) : Prop :=
  rest = [] ∨ ∃ w more, rest = .word .newline ('\n' :: w) :: more

theorem Ends.breaks {rest : List Chunk} (h : Ends rest) : Breaks (Chunk.text rest) := by
  rcases h with rfl | ⟨w, more, rfl⟩
  · trivial
  · change '\n' ∈ Terminal.breaks
    decide

theorem Ends.endsLine {rest : List Chunk} (h : Ends rest) : EndsLine (Chunk.text rest) := by
  rcases h with rfl | ⟨w, more, rfl⟩
  · rfl
  · rfl

theorem isIndent_usualIndent : IsIndent Layout.usualIndent := by decide

theorem Statement.legible {indent : String} (hindent : IsIndent indent) (s : Statement)
    (hs : s.Faithful) {rest : List Chunk} (hrest : Legible rest) (hends : Ends rest) :
    Legible (s.chunks indent ++ rest) := by
  cases s with
  | definition d => exact d.legible hindent hs hrest hends.breaks
  | override e d => exact absurd hs id
  | extend e d =>
    exact legible_fixed (t := .extendWord) rfl
      (d.legible isIndent_usualIndent hs hrest hends.breaks)
  | ignore e body =>
    exact legible_fixed (t := .ignoreWord) rfl
      (body.legible_stack isIndent_usualIndent hs hrest hends.breaks)
  | declare e first more =>
    exact legible_fixed (t := .declareWord) rfl (legible_names first more hrest hends.breaks)
  | imports e source =>
    exact legible_fixed (t := .importWord) rfl (source.legible hrest hends.breaks)
  | comment e x =>
    exact ⟨rfl, reads_comment (isComment_stripChars x.spells) hends.endsLine, hrest⟩

theorem not_name_of_isBlank (c : Char) (hc : Text.isBlank c = true) :
    (isUnderscore c || isSmall c) = false ∧ (isUnderscore c || isLarge c) = false := by
  have hbounds := toNat_of_isBlank hc
  have hunderscore : isUnderscore c = false := toNat_ne_of_ne (c := c) (d := '_') (by simp; omega)
  rw [hunderscore, not_isSmall (by omega), not_isLarge (by omega)]
  decide

theorem resumes_of_isRun {mark first next : Char → Bool} {w : List Char}
    (hw : IsRun mark first next w)
    (hblank : ∀ c, Text.isBlank c = true → (mark c || first c) = false)
    (hbar : (mark '|' || first '|') = false) (r : List Char) : Resumes (w ++ r) := by
  refine ⟨startsWith_eq_false_of_isRun hw hblank r, startsWith_eq_false_of_isRun hw ?_ r⟩
  intro c hc
  rw [eq_of_beq hc, hbar]

theorem Definition.resumes {indent : String} (d : Definition) (rest : List Chunk) :
    Resumes (Chunk.text (d.chunks indent ++ rest)) := by
  cases d with
  | rule e signs name parameters priority body =>
    cases signs with
    | none =>
      exact resumes_of_isRun name.spells (fun c hc => (not_name_of_isBlank c hc).1) (by decide) _
    | some x =>
      have hspells := x.spells
      simp only [Spells, signTexts, List.mem_cons, List.not_mem_nil, or_false] at hspells
      simp only [Definition.chunks, signChunks, Word.chunk, List.cons_append, Chunk.text_cons,
        Chunk.chars]
      rcases hspells with h | h | h | h
      all_goals
        rw [h]
        exact ⟨rfl, rfl⟩
  | term e name priority body =>
    exact resumes_of_isRun name.spells (fun c hc => (not_name_of_isBlank c hc).2) (by decide) _

theorem Statement.resumes {indent : String} (s : Statement) (rest : List Chunk) :
    Resumes (Chunk.text (s.chunks indent ++ rest)) := by
  cases s with
  | definition d => exact d.resumes rest
  | comment e x =>
    have hspells := isComment_stripChars x.spells
    rw [Statement.chunks, List.singleton_append, Chunk.text_cons, Chunk.chars]
    cases hstrip : Text.stripChars x.text with
    | nil =>
      rw [hstrip] at hspells
      exact hspells.elim
    | cons c tl =>
      rw [hstrip] at hspells
      rcases hspells.1 with rfl | ⟨rfl, _⟩
      · exact ⟨rfl, rfl⟩
      · exact ⟨rfl, rfl⟩
  | _ => exact ⟨rfl, rfl⟩

/-- The layout of a faithful file is legible, also if a line end follows. -/
theorem legible_fileChunks_append {indent : String} (hindent : IsIndent indent)
    {rest : List Chunk} (hrest : Legible rest) (hends : Ends rest) (s : Statement)
    (ss : List Statement) (hs : ∀ t ∈ s :: ss, t.Faithful) :
    Legible (fileChunks indent s ss ++ rest) := by
  induction ss generalizing s with
  | nil =>
    rw [fileChunks, chunksAfter, List.flatMap_nil, List.append_nil]
    exact s.legible hindent (hs s List.mem_cons_self) hrest hends
  | cons t ss ih =>
    have htail := ih t fun u hu => hs u (List.mem_cons_of_mem _ hu)
    rw [fileChunks, List.append_assoc] at htail
    have hnewline : Legible
        (fixed .newline :: (t.chunks indent ++ (chunksAfter indent ss ++ rest))) :=
      ⟨rfl, reads_newline (t.resumes _), htail⟩
    have hlegible := s.legible hindent (hs s List.mem_cons_self) hnewline (Or.inr ⟨_, _, rfl⟩)
    rw [fileChunks, chunksAfter, List.flatMap_cons, ← chunksAfter]
    simpa using hlegible

theorem legible_fileChunks {indent : String} (hindent : IsIndent indent) (s : Statement)
    (ss : List Statement) (hs : ∀ t ∈ s :: ss, t.Faithful) : Legible (fileChunks indent s ss) := by
  have hnil : Legible ([] : List Chunk) := trivial
  have hlegible := legible_fileChunks_append hindent hnil (Or.inl rfl) s ss hs
  rwa [List.append_nil] at hlegible

end Typed

end GrammarServer
