import GrammarServer.Proofs.Typed.Written

/-!
# What a file says, wherever it stands

Two nodes say the same if they differ only in the places that they and their tokens take in a text,
and in the blanks at the end of a comment. Among the typed files that say the same, one is
canonical; it is written as all of them are.
-/
namespace GrammarServer

namespace Node

def unplacedToken (t : Token) : Token := ⟨t.kind, t.text, none, none, none, none⟩

def trimmed : Node → Node
  | token t => token { t with text := String.ofList (Text.trimEnd t.text.toList) }
  | n => n

mutual

/-- What a node says, without the places that it takes and the blanks at the end of a comment. -/
def unplaced : Node → Node
  | absent => absent
  | number n => number n
  | text s => text s
  | token t => token (unplacedToken t)
  | list items => list (unplacedAll items)
  | tree label _ children => tree label none (unplacedAll children)
  | range _ first last => range none first last
  | templateUsage _ applied arguments =>
    templateUsage none applied.unplaced (unplacedAll arguments)
  | maybe _ expansions => maybe none (unplacedAll expansions)
  | expansion _ expressions name => expansion none (unplacedAll expressions) name.unplaced
  | aliasing _ body name => aliasing none body.unplaced name.unplaced
  | expr _ atom operators => expr none atom.unplaced (unplacedAll operators)
  | term _ modifiers name priority expansions =>
    term none modifiers name.unplaced priority.unplaced (unplacedAll expansions)
  | rule _ modifiers name parameters priority expansions =>
    rule none modifiers.unplaced name.unplaced parameters.unplaced priority.unplaced
      (unplacedAll expansions)
  | declare _ symbols => declare none (unplacedAll symbols)
  | imports _ path symbols name => imports none path.unplaced symbols.unplaced name.unplaced
  | override _ definition => override none definition.unplaced
  | extend _ definition => extend none definition.unplaced
  | comment _ content => comment none content.unplaced.trimmed
  | ignore _ expansions => ignore none (unplacedAll expansions)
  | file _ statements => file none (unplacedAll statements)
  | plain _ => plain none
  | named name part => named name.unplaced part.unplaced

def unplacedAll : List Node → List Node
  | [] => []
  | n :: rest => n.unplaced :: unplacedAll rest

end

@[simp] theorem unplacedAll_eq_map (ns : List Node) : unplacedAll ns = ns.map unplaced := by
  induction ns with
  | nil => rfl
  | cons n ns ih => rw [unplacedAll, ih, List.map_cons]

end Node

namespace Typed

/-! ## Canonical files -/

theorem Lexeme.isSpelled_of_key {x y : Lexeme} (h : x.key = y.key) (hx : x.IsSpelled) :
    y.IsSpelled := by
  obtain ⟨hterminal, htext⟩ := Prod.mk.inj h
  rw [Lexeme.IsSpelled, ← hterminal, ← htext]
  exact hx

namespace Word

variable {t : Terminal}

def ofText (t : Terminal) (w : List Char) (hne : w ≠ []) (h : Terminal.Spells w t) : Word t :=
  ⟨⟨t, w, .origin, .origin⟩, rfl, hne, h⟩

def canonical (x : Word t) : Word t := ofText t x.text x.text_ne_nil x.spells

@[simp] theorem text_canonical (x : Word t) : x.canonical.text = x.text := rfl

@[simp] theorem chunk_canonical (x : Word t) : x.canonical.chunk = x.chunk := rfl

theorem canonical_eq {x y : Word t} (h : x.text = y.text) : x.canonical = y.canonical := by
  simp only [canonical, h]

@[simp] theorem unplaced_node_canonical (x : Word t) :
    x.canonical.node.unplaced = x.node.unplaced := by
  have hkind : t.name = x.lexeme.terminal.name := by rw [x.terminal_eq]
  simp only [node, Node.unplaced, Node.unplacedToken, Lexeme.token, canonical, ofText, text, hkind]

end Word

def Name.canonical : Name → Name
  | rule x => rule x.canonical
  | terminal x => terminal x.canonical

def Repetition.canonical : Repetition → Repetition
  | once => once
  | operator x => operator x.canonical
  | times mark count => times mark.canonical count.canonical
  | between mark least most => between mark.canonical least.canonical most.canonical

mutual

def Value.canonical : Value → Value
  | .name x => .name x.canonical
  | .string x => .string x.canonical
  | .regexp x => .regexp x.canonical
  | .range _ first last => .range none first.canonical last.canonical
  | .usage _ rule arguments => .usage none rule.canonical arguments.canonical

def Values.canonical : Values → Values
  | .one v => .one v.canonical
  | .cons v rest => .cons v.canonical rest.canonical

def Atom.canonical : Atom → Atom
  | .value v => .value v.canonical
  | .group body => .group body.canonical
  | .maybe _ body => .maybe none body.canonical

def Expr.canonical : Expr → Expr
  | .mk _ atom count => .mk none atom.canonical count.canonical

def Exprs.canonical : Exprs → Exprs
  | .nil => .nil
  | .cons x rest => .cons x.canonical rest.canonical

def Alternative.canonical : Alternative → Alternative
  | .plain _ body => .plain none body.canonical
  | .named _ _ body name => .named none none body.canonical name.canonical

def Alternatives.canonical : Alternatives → Alternatives
  | .one a => .one a.canonical
  | .cons a rest => .cons a.canonical rest.canonical

end

def Definition.canonical : Definition → Definition
  | rule _ signs name parameters priority body =>
    rule none (signs.map Word.canonical) name.canonical (parameters.map Word.canonical) priority
      body.canonical
  | term _ name priority body =>
    term none name.canonical (priority.map Word.canonical) body.canonical

def Path.canonical (p : Path) : Path := ⟨p.relative, p.init.map Name.canonical, p.last.canonical⟩

def Source.canonical : Source → Source
  | whole path => whole path.canonical
  | renamed path name => renamed path.canonical name.canonical
  | listed path first more => listed path.canonical first.canonical (more.map Name.canonical)

def trimmedComment (x : Word .comment) : Word .comment :=
  .ofText .comment (Text.stripChars x.text) (solid_stripChars_of_isComment x.spells).ne_nil
    (isComment_stripChars x.spells)

def Statement.canonical : Statement → Statement
  | definition d => definition d.canonical
  | override _ d => override none d.canonical
  | extend _ d => extend none d.canonical
  | ignore _ body => ignore none body.canonical
  | declare _ first more => declare none first.canonical (more.map Name.canonical)
  | imports _ source => imports none source.canonical
  | comment _ x => comment none (trimmedComment x)

/-! ## How they are written -/

@[simp] theorem Name.chunk_canonical (x : Name) : x.canonical.chunk = x.chunk := by
  cases x <;> rfl

theorem Repetition.chunks_canonical (n : Repetition) : n.canonical.chunks = n.chunks := by
  cases n <;> rfl

mutual

theorem Value.chunks_canonical : ∀ v : Value, v.canonical.chunks = v.chunks
  | .name x => by rw [Value.canonical, Value.chunks, Name.chunk_canonical, Value.chunks]
  | .string _ => rfl
  | .regexp _ => rfl
  | .range .. => rfl
  | .usage _ rule arguments => by
    rw [Value.canonical, Value.chunks, Values.chunks_canonical arguments, Word.chunk_canonical,
      Value.chunks]

theorem Values.chunks_canonical : ∀ vs : Values, vs.canonical.chunks = vs.chunks
  | .one v => Value.chunks_canonical v
  | .cons v vs => by
    rw [Values.canonical, Values.chunks, Value.chunks_canonical v, Values.chunks_canonical vs,
      Values.chunks]

theorem Atom.chunks_canonical : ∀ x : Atom, x.canonical.chunks = x.chunks
  | .value v => Value.chunks_canonical v
  | .group body => by
    rw [Atom.canonical, Atom.chunks, Alternatives.chunks_canonical body, Atom.chunks]
  | .maybe _ body => by
    rw [Atom.canonical, Atom.chunks, Alternatives.chunks_canonical body, Atom.chunks]

theorem Expr.chunks_canonical : ∀ x : Expr, x.canonical.chunks = x.chunks
  | .mk _ atom count => by
    rw [Expr.canonical, Expr.chunks, Atom.chunks_canonical atom, count.chunks_canonical,
      Expr.chunks]

theorem Exprs.chunksAfter_canonical : ∀ xs : Exprs, xs.canonical.chunksAfter = xs.chunksAfter
  | .nil => rfl
  | .cons x xs => by
    rw [Exprs.canonical, Exprs.chunksAfter, Expr.chunks_canonical x,
      Exprs.chunksAfter_canonical xs, Exprs.chunksAfter]

theorem Exprs.chunks_canonical : ∀ xs : Exprs, xs.canonical.chunks = xs.chunks
  | .nil => rfl
  | .cons x xs => by
    rw [Exprs.canonical, Exprs.chunks, Expr.chunks_canonical x,
      Exprs.chunksAfter_canonical xs, Exprs.chunks]

theorem Alternative.chunks_canonical : ∀ a : Alternative, a.canonical.chunks = a.chunks
  | .plain _ body => Exprs.chunks_canonical body
  | .named _ _ .nil name => rfl
  | .named _ _ (.cons x xs) name => by
    rw [Alternative.canonical, Exprs.canonical, Alternative.chunks, Expr.chunks_canonical x,
      Exprs.chunksAfter_canonical xs, Word.chunk_canonical, Alternative.chunks]

theorem Alternatives.chunks_canonical : ∀ as : Alternatives, as.canonical.chunks = as.chunks
  | .one a => Alternative.chunks_canonical a
  | .cons a as => by
    rw [Alternatives.canonical, Alternatives.chunks, Alternative.chunks_canonical a,
      Alternatives.chunks_canonical as, Alternatives.chunks]

end

theorem Alternative.spaced_canonical (a : Alternative) : a.canonical.spaced = a.spaced := by
  have h := a.chunks_canonical
  match a with
  | .plain _ .nil => rfl
  | .plain _ (.cons ..) => exact congrArg (Chunk.gap :: ·) h
  | .named .. => exact congrArg (Chunk.gap :: ·) h

theorem Alternatives.stack_canonical (indent : String) : ∀ as : Alternatives,
    as.canonical.stack indent = as.stack indent
  | .one a => a.spaced_canonical
  | .cons a as => by
    rw [canonical, stack, a.chunks_canonical, stack_canonical indent as, stack]

theorem map_chunk_canonical (xs : List Name) :
    (xs.map Name.canonical).map Name.chunk = xs.map Name.chunk := by
  rw [List.map_map]
  exact List.map_congr_left fun x _ => x.chunk_canonical

theorem parameterChunks_canonical (xs : List (Word .ruleName)) :
    parameterChunks (xs.map Word.canonical) = parameterChunks xs := by
  cases xs with
  | nil => rfl
  | cons x xs =>
    rw [List.map_cons, parameterChunks, parameterChunks, List.map_map]
    rfl

theorem Definition.chunks_canonical (indent : String) (d : Definition) :
    d.canonical.chunks indent = d.chunks indent := by
  cases d with
  | rule e signs name parameters priority body =>
    rw [canonical, chunks, parameterChunks_canonical, body.stack_canonical, chunks]
    cases signs <;> rfl
  | term e name priority body =>
    rw [canonical, chunks, body.stack_canonical, chunks]
    cases priority <;> rfl

theorem Path.chunks_canonical (p : Path) : p.canonical.chunks = p.chunks := by
  rw [canonical, chunks, chunks, List.flatMap_map, p.last.chunk_canonical]
  simp only [Name.chunk_canonical]

theorem Source.chunks_canonical (x : Source) : x.canonical.chunks = x.chunks := by
  cases x with
  | whole path => exact path.chunks_canonical
  | renamed path name =>
    rw [canonical, chunks, path.chunks_canonical, name.chunk_canonical, chunks]
  | listed path first more =>
    rw [canonical, chunks, path.chunks_canonical, first.chunk_canonical, map_chunk_canonical,
      chunks]

theorem Statement.chunks_canonical (indent : String) (s : Statement) :
    s.canonical.chunks indent = s.chunks indent := by
  cases s with
  | definition d => exact d.chunks_canonical indent
  | override e d => rw [canonical, chunks, d.chunks_canonical, chunks]
  | extend e d => rw [canonical, chunks, d.chunks_canonical, chunks]
  | ignore e body => rw [canonical, chunks, body.stack_canonical, chunks]
  | declare e first more =>
    rw [canonical, chunks, first.chunk_canonical, List.flatMap_map, chunks]
    simp only [Name.chunk_canonical]
  | imports e source => rw [canonical, chunks, source.chunks_canonical, chunks]
  | comment e x =>
    have hstrip := Text.stripChars_solid (solid_stripChars_of_isComment x.spells)
    rw [canonical, chunks, chunks]
    exact congrArg (fun w => [Chunk.word .comment w]) hstrip

theorem chunksAfter_canonical (indent : String) (ss : List Statement) :
    chunksAfter indent (ss.map Statement.canonical) = chunksAfter indent ss := by
  rw [chunksAfter, chunksAfter, List.flatMap_map]
  simp only [Statement.chunks_canonical]

/-! ## Which of them are faithful -/

mutual

theorem Value.faithful_canonical : ∀ v : Value, v.canonical.Faithful ↔ v.Faithful
  | .name _ => Iff.rfl
  | .string _ => Iff.rfl
  | .regexp _ => Iff.rfl
  | .range .. => Iff.rfl
  | .usage _ _ arguments => Values.faithful_canonical arguments

theorem Values.faithful_canonical : ∀ vs : Values, vs.canonical.Faithful ↔ vs.Faithful
  | .one v => Value.faithful_canonical v
  | .cons v vs => and_congr (Value.faithful_canonical v) (Values.faithful_canonical vs)

theorem Atom.faithful_canonical : ∀ x : Atom, x.canonical.Faithful ↔ x.Faithful
  | .value v => Value.faithful_canonical v
  | .group body =>
    and_congr (Alternatives.unnamed_canonical body) (Alternatives.faithful_canonical body)
  | .maybe _ body => Alternatives.faithful_canonical body

theorem Expr.faithful_canonical : ∀ x : Expr, x.canonical.Faithful ↔ x.Faithful
  | .mk _ atom _ => Atom.faithful_canonical atom

theorem Exprs.faithful_canonical : ∀ xs : Exprs, xs.canonical.Faithful ↔ xs.Faithful
  | .nil => Iff.rfl
  | .cons x xs => and_congr (Expr.faithful_canonical x) (Exprs.faithful_canonical xs)

theorem Alternative.faithful_canonical : ∀ a : Alternative, a.canonical.Faithful ↔ a.Faithful
  | .plain _ body => Exprs.faithful_canonical body
  | .named _ _ body _ => Exprs.faithful_canonical body

theorem Alternatives.faithful_canonical : ∀ as : Alternatives,
    as.canonical.Faithful ↔ as.Faithful
  | .one a => Alternative.faithful_canonical a
  | .cons a as => and_congr (Alternative.faithful_canonical a) (Alternatives.faithful_canonical as)

theorem Alternatives.unnamed_canonical : ∀ as : Alternatives, as.canonical.Unnamed ↔ as.Unnamed
  | .one (.plain ..) => Iff.rfl
  | .one (.named ..) => Iff.rfl
  | .cons (.plain ..) as => and_congr_right fun _ => Alternatives.unnamed_canonical as
  | .cons (.named ..) as => and_congr_right fun _ => Alternatives.unnamed_canonical as

end

theorem Definition.faithful_canonical (d : Definition) : d.canonical.Faithful ↔ d.Faithful := by
  cases d with
  | rule e signs name parameters priority body => exact body.faithful_canonical
  | term e name priority body => exact body.faithful_canonical

theorem Statement.faithful_canonical (s : Statement) : s.canonical.Faithful ↔ s.Faithful := by
  cases s with
  | definition d => exact d.faithful_canonical
  | extend e d => exact d.faithful_canonical
  | ignore e body => exact body.faithful_canonical
  | imports e source =>
    cases source with
    | whole path => exact not_congr List.map_eq_nil_iff
    | renamed path name => exact not_congr List.map_eq_nil_iff
    | listed path first more =>
      exact and_congr List.map_eq_nil_iff (not_congr List.map_eq_nil_iff)
  | override | declare | comment => exact Iff.rfl

/-! ## What they say -/

open Node (unplaced)

@[simp] theorem Name.unplaced_node_canonical (x : Name) :
    x.canonical.node.unplaced = x.node.unplaced := by
  cases x with
  | rule x => exact x.unplaced_node_canonical
  | terminal x => exact x.unplaced_node_canonical

theorem Name.text_canonical (x : Name) : x.canonical.text = x.text := by
  cases x <;> rfl

theorem Repetition.unplaced_nodes_canonical (n : Repetition) :
    n.canonical.nodes.map unplaced = n.nodes.map unplaced := by
  cases n <;> simp [canonical, nodes]

mutual

theorem Value.unplaced_node_canonical : ∀ v : Value,
    v.canonical.node.unplaced = v.node.unplaced
  | .name x => x.unplaced_node_canonical
  | .string x => x.unplaced_node_canonical
  | .regexp x => x.unplaced_node_canonical
  | .range .. => rfl
  | .usage _ rule arguments => by
    simp [Value.canonical, Value.node, unplaced, Values.unplaced_nodes_canonical arguments]

theorem Values.unplaced_nodes_canonical : ∀ vs : Values,
    vs.canonical.nodes.map unplaced = vs.nodes.map unplaced
  | .one v => by
    simp [Values.canonical, Values.nodes, Value.unplaced_node_canonical v]
  | .cons v vs => by
    simp [Values.canonical, Values.nodes, Value.unplaced_node_canonical v,
      Values.unplaced_nodes_canonical vs]

theorem Atom.unplaced_node_canonical : ∀ x : Atom, x.canonical.node.unplaced = x.node.unplaced
  | .value v => Value.unplaced_node_canonical v
  | .group body => by
    simp [Atom.canonical, Atom.node, unplaced, Alternatives.unplaced_nodes_canonical body]
  | .maybe _ body => by
    simp [Atom.canonical, Atom.node, unplaced, Alternatives.unplaced_resolved_canonical body]

theorem Expr.unplaced_node_canonical : ∀ x : Expr, x.canonical.node.unplaced = x.node.unplaced
  | .mk _ atom count => by
    simp [Expr.canonical, Expr.node, unplaced, Atom.unplaced_node_canonical atom,
      count.unplaced_nodes_canonical]

theorem Exprs.unplaced_nodes_canonical : ∀ xs : Exprs,
    xs.canonical.nodes.map unplaced = xs.nodes.map unplaced
  | .nil => rfl
  | .cons x xs => by
    simp [Exprs.canonical, Exprs.nodes, Expr.unplaced_node_canonical x,
      Exprs.unplaced_nodes_canonical xs]

theorem Alternative.unplaced_node_canonical : ∀ a : Alternative,
    a.canonical.node.unplaced = a.node.unplaced
  | .plain _ body => by
    simp [Alternative.canonical, Alternative.node, unplaced, Exprs.unplaced_nodes_canonical body]
  | .named _ _ body _ => by
    simp [Alternative.canonical, Alternative.node, unplaced, Exprs.unplaced_nodes_canonical body]

theorem Alternative.unplaced_resolved_canonical : ∀ a : Alternative,
    a.canonical.resolved.unplaced = a.resolved.unplaced
  | .plain _ body => by
    simp [Alternative.canonical, Alternative.resolved, unplaced,
      Exprs.unplaced_nodes_canonical body]
  | .named _ _ body _ => by
    simp [Alternative.canonical, Alternative.resolved, unplaced,
      Exprs.unplaced_nodes_canonical body]

theorem Alternatives.unplaced_nodes_canonical : ∀ as : Alternatives,
    as.canonical.nodes.map unplaced = as.nodes.map unplaced
  | .one a => by
    simp [Alternatives.canonical, Alternatives.nodes, Alternative.unplaced_node_canonical a]
  | .cons a as => by
    simp [Alternatives.canonical, Alternatives.nodes, Alternative.unplaced_node_canonical a,
      Alternatives.unplaced_nodes_canonical as]

theorem Alternatives.unplaced_resolved_canonical : ∀ as : Alternatives,
    as.canonical.resolved.map unplaced = as.resolved.map unplaced
  | .one a => by
    simp [Alternatives.canonical, Alternatives.resolved, Alternative.unplaced_resolved_canonical a]
  | .cons a as => by
    simp [Alternatives.canonical, Alternatives.resolved,
      Alternative.unplaced_resolved_canonical a, Alternatives.unplaced_resolved_canonical as]

end

theorem Definition.unplaced_node_canonical (d : Definition) :
    d.canonical.node.unplaced = d.node.unplaced := by
  cases d with
  | rule e signs name parameters priority body =>
    have hsigns : signChars (signs.map Word.canonical) = signChars signs := by
      cases signs <;> rfl
    simp [canonical, node, unplaced, hsigns, Alternatives.unplaced_resolved_canonical body]
  | term e name priority body =>
    have hpriority : (termPriority (priority.map Word.canonical)).unplaced =
        (termPriority priority).unplaced := by
      cases priority with
      | none => rfl
      | some x => exact x.unplaced_node_canonical
    simp [canonical, node, unplaced, hpriority, Alternatives.unplaced_resolved_canonical body]

theorem Path.text_canonical (p : Path) : p.canonical.text = p.text := by
  rw [text, text, canonical, List.map_map]
  simp only [Function.comp_def, Name.text_canonical]

@[simp] theorem Path.last_canonical (p : Path) : p.canonical.last = p.last.canonical := rfl

theorem Source.unplaced_node_canonical (e e' : Option Extent) (x : Source) :
    (x.canonical.node e).unplaced = (x.node e').unplaced := by
  cases x with
  | whole path =>
    simp [canonical, node, unplaced, path.text_canonical]
  | renamed path name =>
    simp [canonical, node, unplaced, path.text_canonical]
  | listed path first more =>
    simp [canonical, node, unplaced, path.text_canonical, Name.text_canonical]

theorem Statement.unplaced_node_canonical (s : Statement) :
    s.canonical.node.unplaced = s.node.unplaced := by
  cases s with
  | definition d => exact d.unplaced_node_canonical
  | override e d => simp [canonical, node, unplaced, d.unplaced_node_canonical]
  | extend e d => simp [canonical, node, unplaced, d.unplaced_node_canonical]
  | ignore e body => simp [canonical, node, unplaced, Alternatives.unplaced_resolved_canonical body]
  | declare e first more => simp [canonical, node, unplaced]
  | imports e source => exact source.unplaced_node_canonical none e
  | comment e x =>
    have htrim : Text.trimEnd (Text.stripChars x.text) = Text.trimEnd x.text := by
      have hcomment : Terminal.IsComment x.text := x.spells
      rw [← stripChars_of_isComment (isComment_stripChars hcomment),
        Text.stripChars_solid (solid_stripChars_of_isComment hcomment),
        stripChars_of_isComment hcomment]
    have hkind : x.lexeme.terminal.name = Terminal.comment.name := by rw [x.terminal_eq]
    have htext : x.lexeme.text = x.text := rfl
    simp [canonical, node, unplaced, Node.trimmed, Node.unplacedToken, trimmedComment, Word.ofText,
      Word.node, Lexeme.token, hkind, htext, htrim]

end Typed

end GrammarServer
