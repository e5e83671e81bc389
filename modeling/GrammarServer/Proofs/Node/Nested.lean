import GrammarServer.Proofs.Node.Built
import GrammarServer.Proofs.Parse.Order

/-!
# Parts lie inside what they are parts of

In a node that comes from a source, every token that has a place and every part that covers some
text lies inside the part around it. A part that covers no text has neither in it. Conversions keep
this up: the nodes of a phrase lie inside its extent, and so does all that is made of them.
-/
namespace GrammarServer

structure Token.StandsIn (t : Token) (e : Extent) : Prop where
  line : t.line = some e.line
  column : t.column = some e.column
  counted : 1 ≤ e.line ∧ 1 ≤ e.column
  width : '\n' ∉ t.text.toList → e.endLine = e.line ∧ e.endColumn = e.column + t.text.length

theorem Lexeme.standsIn_token {x : Lexeme} (h : x.IsPlaced) : x.token.StandsIn x.extent := by
  refine ⟨rfl, rfl, ?_, ?_⟩
  · have hline := h.counted.1
    have hcolumn := h.counted.2
    simp only [extent]
    omega
  · intro htext
    rw [token, String.toList_ofList] at htext
    obtain ⟨hline, hcolumn⟩ := x.start.after_of_not_mem htext
    rw [extent, h.stop, hline, hcolumn, token, String.length_ofList]
    exact ⟨rfl, Int.natCast_add _ _⟩

namespace Node

def parts : Node → List Node
  | absent | number _ | text _ | token _ | range .. | plain _ => []
  | list items | tree _ _ items | maybe _ items | declare _ items | ignore _ items
  | file _ items => items
  | templateUsage _ first rest | expr _ first rest => first :: rest
  | expansion _ expressions name => name :: expressions
  | aliasing _ body name => [body, name]
  | term _ _ name priority expansions => name :: priority :: expansions
  | rule _ modifiers name parameters priority expansions =>
    modifiers :: name :: parameters :: priority :: expansions
  | imports _ path symbols name => [path, symbols, name]
  | override _ n | extend _ n | comment _ n => [n]
  | named name part => [name, part]

/-- The extents that may occur in a node, given those that it may have itself. -/
def room (P : Extent → Prop) : Node → Extent → Prop
  | list _ | named .. => P
  | n => Extent.Covers n.extent

structure IsAllowed (P : Extent → Prop) (n : Node) : Prop where
  token : ∀ t, n = token t → t.line ≠ none → ∃ e, t.StandsIn e ∧ P e
  part : ∀ e, n.extent = some e → P e

/-- A node and all in it cover text as they may. -/
inductive Nested : (Extent → Prop) → Node → Prop
  | intro {P : Extent → Prop} {n : Node} :
      n.IsAllowed P → (∀ m ∈ n.parts, Nested (n.room P) m) → Nested P n

variable {P Q : Extent → Prop} {e outer : Option Extent} {n m : Node} {ns : List Node}

theorem nested_iff : Nested P n ↔ n.IsAllowed P ∧ ∀ m ∈ n.parts, Nested (n.room P) m :=
  ⟨fun ⟨hn, hparts⟩ => ⟨hn, hparts⟩, fun ⟨hn, hparts⟩ => ⟨hn, hparts⟩⟩

theorem IsAllowed.mono (h : n.IsAllowed P) (hPQ : ∀ e, P e → Q e) : n.IsAllowed Q := by
  refine ⟨?_, fun e he => hPQ e (h.part e he)⟩
  intro t ht hline
  obtain ⟨e, hstands, he⟩ := h.token t ht hline
  exact ⟨e, hstands, hPQ e he⟩

theorem Nested.mono (h : Nested P n) : ∀ {Q : Extent → Prop}, (∀ e, P e → Q e) → Nested Q n := by
  induction h with
  | @intro P n hn _ ih =>
    intro Q hPQ
    refine ⟨hn.mono hPQ, fun m hm => ih m hm ?_⟩
    intro e he
    cases n <;> first | exact hPQ e he | exact he

/-- What lies inside an extent lies inside any other that covers the extent. -/
theorem Nested.widen (h : Nested (Extent.Covers e) n)
    (he : ∀ x, e = some x → Extent.Covers outer x) : Nested (Extent.Covers outer) n :=
  h.mono fun _ hx => hx.trans he

theorem Nested.of_mem_parts (h : Nested (Extent.Covers outer) n) (hm : m ∈ n.parts) :
    Nested (Extent.Covers outer) m := by
  obtain ⟨hn, hparts⟩ := nested_iff.mp h
  apply (hparts m hm).mono
  intro x hx
  cases n <;> first | exact hx | exact hx.trans hn.part | cases hx

/-- A part lies inside an extent if what it is made up of lies inside its own. -/
theorem nested_part (hroom : n.room (Extent.Covers outer) = Extent.Covers e)
    (hextent : n.extent = e) (htoken : n.isToken = false)
    (he : ∀ x, e = some x → Extent.Covers outer x)
    (hparts : ∀ m ∈ n.parts, Nested (Extent.Covers e) m) : Nested (Extent.Covers outer) n := by
  refine ⟨⟨?_, ?_⟩, ?_⟩
  · rintro t rfl
    cases htoken
  · rw [hextent]
    exact he
  · rwa [hroom]

theorem nested_absent : Nested P absent := ⟨⟨nofun, nofun⟩, nofun⟩

theorem nested_number (k : Int) : Nested P (number k) := ⟨⟨nofun, nofun⟩, nofun⟩

theorem nested_text (s : String) : Nested P (text s) := ⟨⟨nofun, nofun⟩, nofun⟩

theorem nested_list (h : ∀ m ∈ ns, Nested P m) : Nested P (list ns) := ⟨⟨nofun, nofun⟩, h⟩

theorem nested_letters (s : String) : ∀ m ∈ letters s, Nested P m := by
  intro m hm
  obtain ⟨c, _, rfl⟩ := List.mem_map.mp hm
  exact nested_text _

theorem nested_named {name : Node} (hname : Nested P name) (hpart : Nested P n) :
    Nested P (named name n) := by
  refine ⟨⟨nofun, (nested_iff.mp hpart).1.part⟩, ?_⟩
  intro m hm
  obtain _ | ⟨_, _ | ⟨_, ⟨⟩⟩⟩ := hm
  · exact hname
  · exact hpart

/-! ## Aliases -/

theorem nested_withExtent (he : ∀ x, e = some x → Extent.Covers outer x) :
    ∀ {n m : Node}, n.withExtent e = .ok m → Nested (Extent.Covers e) n →
      Nested (Extent.Covers outer) m
  | named name part, m, h, hn => by
    rw [withExtent] at h
    cases hpart : part.withExtent e with
    | error f =>
      rw [hpart] at h
      cases h
    | ok part' =>
      rw [hpart] at h
      cases h
      have hname : Nested (Extent.Covers e) name := hn.of_mem_parts (by simp [parts])
      have hinner : Nested (Extent.Covers e) part := hn.of_mem_parts (by simp [parts])
      exact nested_named (hname.widen he) (nested_withExtent he hpart hinner)
  | range .., m, h, hn | templateUsage .., m, h, hn | maybe .., m, h, hn
  | expansion .., m, h, hn | aliasing .., m, h, hn | expr .., m, h, hn | term .., m, h, hn
  | rule .., m, h, hn | declare .., m, h, hn | imports .., m, h, hn | override .., m, h, hn
  | extend .., m, h, hn | comment .., m, h, hn | ignore .., m, h, hn | file .., m, h, hn
  | plain _, m, h, hn => by
    cases h
    exact nested_part rfl rfl rfl he fun m hm => hn.of_mem_parts hm
  | absent, m, h, _ | number _, m, h, _ | text _, m, h, _ | token _, m, h, _
  | list _, m, h, _ | tree .., m, h, _ => by cases h

theorem nested_aliased {name : Node} (he : ∀ x, e = some x → Extent.Covers outer x)
    (hname : Nested (Extent.Covers e) name) (hn : Nested (Extent.Covers e) n)
    (h : aliased e name n = .ok m) : Nested (Extent.Covers outer) m := by
  have hother : ∀ {n m : Node}, Nested (Extent.Covers e) n →
      (n.withExtent e).map (named name) = .ok m → Nested (Extent.Covers outer) m := by
    intro n m hn h
    cases hwith : n.withExtent e with
    | error f =>
      rw [hwith] at h
      cases h
    | ok n' =>
      rw [hwith] at h
      cases h
      exact nested_named (hname.widen he) (nested_withExtent he hwith hn)
  unfold aliased at h
  split at h
  case h_1 inner expressions old =>
    cases h
    refine nested_part rfl rfl rfl he (List.forall_mem_cons.mpr ⟨hname, ?_⟩)
    intro x hx
    exact hn.of_mem_parts (List.mem_cons_of_mem old hx)
  case h_2 inner path symbols old =>
    cases h
    refine nested_part rfl rfl rfl he ?_
    have hpath : Nested (Extent.Covers e) path := hn.of_mem_parts (by simp [parts])
    have hsymbols : Nested (Extent.Covers e) symbols := hn.of_mem_parts (by simp [parts])
    intro x hx
    obtain _ | ⟨_, _ | ⟨_, _ | ⟨_, ⟨⟩⟩⟩⟩ := hx
    · exact hpath
    · exact hsymbols
    · exact hname
  case h_3 old part => exact hother (hn.of_mem_parts (by simp [parts])) h
  case h_4 => exact hother hn h

theorem nested_resolveAlias (h : n.resolveAlias = .ok m) (hn : Nested (Extent.Covers outer) n) :
    Nested (Extent.Covers outer) m := by
  unfold resolveAlias at h
  split at h
  case h_2 =>
    cases h
    exact hn
  case h_1 e body name =>
    obtain ⟨hallowed, hparts⟩ := nested_iff.mp hn
    exact nested_aliased hallowed.part (hparts name (by simp [parts]))
      (hparts body (by simp [parts])) h

theorem nested_settleAlias (h : n.settleAlias = .ok m) (hn : Nested (Extent.Covers outer) n) :
    Nested (Extent.Covers outer) m := by
  unfold settleAlias at h
  split at h
  case h_2 =>
    cases h
    exact hn
  case h_1 e body name =>
    obtain ⟨body', hbody', heq⟩ := bind_eq_ok.mp h
    obtain rfl := pure_eq_ok.mp heq
    obtain ⟨hallowed, hparts⟩ := nested_iff.mp hn
    have hname : Nested (Extent.Covers e) name := hparts name (by simp [parts])
    have hself : ∀ x, e = some x → Extent.Covers e x := by
      rintro x rfl
      exact Extent.covers_self (hallowed.part x rfl).isProper
    refine nested_part rfl rfl rfl hallowed.part ?_
    intro x hx
    obtain _ | ⟨_, _ | ⟨_, ⟨⟩⟩⟩ := hx
    · exact nested_aliased hself hname (hparts body (by simp [parts])) hbody'
    · exact hname

theorem nested_mapM {f : Node → Except Fault Node} {items out : List Node}
    (hf : ∀ {n m : Node}, f n = .ok m → Nested P n → Nested P m) (h : items.mapM f = .ok out)
    (hitems : ∀ n ∈ items, Nested P n) : ∀ m ∈ out, Nested P m := by
  intro m hm
  obtain ⟨n, hn, hfn⟩ := exists_of_mem_mapM h hm
  exact hf hfn (hitems n hn)

/-! ## Items -/

theorem nested_elements (h : n.elements = .ok ns) (hn : Nested (Extent.Covers outer) n) :
    ∀ m ∈ ns, Nested (Extent.Covers outer) m := by
  unfold elements at h
  split at h
  case h_1 | h_2 =>
    cases h
    exact fun m hm => hn.of_mem_parts hm
  case h_3 | h_4 =>
    cases h
    exact nested_letters _
  case h_5 => cases h

theorem nested_expansionsOf (h : n.expansionsOf = .ok ns) (hn : Nested (Extent.Covers outer) n) :
    ∀ m ∈ ns, Nested (Extent.Covers outer) m := by
  obtain ⟨items, hitems, hmap⟩ := bind_eq_ok.mp h
  exact nested_mapM nested_resolveAlias hmap (nested_elements hitems hn)

theorem nested_settled (h : n.settled = .ok m) (hn : Nested (Extent.Covers outer) n) :
    Nested (Extent.Covers outer) m := by
  unfold settled at h
  split at h
  case h_3 =>
    cases h
    exact hn
  case h_1 items =>
    obtain ⟨items', hmap, heq⟩ := bind_eq_ok.mp h
    obtain rfl := pure_eq_ok.mp heq
    exact nested_list (nested_mapM nested_settleAlias hmap fun _ hm => hn.of_mem_parts hm)
  case h_2 e items =>
    obtain ⟨items', hmap, heq⟩ := bind_eq_ok.mp h
    obtain rfl := pure_eq_ok.mp heq
    obtain ⟨hallowed, hparts⟩ := nested_iff.mp hn
    exact nested_part rfl rfl rfl hallowed.part (nested_mapM nested_settleAlias hmap hparts)

theorem nested_item {place : Int} (h : n.item place = .ok m)
    (hn : Nested (Extent.Covers outer) n) : Nested (Extent.Covers outer) m := by
  unfold item at h
  split at h
  case h_1 items | h_2 items =>
    split at h
    case h_2 => cases h
    case h_1 x hx =>
      split at h
      · cases h
      · cases h
        exact hn.of_mem_parts (List.mem_of_getElem? hx)
  case h_3 | h_4 =>
    simp only at h
    split at h
    case h_2 => cases h
    case h_1 =>
      split at h
      · cases h
      · cases h
        exact nested_text _
  case h_5 => cases h

theorem mem_of_child {place : Nat} (h : child ns place = .ok n) : n ∈ ns := by
  unfold child at h
  split at h
  case h_2 => cases h
  case h_1 x hx =>
    cases h
    exact List.mem_of_getElem? hx

theorem mem_of_lastChild (h : lastChild ns = .ok n) : n ∈ ns := by
  unfold lastChild at h
  split at h
  case h_2 => cases h
  case h_1 x hx =>
    cases h
    exact List.mem_of_getLast? hx

theorem nested_orElse {fallback : Node} (hn : Nested P n) (hfallback : Nested P fallback) :
    Nested P (n.orElse fallback) := by
  unfold orElse
  split
  · exact hn
  · exact hfallback

/-! ## Conversions -/

theorem nested_termPriority : ∀ {ns : List Node}, (∀ m ∈ ns, Nested P m) →
    Nested P (match ns with
      | [_, priority, _] => priority.orElse (number 0)
      | _ => number 0) := by
  intro ns hns
  split
  · exact nested_orElse (hns _ (by simp)) (nested_number 0)
  · exact nested_number 0

section

variable (he : ∀ x, e = some x → Extent.Covers outer x)
  (hns : ∀ m ∈ ns, Nested (Extent.Covers e) m)

include he hns

theorem nested_makeTerm (h : Form.term.make e ns = .ok n) : Nested (Extent.Covers outer) n := by
  obtain ⟨name, hname, h⟩ := bind_eq_ok.mp h
  obtain ⟨body, hbody, h⟩ := bind_eq_ok.mp h
  obtain ⟨expansions, hexpansions, h⟩ := bind_eq_ok.mp h
  have hterm : ∀ {marks : List String} {name priority : Node}, Nested (Extent.Covers e) name →
      Nested (Extent.Covers e) priority →
      Nested (Extent.Covers outer) (term e marks name priority expansions) := by
    intro marks name priority hname hpriority
    refine nested_part rfl rfl rfl he ?_
    exact List.forall_mem_cons.mpr ⟨hname, List.forall_mem_cons.mpr
      ⟨hpriority, nested_expansionsOf hexpansions (hns body (mem_of_lastChild hbody))⟩⟩
  have hpriority := nested_termPriority hns
  have hname := hns name (mem_of_child hname)
  simp only at h
  split at h
  · obtain ⟨name', hname', h⟩ := bind_eq_ok.mp h
    obtain rfl := pure_eq_ok.mp h
    exact hterm (nested_settled hname' hname) hpriority
  · cases h
    exact hterm hname hpriority

theorem nested_makeRule (h : Form.rule.make e ns = .ok n) : Nested (Extent.Covers outer) n := by
  obtain ⟨modifiers, hmodifiers, h⟩ := bind_eq_ok.mp h
  obtain ⟨name, hname, h⟩ := bind_eq_ok.mp h
  obtain ⟨parameters, hparameters, h⟩ := bind_eq_ok.mp h
  obtain ⟨priority, hpriority, h⟩ := bind_eq_ok.mp h
  obtain ⟨body, hbody, h⟩ := bind_eq_ok.mp h
  obtain ⟨expansions, hexpansions, h⟩ := bind_eq_ok.mp h
  obtain ⟨modifiers', hmodifiers', h⟩ := bind_eq_ok.mp h
  obtain rfl := pure_eq_ok.mp h
  have hnil : Nested (Extent.Covers e) (list []) := nested_list nofun
  have hbefore := nested_orElse (hns modifiers (mem_of_child hmodifiers)) hnil
  have hafter : Nested (Extent.Covers e) modifiers' := by
    unfold ruleModifiers at hmodifiers'
    split at hmodifiers'
    · split at hmodifiers'
      case h_1 items heq =>
        cases hmodifiers'
        rw [heq] at hbefore
        apply nested_list
        intro m hm
        rcases List.mem_append.mp hm with hm | hm
        · exact hbefore.of_mem_parts hm
        · rw [List.mem_singleton.mp hm]
          exact nested_text _
      case h_2 => cases hmodifiers'
    · cases hmodifiers'
      exact hbefore
  refine nested_part rfl rfl rfl he ?_
  refine List.forall_mem_cons.mpr ⟨hafter, List.forall_mem_cons.mpr ⟨?_, ?_⟩⟩
  · exact hns name (mem_of_child hname)
  refine List.forall_mem_cons.mpr ⟨?_, List.forall_mem_cons.mpr ⟨?_, ?_⟩⟩
  · exact nested_orElse (hns parameters (mem_of_child hparameters)) hnil
  · exact nested_orElse (hns priority (mem_of_child hpriority)) (nested_number 0)
  · exact nested_expansionsOf hexpansions (hns body (mem_of_child hbody))

theorem nested_makeImport (h : makeImport e ns = .ok n) : Nested (Extent.Covers outer) n := by
  have himports : ∀ {path symbols name : Node}, Nested (Extent.Covers e) path →
      Nested (Extent.Covers e) symbols → Nested (Extent.Covers e) name →
      Nested (Extent.Covers outer) (imports e path symbols name) := by
    intro path symbols name hpath hsymbols hname
    refine nested_part rfl rfl rfl he ?_
    exact List.forall_mem_cons.mpr ⟨hpath, List.forall_mem_cons.mpr
      ⟨hsymbols, List.forall_mem_cons.mpr ⟨hname, nofun⟩⟩⟩
  have hsingle : ∀ {symbol : Node}, Nested (Extent.Covers e) symbol →
      Nested (Extent.Covers e) (list [symbol]) := fun hsymbol =>
    nested_list (List.forall_mem_cons.mpr ⟨hsymbol, nofun⟩)
  unfold makeImport at h
  split at h
  case h_1 source =>
    obtain ⟨path, hpath, h⟩ := bind_eq_ok.mp h
    obtain ⟨symbol, hsymbol, h⟩ := bind_eq_ok.mp h
    obtain rfl := pure_eq_ok.mp h
    have hsource := hns source (by simp)
    exact himports (nested_item hpath hsource) (hsingle (nested_item hsymbol hsource))
      nested_absent
  case h_2 source t =>
    obtain ⟨items, hitems, h⟩ := bind_eq_ok.mp h
    obtain ⟨path, hpath, h⟩ := bind_eq_ok.mp h
    obtain ⟨symbol, hsymbol, h⟩ := bind_eq_ok.mp h
    obtain rfl := pure_eq_ok.mp h
    exact himports (nested_text _) (hsingle (nested_item hsymbol (hns source (by simp))))
      (hns (token t) (by simp))
  case h_3 =>
    obtain ⟨source, hsource, h⟩ := bind_eq_ok.mp h
    obtain ⟨items, hitems, h⟩ := bind_eq_ok.mp h
    obtain ⟨path, hpath, h⟩ := bind_eq_ok.mp h
    obtain ⟨symbols, hsymbols, h⟩ := bind_eq_ok.mp h
    obtain rfl := pure_eq_ok.mp h
    exact himports (nested_text _) (hns symbols (mem_of_child hsymbols)) nested_absent

theorem nested_make {f : Form} (h : f.make e ns = .ok n) : Nested (Extent.Covers outer) n := by
  cases f
  case range =>
    obtain ⟨first, hfirst, h⟩ := bind_eq_ok.mp h
    obtain ⟨last, hlast, h⟩ := bind_eq_ok.mp h
    obtain rfl := pure_eq_ok.mp h
    exact nested_part rfl rfl rfl he nofun
  case templateUsage | expr =>
    obtain ⟨first, hfirst, h⟩ := bind_eq_ok.mp h
    obtain rfl := pure_eq_ok.mp h
    refine nested_part rfl rfl rfl he (List.forall_mem_cons.mpr ⟨?_, ?_⟩)
    · exact hns first (mem_of_child hfirst)
    · exact fun m hm => hns m (List.mem_of_mem_tail hm)
  case maybe | ignore =>
    obtain ⟨body, hbody, h⟩ := bind_eq_ok.mp h
    obtain ⟨expansions, hexpansions, h⟩ := bind_eq_ok.mp h
    obtain rfl := pure_eq_ok.mp h
    refine nested_part rfl rfl rfl he ?_
    exact nested_expansionsOf hexpansions (hns body (mem_of_child hbody))
  case expansion =>
    cases h
    exact nested_part rfl rfl rfl he (List.forall_mem_cons.mpr ⟨nested_absent, hns⟩)
  case aliasing =>
    obtain ⟨body, hbody, h⟩ := bind_eq_ok.mp h
    obtain ⟨name, hname, h⟩ := bind_eq_ok.mp h
    obtain rfl := pure_eq_ok.mp h
    refine nested_part rfl rfl rfl he (List.forall_mem_cons.mpr ⟨?_, ?_⟩)
    · exact hns body (mem_of_child hbody)
    · exact List.forall_mem_cons.mpr ⟨hns name (mem_of_child hname), nofun⟩
  case term => exact nested_makeTerm he hns h
  case rule => exact nested_makeRule he hns h
  case declare =>
    cases h
    exact nested_part rfl rfl rfl he hns
  case imports => exact nested_makeImport he hns h
  case override | extend =>
    obtain ⟨body, hbody, h⟩ := bind_eq_ok.mp h
    obtain rfl := pure_eq_ok.mp h
    refine nested_part rfl rfl rfl he (List.forall_mem_cons.mpr ⟨?_, nofun⟩)
    exact hns body (mem_of_child hbody)
  case comment =>
    cases h
    refine nested_part rfl rfl rfl he (List.forall_mem_cons.mpr ⟨?_, nofun⟩)
    cases ns with
    | nil =>
      refine ⟨⟨?_, nofun⟩, nofun⟩
      intro t ht hline
      cases ht
      exact absurd rfl hline
    | cons n ns => exact hns n (by simp)
  case file =>
    cases h
    exact nested_part rfl rfl rfl he fun m hm => hns m (List.mem_filter.mp hm).1
  case plain =>
    cases h
    exact nested_part rfl rfl rfl he nofun

theorem nested_ofPhrase {c : Conversion} (h : c.ofPhrase e ns = .ok n) :
    Nested (Extent.Covers outer) n := by
  have hwide : ∀ m ∈ ns, Nested (Extent.Covers outer) m := fun m hm => (hns m hm).widen he
  cases c
  case signs =>
    simp only [Conversion.ofPhrase] at h
    split at h
    · cases h
      exact nested_list (nested_letters _)
    · cases h
      exact nested_absent
  case listing =>
    cases h
    split
    · exact nested_absent
    · exact nested_list hwide
  case integer =>
    simp only [Conversion.ofPhrase] at h
    split at h
    · split at h
      · cases h
        exact nested_number _
      · cases h
      · cases h
    · cases h
      exact nested_absent
  case source start =>
    obtain ⟨path, hpath, h⟩ := bind_eq_ok.mp h
    obtain ⟨name, hname, h⟩ := bind_eq_ok.mp h
    obtain rfl := pure_eq_ok.mp h
    apply nested_list
    exact List.forall_mem_cons.mpr ⟨nested_text _,
      List.forall_mem_cons.mpr ⟨hwide name (mem_of_lastChild hname), nofun⟩⟩
  case first => exact hwide n (mem_of_child h)
  case children =>
    cases h
    exact nested_list hwide
  case form f => exact nested_make he hns h
  case again | bare => cases h

end

end Node

end GrammarServer
