import GrammarServer.Proofs.Typed.Canonical

/-!
# Places do not matter

What a node is made into does not depend on the places that its parts take: if it is made from the
parts without their places, what comes out is the same without its places. There is one exception, a
range, which keeps its bounds as they are displayed; but its bounds are words, and the display of a
word shows no place.
-/
namespace GrammarServer

section

variable {α β γ : Type}

theorem map_bind_fault (x : Except Fault α) (f : α → Except Fault β) (g : β → γ) :
    (x >>= f).map g = x >>= fun a => (f a).map g := by
  cases x <;> rfl

theorem bind_map_fault (x : Except Fault α) (g : α → β) (f : β → Except Fault γ) :
    x.map g >>= f = x >>= fun a => f (g a) := by
  cases x <;> rfl

theorem map_pure_fault (a : α) (g : α → β) : (pure a : Except Fault α).map g = pure (g a) := rfl

theorem exists_of_map_eq_ok {x : Except Fault α} {g : α → β} {b : β} (h : x.map g = .ok b) :
    ∃ a, x = .ok a ∧ g a = b := by
  cases x with
  | ok a => exact ⟨a, rfl, Except.ok.inj h⟩
  | error fault => cases h

theorem mapM_map_comm {f : α → Except Fault α} {g : α → α}
    (h : ∀ a, f (g a) = (f a).map g) (as : List α) :
    (as.map g).mapM f = (as.mapM f).map (List.map g) := by
  induction as with
  | nil => rfl
  | cons a as ih =>
    rw [List.map_cons, List.mapM_cons, List.mapM_cons, h, ih, bind_map_fault, map_bind_fault]
    congr 1
    funext b
    rw [bind_map_fault, map_bind_fault]
    rfl

end

namespace Node

/-! ## Views of a node -/

theorem kind_unplaced (n : Node) : n.unplaced.kind = n.kind := by
  fun_induction kind n <;> first | rfl | assumption

theorem text?_unplaced (n : Node) : n.unplaced.text? = n.text? := by
  cases n <;> rfl

theorem isPart_unplaced (n : Node) : n.unplaced.isPart = n.isPart := by
  cases n <;> rfl

theorem isPresent_unplaced (n : Node) : n.unplaced.isPresent = n.isPresent := by
  fun_induction isPresent n with
  | case8 m => cases m <;> grind [unplaced, isPresent]
  | _ => simp_all [unplaced, isPresent, unplacedToken]

theorem orElse_unplaced (n m : Node) : n.unplaced.orElse m.unplaced = (n.orElse m).unplaced := by
  rw [orElse, isPresent_unplaced, orElse]
  split <;> rfl

theorem map_unplaced_letters (s : String) : (letters s).map unplaced = letters s := by
  rw [letters, List.map_map]
  rfl

theorem elements_unplaced (n : Node) :
    n.unplaced.elements = n.elements.map (List.map unplaced) := by
  cases n with
  | text s => rw [unplaced, elements, Except.map, map_unplaced_letters]
  | token t => rw [unplaced, unplacedToken, elements, elements, Except.map, map_unplaced_letters]
  | list items => rw [unplaced, elements, elements, Except.map, unplacedAll_eq_map]
  | file e items => rw [unplaced, elements, elements, Except.map, unplacedAll_eq_map]
  | named name part => exact congrArg _ (congrArg Fault.notIterable part.kind_unplaced)
  | _ => rfl

theorem joinedParts_unplaced (n : Node) :
    n.unplaced.joinedParts = n.joinedParts.map (List.map unplaced) := by
  rw [joinedParts, elements_unplaced, joinedParts]
  cases n.elements <;> rfl

theorem child_map_unplaced (ns : List Node) (k : Nat) :
    child (ns.map unplaced) k = (child ns k).map unplaced := by
  rw [child, child, List.getElem?_map]
  cases ns[k]? <;> rfl

theorem lastChild_map_unplaced (ns : List Node) :
    lastChild (ns.map unplaced) = (lastChild ns).map unplaced := by
  rw [lastChild, lastChild, List.getLast?_map]
  cases ns.getLast? <;> rfl

theorem joinFrom_map_unplaced (separator : String) (ns : List Node) : ∀ position : Nat,
    joinFrom separator position (ns.map unplaced) = joinFrom separator position ns := by
  induction ns with
  | nil => exact fun _ => rfl
  | cons n ns ih =>
    intro position
    rw [List.map_cons, joinFrom, joinFrom, text?_unplaced, kind_unplaced, ih, List.isEmpty_map]

theorem join_map_unplaced (separator : String) (ns : List Node) :
    join separator (ns.map unplaced) = join separator ns :=
  joinFrom_map_unplaced separator ns 0

theorem item_unplaced (place : Int) (n : Node) :
    n.unplaced.item place = (n.item place).map unplaced := by
  have hlist : ∀ items : List Node,
      (list (items.map unplaced)).item place = ((list items).item place).map unplaced := by
    intro items
    simp only [item, List.getElem?_map, List.length_map]
    generalize (if place < 0 then place + items.length else place).toNat = k
    cases items[k]? with
    | none => rfl
    | some m =>
      simp only [Option.map_some]
      split <;> rfl
  have htext : ∀ s : String, (text s).item place = ((text s).item place).map unplaced := by
    intro s
    simp only [item]
    generalize (if place < 0 then place + s.toList.length else place).toNat = k
    cases s.toList[k]? with
    | none => rfl
    | some c =>
      simp only
      split <;> rfl
  cases n with
  | list items => rw [unplaced, unplacedAll_eq_map, hlist]
  | file e items =>
    rw [unplaced, unplacedAll_eq_map]
    exact hlist items
  | text s => exact htext s
  | token t => exact htext t.text
  | named name part => exact congrArg _ (congrArg Fault.notIndexable part.kind_unplaced)
  | _ => rfl

theorem butLast_unplaced (n : Node) : n.unplaced.butLast = n.butLast.map (List.map unplaced) := by
  have htext : ∀ s : String, (letters s).dropLast.map unplaced = (letters s).dropLast := by
    intro s
    rw [List.map_dropLast, map_unplaced_letters]
  cases n with
  | list items => rw [unplaced, unplacedAll_eq_map, butLast, butLast, Except.map, List.map_dropLast]
  | file e items =>
    rw [unplaced, unplacedAll_eq_map, butLast, butLast, Except.map, List.map_dropLast]
  | text s => exact congrArg Except.ok (htext s).symm
  | token t => exact congrArg Except.ok (htext t.text).symm
  | named name part => exact congrArg _ (congrArg Fault.notIndexable part.kind_unplaced)
  | _ => rfl

theorem leadingValue_map_unplaced (ns : List Node) :
    leadingValue (ns.map unplaced) = leadingValue ns := by
  cases ns with
  | nil => rfl
  | cons n ns => cases n <;> rfl

theorem head_append {s : String} (hs : s.toList ≠ []) (t : String) :
    (s ++ t).toList.head? = s.toList.head? := by
  obtain ⟨c, cs, hcs⟩ := List.exists_cons_of_ne_nil hs
  rw [String.toList_append, hcs]
  rfl

/-- The display of a part starts with its kind. -/
theorem head_fields {kind : String} (h : kind.toList ≠ []) (e : Option Extent)
    (rest : List (String × String)) :
    (fields kind e rest).toList.head? = kind.toList.head? := by
  rw [fields, String.append_assoc, String.append_assoc, head_append h]

/-- What the display of a node starts with shows no place. -/
theorem head_display_unplaced (n : Node) :
    n.unplaced.display.toList.head? = n.display.toList.head? := by
  fun_induction kind n with
  | case1 | case2 | case3 | case4 => rfl
  | case5 items =>
    rw [unplaced, display, display, bracketed, bracketed, String.append_assoc, String.append_assoc,
      head_append (by decide), head_append (by decide)]
  | case6 label e children =>
    rw [unplaced, display, display, String.append_assoc, String.append_assoc, String.append_assoc,
      String.append_assoc, String.append_assoc, String.append_assoc,
      head_append (by decide), head_append (by decide)]
  | case23 name part ih => exact ih
  | _ =>
    rw [unplaced, display, display]
    exact (head_fields (by decide) _ _).trans (head_fields (by decide) _ _).symm

theorem startsWithUnderscore_unplaced (n : Node) :
    n.unplaced.startsWithUnderscore = n.startsWithUnderscore := by
  rw [startsWithUnderscore, toText, text?_unplaced, startsWithUnderscore, toText]
  cases n.text? with
  | some s => rfl
  | none => exact congrArg (· == some '_') n.head_display_unplaced

/-! ## Aliases -/

theorem withExtent_unplaced (e : Option Extent) (n : Node) :
    n.unplaced.withExtent none = (n.withExtent e).map unplaced := by
  fun_induction withExtent e n with
  | case18 name part ih =>
    rw [unplaced, withExtent, ih]
    cases part.withExtent e <;> rfl
  | case19 m => cases m <;> first | rfl | grind
  | _ => rfl

theorem aliased_unplaced (e : Option Extent) (name n : Node) :
    aliased none name.unplaced n.unplaced = (aliased e name n).map unplaced := by
  have hrest : ∀ m : Node, (m.unplaced.withExtent none).map (named name.unplaced) =
      ((m.withExtent e).map (named name)).map unplaced := by
    intro m
    rw [withExtent_unplaced e]
    cases m.withExtent e <;> rfl
  cases n with
  | named _ part => exact hrest part
  | _ => rfl

theorem resolveAlias_unplaced (n : Node) :
    n.unplaced.resolveAlias = n.resolveAlias.map unplaced := by
  cases n with
  | aliasing e body name => exact aliased_unplaced e name body
  | _ => rfl

theorem expansionsOf_unplaced (n : Node) :
    n.unplaced.expansionsOf = n.expansionsOf.map (List.map unplaced) := by
  rw [expansionsOf, elements_unplaced, bind_map_fault, expansionsOf, map_bind_fault]
  congr 1
  funext items
  exact mapM_map_comm resolveAlias_unplaced items

theorem settleAlias_unplaced (n : Node) : n.unplaced.settleAlias = n.settleAlias.map unplaced := by
  cases n with
  | aliasing e body name =>
    rw [unplaced, settleAlias, aliased_unplaced e, bind_map_fault, settleAlias, map_bind_fault]
    rfl
  | _ => rfl

theorem settled_unplaced (n : Node) : n.unplaced.settled = n.settled.map unplaced := by
  have hitems := mapM_map_comm settleAlias_unplaced
  cases n with
  | list items =>
    rw [unplaced, unplacedAll_eq_map, settled, hitems, bind_map_fault, settled, map_bind_fault]
    simp only [← unplacedAll_eq_map]
    rfl
  | file e items =>
    rw [unplaced, unplacedAll_eq_map, settled, hitems, bind_map_fault, settled, map_bind_fault]
    simp only [← unplacedAll_eq_map]
    rfl
  | _ => rfl

theorem ruleModifiers_unplaced (modifiers name : Node) :
    ruleModifiers modifiers.unplaced name.unplaced =
      (ruleModifiers modifiers name).map unplaced := by
  unfold ruleModifiers
  rw [startsWithUnderscore_unplaced]
  split
  · cases modifiers with
    | list items =>
      simp only [unplaced, unplacedAll_eq_map, Except.map, List.map_append, List.map_cons,
        List.map_nil]
    | named _ part =>
      exact congrArg _ (congrArg (Fault.noField · "append") part.kind_unplaced)
    | _ => rfl
  · rfl

/-! ## Forms -/

theorem makeImport_unplaced (e : Option Extent) (ns : List Node) :
    makeImport none (ns.map unplaced) = (makeImport e ns).map unplaced := by
  have hlisted : ∀ ms : List Node,
      (do
        let source ← child (ms.map unplaced) 0
        let path ← join "" (← source.joinedParts)
        let symbols ← child (ms.map unplaced) 1
        return imports none (text path) symbols absent) =
      (do
        let source ← child ms 0
        let path ← join "" (← source.joinedParts)
        let symbols ← child ms 1
        return imports e (text path) symbols absent : Except Fault Node).map unplaced := by
    intro ms
    simp only [child_map_unplaced, joinedParts_unplaced, join_map_unplaced, bind_map_fault,
      map_bind_fault, map_pure_fault, unplaced]
  rcases ns with _ | ⟨source, _ | ⟨n, ns⟩⟩
  · rfl
  · simp only [makeImport, List.map_cons, List.map_nil, item_unplaced, bind_map_fault,
      map_bind_fault, map_pure_fault, unplaced, unplacedAll]
  · cases n with
    | token t =>
      cases ns with
      | nil =>
        simp only [makeImport, List.map_cons, List.map_nil, item_unplaced, butLast_unplaced,
          join_map_unplaced, bind_map_fault, map_bind_fault, map_pure_fault, unplaced, unplacedAll]
      | cons m ns => exact hlisted _
    | _ => exact hlisted _

theorem toText_unplaced {n : Node} (h : n.unplaced.isToken = true) :
    n.unplaced.toText = n.toText := by
  cases n with
  | token t => rfl
  | _ => cases h

theorem make_range_unplaced (e : Option Extent) {ns : List Node}
    (h : ∀ n ∈ ns.map unplaced, n.isToken = true) :
    Form.range.make none (ns.map unplaced) = (Form.range.make e ns).map unplaced := by
  rcases ns with _ | ⟨n, _ | ⟨m, ns⟩⟩
  · rfl
  · rfl
  · have hn := toText_unplaced (h n.unplaced List.mem_cons_self)
    have hm := toText_unplaced (h m.unplaced (List.mem_cons_of_mem _ List.mem_cons_self))
    exact congrArg Except.ok (congrArg₂ (range none) hn hm)

theorem make_term_unplaced (e : Option Extent) (ns : List Node) :
    Form.term.make none (ns.map unplaced) = (Form.term.make e ns).map unplaced := by
  have hterm : ∀ (ms : List Node) (name priority : Node),
      (do
        let body ← lastChild (ms.map unplaced)
        let expansions ← body.expansionsOf
        return term none (if name.unplaced.startsWithUnderscore then ["_"] else []) name.unplaced
          priority.unplaced expansions) =
      (do
        let body ← lastChild ms
        let expansions ← body.expansionsOf
        return term e (if name.startsWithUnderscore then ["_"] else []) name priority
          expansions : Except Fault Node).map unplaced := by
    intro ms name priority
    simp only [lastChild_map_unplaced, expansionsOf_unplaced, startsWithUnderscore_unplaced,
      bind_map_fault, map_bind_fault, map_pure_fault, unplaced, unplacedAll_eq_map]
  rcases ns with _ | ⟨n, _ | ⟨m, _ | ⟨k, _ | ⟨l, ns⟩⟩⟩⟩
  · rfl
  · -- A single child is both the name and the body.
    change (do
        let expansions ← n.unplaced.expansionsOf
        let name ← n.unplaced.settled
        return term none (if name.startsWithUnderscore then ["_"] else []) name (number 0)
          expansions) =
      (do
        let expansions ← n.expansionsOf
        let name ← n.settled
        return term e (if name.startsWithUnderscore then ["_"] else []) name (number 0)
          expansions : Except Fault Node).map unplaced
    simp only [expansionsOf_unplaced, settled_unplaced, startsWithUnderscore_unplaced,
      bind_map_fault, map_bind_fault, map_pure_fault, unplaced, unplacedAll_eq_map]
  · exact hterm [n, m] n (number 0)
  · have h := hterm [n, m, k] n (m.orElse (number 0))
    rw [← orElse_unplaced] at h
    exact h
  · exact hterm (n :: m :: k :: l :: ns) n (number 0)

theorem make_rule_unplaced (e : Option Extent) (ns : List Node) :
    Form.rule.make none (ns.map unplaced) = (Form.rule.make e ns).map unplaced := by
  have habsent : ∀ n m : Node, m.unplaced = m → n.unplaced.orElse m = (n.orElse m).unplaced := by
    intro n m hm
    rw [← orElse_unplaced, hm]
  simp only [Form.make, child_map_unplaced, expansionsOf_unplaced, bind_map_fault, map_bind_fault,
    habsent _ (list []) rfl, habsent _ (number 0) rfl, ruleModifiers_unplaced, map_pure_fault,
    unplaced, unplacedAll_eq_map]

theorem make_unplaced (f : Form) (e : Option Extent) (ns : List Node)
    (hrange : f = .range → ∀ n ∈ ns.map unplaced, n.isToken = true) (hcomment : f ≠ .comment) :
    f.make none (ns.map unplaced) = (f.make e ns).map unplaced := by
  cases f with
  | range => exact make_range_unplaced e (hrange rfl)
  | term => exact make_term_unplaced e ns
  | rule => exact make_rule_unplaced e ns
  | imports => exact makeImport_unplaced e ns
  | comment => exact absurd rfl hcomment
  | plain => rfl
  | file =>
    have hparts : (ns.map unplaced).filter isPart = (ns.filter isPart).map unplaced := by
      rw [List.filter_map]
      exact congrArg _ (List.filter_congr fun n _ => n.isPart_unplaced)
    simp only [Form.make, map_pure_fault, unplaced, unplacedAll_eq_map, hparts]
  | expansion | declare => simp only [Form.make, map_pure_fault, unplaced, unplacedAll_eq_map]
  | templateUsage | expr | maybe | aliasing | override | extend | ignore =>
    simp only [Form.make, child_map_unplaced, expansionsOf_unplaced, bind_map_fault,
      map_bind_fault, map_pure_fault, unplaced, unplacedAll_eq_map, List.map_tail]

/-- A comment keeps the first of its parts, but for the blanks at its end. -/
theorem make_comment_unplaced (e : Option Extent) (ns : List Node) :
    (Form.comment.make e ns).map unplaced =
      .ok (comment none ((ns.map unplaced).headD
        (.token ⟨"COMMENT", "", none, none, none, none⟩)).trimmed) := by
  cases ns <;> rfl

/-! ## Phrases -/

theorem importSource_unplaced (start : String) (ns : List Node) :
    importSource start (ns.map unplaced) = (importSource start ns).map unplaced := by
  simp only [importSource, ← List.map_dropLast, join_map_unplaced, lastChild_map_unplaced,
    bind_map_fault, map_bind_fault, map_pure_fault, unplaced, unplacedAll]

theorem ofPhrase_unplaced (c : Conversion) (e : Option Extent) (ns : List Node)
    (hrange : c = .form .range → ∀ n ∈ ns.map unplaced, n.isToken = true)
    (hcomment : c ≠ .form .comment) :
    c.ofPhrase none (ns.map unplaced) = (c.ofPhrase e ns).map unplaced := by
  cases c with
  | signs =>
    rw [Conversion.ofPhrase, leadingValue_map_unplaced, Conversion.ofPhrase]
    cases leadingValue ns with
    | none => rfl
    | some s =>
      simp only [Except.map, unplaced, unplacedAll_eq_map, map_unplaced_letters]
  | listing =>
    rw [Conversion.ofPhrase, List.isEmpty_map, Conversion.ofPhrase]
    split
    · rfl
    · simp only [Except.map, unplaced, unplacedAll_eq_map]
  | integer =>
    rw [Conversion.ofPhrase, leadingValue_map_unplaced, Conversion.ofPhrase]
    split
    · split <;> rfl
    · rfl
  | source start => exact importSource_unplaced start ns
  | first => exact child_map_unplaced ns 0
  | children =>
    simp only [Conversion.ofPhrase, Except.map, unplaced, unplacedAll_eq_map]
  | form f =>
    refine make_unplaced f e ns (fun hf => hrange (congrArg _ hf)) ?_
    exact fun hf => hcomment (congrArg _ hf)
  | again => rfl
  | bare => rfl

/-- What becomes of a phrase says the same whatever places the phrase and its parts take. -/
theorem ofPhrase_congr {c : Conversion} (e e' : Option Extent) {ns ms : List Node}
    (h : ms.map unplaced = ns.map unplaced)
    (hrange : c = .form .range → ∀ n ∈ ns.map unplaced, n.isToken = true) :
    (c.ofPhrase e' ms).map unplaced = (c.ofPhrase e ns).map unplaced := by
  by_cases hcomment : c = .form .comment
  · rw [hcomment]
    change (Form.comment.make e' ms).map unplaced = (Form.comment.make e ns).map unplaced
    rw [make_comment_unplaced, make_comment_unplaced, h]
  · rw [← ofPhrase_unplaced c e ns hrange hcomment, ← h]
    rw [← h] at hrange
    exact (ofPhrase_unplaced c e' ms hrange hcomment).symm

end Node

end GrammarServer
