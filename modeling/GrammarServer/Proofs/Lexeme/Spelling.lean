import GrammarServer.Lexeme.Basic

/-!
# How lexemes are spelled

A lexeme is found by looking at the text that follows it. What it looks like can be said without
that text, and what follows matters only through its first character: a lexeme of a terminal that a
tree keeps is read again wherever a break comes after it.
-/
namespace GrammarServer.Terminal
open Text

/-! ## Fronts of texts -/

theorem frontLength_cons (p : Char → Bool) (c : Char) (cs : List Char) :
    frontLength p (c :: cs) = if p c then frontLength p cs + 1 else 0 := by
  rw [frontLength, List.takeWhile_cons]
  split
  · rfl
  · rfl

/-- A text is all of the front exactly if all of it belongs there and what follows does not. -/
theorem frontLength_append_eq_iff {p : Char → Bool} (w r : List Char) :
    frontLength p (w ++ r) = w.length ↔ (∀ c ∈ w, p c = true) ∧ startsWith p r = false := by
  induction w with
  | nil =>
    cases r with
    | nil => simp [frontLength, startsWith]
    | cons c cs => simp [frontLength_cons, startsWith]
  | cons c w ih =>
    rw [List.cons_append, frontLength_cons]
    split
    · rename_i hc
      simp [ih, hc]
    · rename_i hc
      simp [hc]

theorem frontLength_le (p : Char → Bool) (cs : List Char) : frontLength p cs ≤ cs.length :=
  (List.takeWhile_sublist p).length_le

theorem startsWith_append {p : Char → Bool} {w : List Char} (hw : w ≠ []) (r : List Char) :
    startsWith p (w ++ r) = startsWith p w := by
  cases w with
  | nil => exact absurd rfl hw
  | cons c w => rfl

/-! ## Classes of characters -/

theorem isSmall_iff (c : Char) : isSmall c = true ↔ 97 ≤ c.toNat ∧ c.toNat ≤ 122 := by
  simp only [isSmall, Bool.and_eq_true, decide_eq_true_eq]
  exact Iff.rfl

theorem isLarge_iff (c : Char) : isLarge c = true ↔ 65 ≤ c.toNat ∧ c.toNat ≤ 90 := by
  simp only [isLarge, Bool.and_eq_true, decide_eq_true_eq]
  exact Iff.rfl

theorem isFigure_iff (c : Char) : isFigure c = true ↔ 48 ≤ c.toNat ∧ c.toNat ≤ 57 := by
  simp only [isFigure, Bool.and_eq_true, decide_eq_true_eq]
  exact Iff.rfl

theorem digitIn_isSome {a b a' b' n : Nat} {rest : List (Nat × Nat)}
    (h : (digitIn ((a, b) :: (a', b') :: rest) n).isSome = true) : (a ≤ n ∧ n ≤ b) ∨ a' ≤ n := by
  rw [digitIn, digitIn] at h
  split at h
  · cases h
  · split at h
    · omega
    · split at h
      · cases h
      · omega

/-- A digit is a figure or stands far from the characters of the notation. -/
theorem toNat_of_isDigit {c : Char} (h : isDigit c = true) :
    (48 ≤ c.toNat ∧ c.toNat ≤ 57) ∨ 0x660 ≤ c.toNat :=
  digitIn_isSome h

theorem inRanges_eq_true {a b a' b' n : Nat} {rest : List (Nat × Nat)}
    (h : inRanges ((a, b) :: (a', b') :: rest) n = true) :
    (a ≤ n ∧ n ≤ b) ∨ (a' ≤ n ∧ n ≤ b') ∨ inRanges rest n = true := by
  rw [inRanges, inRanges] at h
  split at h
  · cases h
  · split at h
    · omega
    · split at h
      · cases h
      · split at h
        · omega
        · exact Or.inr (Or.inr h)

theorem le_of_inRanges {a b n : Nat} {rest : List (Nat × Nat)}
    (h : inRanges ((a, b) :: rest) n = true) : a ≤ n := by
  rw [inRanges] at h
  split at h
  · cases h
  · omega

/-- A blank is one of the first characters or stands beyond those of the notation. -/
theorem toNat_of_isBlank {c : Char} (h : isBlank c = true) :
    c.toNat ≤ 32 ∨ 0x85 ≤ c.toNat := by
  rcases inRanges_eq_true h with h | h | h
  · omega
  · omega
  · exact Or.inr (le_of_inRanges h)

/-- The characters that can come right after a word, without becoming a part of it. -/
def breaks : List Char := [' ', '\n', ')', ']', '\x7d', '\x7b', ',', '.', ':', '~', '+', '*', '?']

/-- A text starts with a break or is at its end. -/
def Breaks : List Char → Prop
  | [] => True
  | c :: _ => c ∈ breaks

theorem Breaks.startsWith_eq_false {r : List Char} (h : Breaks r) {p : Char → Bool}
    (hp : breaks.all (fun c => !p c) = true) : startsWith p r = false := by
  cases r with
  | nil => rfl
  | cons c r => simpa [startsWith] using List.all_eq_true.mp hp c h

/-! ## Fronts at which a terminal is found -/

/-- A text is a lexeme of a terminal when another text follows. -/
def Reads (t : Terminal) (w r : List Char) : Prop :=
  ∃ c tl, w = c :: tl ∧ atFront c (tl ++ r) = some (t, tl.length)

theorem reach_of_atFront {c : Char} {cs : List Char} {t : Terminal} {n : Nat}
    (h : atFront c cs = some (t, n)) : reach c cs t = some n := by
  obtain ⟨u, _, hu⟩ := List.exists_of_findSome?_eq_some h
  obtain ⟨k, hk, heq⟩ := Option.map_eq_some_iff.mp hu
  cases heq
  exact hk

def earlier (t : Terminal) : List Terminal := readingOrder.takeWhile (· != t)

theorem findSome?_takeWhile {α : Type} (f : Terminal → Option α) {t : Terminal} {a : α}
    (ht : f t = some a) (ts : List Terminal) (hmem : t ∈ ts)
    (h : ∀ u ∈ ts.takeWhile (· != t), f u = none) : ts.findSome? f = some a := by
  induction ts with
  | nil => cases hmem
  | cons u ts ih =>
    by_cases hu : u = t
    · rw [List.findSome?_cons, hu, ht]
    · have htake : (u :: ts).takeWhile (· != t) = u :: ts.takeWhile (· != t) := by
        rw [List.takeWhile_cons, if_pos (by simpa using hu)]
      rw [htake] at h
      rw [List.findSome?_cons, h u List.mem_cons_self]
      apply ih
      · exact (List.mem_cons.mp hmem).resolve_left (Ne.symm hu)
      · exact fun v hv => h v (List.mem_cons_of_mem _ hv)

theorem mem_readingOrder {t : Terminal} (h : t ≠ .endOfInput) : t ∈ readingOrder := by
  cases t <;> first | decide | exact absurd rfl h

theorem atFront_of_reach {c : Char} {cs : List Char} {t : Terminal} {n : Nat}
    (ht : reach c cs t = some n) (h : ∀ u ∈ earlier t, reach c cs u = none) :
    atFront c cs = some (t, n) := by
  have hend : t ≠ .endOfInput := by
    rintro rfl
    cases ht
  apply findSome?_takeWhile _ (by rw [ht]; rfl) _ (mem_readingOrder hend)
  intro u hu
  rw [h u hu]
  rfl

def opens (c : Char) : Terminal → Bool
  | regexp => c == '/'
  | string => c == '"'
  | ruleName => c == '_' || isSmall c
  | terminalName => c == '_' || isLarge c
  | comment => c == '#' || c == '/'
  | newlineBar | newline => c == '\n' || c == '\r'
  | number => isDigit c || c == '+' || c == '-'
  | continuation => c == '\\'
  | blank => c == ' ' || c == '\t'
  | overrideWord | declareWord | extendWord | ignoreWord | importWord => c == '%'
  | modifiers => c == '!' || c == '?'
  | dotDot | dot => c == '.'
  | arrow => c == '-'
  | operator => c == '+' || c == '*' || c == '?'
  | leftBracket => c == '['
  | leftBrace => c == '\x7b'
  | leftParen => c == '('
  | bar => c == '|'
  | rightBracket => c == ']'
  | rightBrace => c == '\x7d'
  | rightParen => c == ')'
  | tilde => c == '~'
  | colon => c == ':'
  | comma => c == ','
  | endOfInput => false

theorem reach_eq_none {c : Char} {t : Terminal} (h : opens c t = false) (cs : List Char) :
    reach c cs t = none := by
  cases t <;>
    simp_all [opens, reach, regexpReach, stringReach, nameReach, commentReach, newlineBarReach,
      newlineReach, numberReach, continuationReach, wordReach, modifiersReach, operatorReach,
      charReach]

/-- A terminal is found where it reaches, if no earlier one can start there. -/
theorem atFront_of_opens {c : Char} {cs : List Char} {t : Terminal} {n : Nat}
    (ht : reach c cs t = some n) (h : (earlier t).all (fun u => !opens c u) = true) :
    atFront c cs = some (t, n) := by
  apply atFront_of_reach ht
  intro u hu
  exact reach_eq_none (by simpa using List.all_eq_true.mp h u hu) cs

/-! ## Names and numerals -/

/-- A first character, perhaps after a mark, and then characters of one kind. -/
def IsRun (mark first next : Char → Bool) : List Char → Prop
  | [] => False
  | c :: tl => (first c = true ∨ mark c = true ∧ startsWith first tl = true) ∧
      ∀ d ∈ tl, next d = true

theorem IsRun.ne_nil {mark first next : Char → Bool} {w : List Char}
    (h : IsRun mark first next w) : w ≠ [] := by
  rintro rfl
  exact h

def isUnderscore (c : Char) : Bool := c == '_'
def isSign (c : Char) : Bool := c == '+' || c == '-'

def runReach (mark first next : Char → Bool) (c : Char) (cs : List Char) : Option Nat :=
  if first c || (mark c && startsWith first cs) then some (frontLength next cs) else none

theorem reach_ruleName (c : Char) (cs : List Char) :
    reach c cs ruleName = runReach isUnderscore isSmall isRuleChar c cs := by
  simp only [reach, nameReach, runReach, isUnderscore]
  split <;> simp_all

theorem reach_terminalName (c : Char) (cs : List Char) :
    reach c cs terminalName = runReach isUnderscore isLarge isTerminalChar c cs := by
  simp only [reach, nameReach, runReach, isUnderscore]
  split <;> simp_all

theorem reach_number (c : Char) (cs : List Char) :
    reach c cs number = runReach isSign isDigit isDigit c cs := rfl

/-- A text is what a run reaches over exactly if it is a run and nothing more belongs to it. -/
theorem runReach_append_eq_iff {mark first next : Char → Bool}
    (hfirst : ∀ c, first c = true → next c = true) (c : Char) (tl r : List Char) :
    runReach mark first next c (tl ++ r) = some tl.length ↔
      IsRun mark first next (c :: tl) ∧ startsWith next r = false := by
  rw [runReach]
  split
  · rename_i hstart
    rw [Option.some.injEq, frontLength_append_eq_iff]
    refine ⟨fun ⟨hall, hnext⟩ => ⟨⟨?_, hall⟩, hnext⟩, fun h => ⟨h.1.2, h.2⟩⟩
    rw [Bool.or_eq_true, Bool.and_eq_true] at hstart
    refine hstart.imp_right fun h => ⟨h.1, ?_⟩
    -- The first character cannot stand in what follows, for it would belong to the run.
    cases tl with
    | nil =>
      cases r with
      | nil => exact h.2
      | cons d r =>
        rw [startsWith, Bool.eq_false_iff] at hnext
        exact absurd (hfirst d h.2) hnext
    | cons d tl => exact h.2
  · rename_i hstart
    refine ⟨(nomatch ·), fun h => absurd ?_ hstart⟩
    rw [Bool.or_eq_true, Bool.and_eq_true]
    refine h.1.1.imp_right fun ⟨hmark, hd⟩ => ⟨hmark, ?_⟩
    cases tl with
    | nil => cases hd
    | cons d tl => exact hd

theorem isRuleChar_of_isSmall (c : Char) (h : isSmall c = true) : isRuleChar c = true := by
  simp [isRuleChar, h]

theorem isTerminalChar_of_isLarge (c : Char) (h : isLarge c = true) :
    isTerminalChar c = true := by
  simp [isTerminalChar, h]

theorem toNat_ne_of_ne {c d : Char} (h : c.toNat ≠ d.toNat) : (c == d) = false := by
  rw [beq_eq_false_iff_ne]
  rintro rfl
  exact h rfl

theorem not_isSmall {c : Char} (h : c.toNat < 97 ∨ 122 < c.toNat) : isSmall c = false := by
  rw [Bool.eq_false_iff, Ne, isSmall_iff]
  omega

theorem not_isLarge {c : Char} (h : c.toNat < 65 ∨ 90 < c.toNat) : isLarge c = false := by
  rw [Bool.eq_false_iff, Ne, isLarge_iff]
  omega

theorem reads_ruleName {w r : List Char} (hw : IsRun isUnderscore isSmall isRuleChar w)
    (hr : startsWith isRuleChar r = false) : Reads ruleName w r := by
  obtain ⟨c, tl, rfl⟩ := List.exists_cons_of_ne_nil hw.ne_nil
  have hreach : reach c (tl ++ r) ruleName = some tl.length := by
    rw [reach_ruleName, runReach_append_eq_iff isRuleChar_of_isSmall]
    exact ⟨hw, hr⟩
  have hc : 95 ≤ c.toNat := by
    rcases hw.1 with hc | ⟨hc, _⟩
    · have := (isSmall_iff c).mp hc
      omega
    · rw [eq_of_beq hc]
      decide
  have hslash := toNat_ne_of_ne (c := c) (d := '/') (by simp; omega)
  have hquote := toNat_ne_of_ne (c := c) (d := '"') (by simp; omega)
  exact ⟨c, tl, rfl, atFront_of_opens hreach (by simp [earlier, readingOrder, opens, *])⟩

/-- What a number starts with is no letter, no bracket and no blank. -/
theorem not_opens_of_isDigit {c : Char} (h : isDigit c = true) :
    (earlier number).all (fun u => !opens c u) = true := by
  have hc := toNat_of_isDigit h
  have hslash := toNat_ne_of_ne (c := c) (d := '/') (by simp; omega)
  have hquote := toNat_ne_of_ne (c := c) (d := '"') (by simp; omega)
  have hunderscore := toNat_ne_of_ne (c := c) (d := '_') (by simp; omega)
  have hhash := toNat_ne_of_ne (c := c) (d := '#') (by simp; omega)
  have hfeed := toNat_ne_of_ne (c := c) (d := '\n') (by simp; omega)
  have hreturn := toNat_ne_of_ne (c := c) (d := '\r') (by simp; omega)
  have hsmall := not_isSmall (c := c) (by omega)
  have hlarge := not_isLarge (c := c) (by omega)
  simp only [earlier, readingOrder]
  simp [opens, *]

theorem reads_number {w r : List Char} (hw : IsRun isSign isDigit isDigit w)
    (hr : startsWith isDigit r = false) : Reads number w r := by
  obtain ⟨c, tl, rfl⟩ := List.exists_cons_of_ne_nil hw.ne_nil
  have hreach : reach c (tl ++ r) number = some tl.length := by
    rw [reach_number, runReach_append_eq_iff fun _ h => h]
    exact ⟨hw, hr⟩
  refine ⟨c, tl, rfl, atFront_of_opens hreach ?_⟩
  rcases hw.1 with hc | ⟨hc, _⟩
  · exact not_opens_of_isDigit hc
  · rcases (Bool.or_eq_true _ _).mp hc with hc | hc
    · rw [eq_of_beq hc]
      decide
    · rw [eq_of_beq hc]
      decide

theorem reads_terminalName {w r : List Char} (hw : IsRun isUnderscore isLarge isTerminalChar w)
    (hr : startsWith isTerminalChar r = false) : Reads terminalName w r := by
  obtain ⟨c, tl, rfl⟩ := List.exists_cons_of_ne_nil hw.ne_nil
  have hreach : reach c (tl ++ r) terminalName = some tl.length := by
    rw [reach_terminalName, runReach_append_eq_iff isTerminalChar_of_isLarge]
    exact ⟨hw, hr⟩
  refine ⟨c, tl, rfl, ?_⟩
  rcases hw.1 with hc | ⟨hc, hd⟩
  · have hbounds := (isLarge_iff c).mp hc
    have hslash := toNat_ne_of_ne (c := c) (d := '/') (by simp; omega)
    have hquote := toNat_ne_of_ne (c := c) (d := '"') (by simp; omega)
    have hunderscore := toNat_ne_of_ne (c := c) (d := '_') (by simp; omega)
    have hsmall := not_isSmall (c := c) (by omega)
    exact atFront_of_opens hreach (by simp [earlier, readingOrder, opens, *])
  · -- After an underscore, a large letter tells the name from that of a rule.
    obtain ⟨d, tl, rfl⟩ : ∃ d tl', tl = d :: tl' := by
      cases tl with
      | nil => cases hd
      | cons d tl => exact ⟨d, tl, rfl⟩
    have hbounds := (isLarge_iff d).mp hd
    have hsmall := not_isSmall (c := d) (by omega)
    rw [eq_of_beq hc] at hreach ⊢
    apply atFront_of_reach hreach
    have hrule : reach '_' (d :: tl ++ r) ruleName = none := by
      rw [reach_ruleName, List.cons_append]
      simp only [runReach, startsWith, hsmall]
      rfl
    intro u hu
    rcases List.mem_cons.mp hu with rfl | hu
    · rfl
    rcases List.mem_cons.mp hu with rfl | hu
    · rfl
    rcases List.mem_cons.mp hu with rfl | hu
    · exact hrule
    · cases hu

/-! ## Quoted texts -/

/-- The front of a text that a quoted text takes is taken whatever follows it. -/
theorem stringLength_eq_some {cs : List Char} {n : Nat} (h : stringLength cs = some n) :
    ∃ body rest, cs = body ++ rest ∧ body.length = n ∧
      ∀ r, stringLength (body ++ r) = some n := by
  fun_induction stringLength cs generalizing n with
  | case1 => cases h
  | case2 cs =>
    cases h
    exact ⟨['"'], cs, rfl, rfl, fun r => rfl⟩
  | case3 c cs hc => cases h
  | case4 c cs hc ih =>
    obtain ⟨k, hk, rfl⟩ := Option.map_eq_some_iff.mp h
    obtain ⟨body, rest, rfl, hlength, hbody⟩ := ih hk
    refine ⟨'\\' :: c :: body, rest, rfl, by simp [hlength], fun r => ?_⟩
    rw [List.cons_append, List.cons_append, stringLength, if_neg hc, hbody]
    rfl
  | case5 c cs hquote hescape hc => cases h
  | case6 c cs hquote hescape hc ih =>
    obtain ⟨k, hk, rfl⟩ := Option.map_eq_some_iff.mp h
    have hbackslash : c ≠ '\\' := by
      rintro rfl
      cases cs with
      | nil => cases hk
      | cons d cs => exact hescape d cs rfl rfl
    obtain ⟨body, rest, rfl, hlength, hbody⟩ := ih hk
    refine ⟨c :: body, rest, rfl, by simp [hlength], fun r => ?_⟩
    rw [List.cons_append, stringLength, if_neg hc, hbody]
    · rfl
    · exact hquote
    · exact fun _ _ heq => absurd heq hbackslash

/-- A quoted text, with a mark at its end if its case does not matter. -/
def IsQuoted (w : List Char) : Prop :=
  ∃ body mark, w = '"' :: (body ++ mark) ∧ (∀ r, stringLength (body ++ r) = some body.length) ∧
    (mark = [] ∨ mark = ['i'])

theorem reads_string {w r : List Char} (hw : IsQuoted w)
    (hr : startsWith (· == 'i') r = false) : Reads string w r := by
  obtain ⟨body, mark, rfl, hbody, hmark⟩ := hw
  refine ⟨'"', body ++ mark, rfl, atFront_of_opens ?_ (by decide)⟩
  simp only [reach, stringReach, beq_self_eq_true, if_true, List.append_assoc, hbody,
    Option.map_some, List.drop_left]
  rcases hmark with rfl | rfl
  · simp [hr]
  · simp [startsWith]

theorem isQuoted_of_reach {c : Char} {tl r : List Char}
    (h : reach c (tl ++ r) string = some tl.length) : IsQuoted (c :: tl) := by
  simp only [reach, stringReach] at h
  split at h
  case isFalse => cases h
  case isTrue hc =>
    obtain ⟨n, hn, hlength⟩ := Option.map_eq_some_iff.mp h
    obtain ⟨body, rest, hsplit, rfl, hbody⟩ := stringLength_eq_some hn
    rw [hsplit, List.drop_left] at hlength
    rw [eq_of_beq hc]
    split at hlength
    · rename_i hmark
      obtain ⟨d, rest, rfl⟩ : ∃ d rest', rest = d :: rest' := by
        cases rest with
        | nil => cases hmark
        | cons d rest => exact ⟨d, rest, rfl⟩
      have hd : d = 'i' := eq_of_beq hmark
      subst hd
      have htl : tl = body ++ ['i'] := by
        have := congrArg (List.take tl.length) hsplit
        rw [List.take_left, ← hlength] at this
        rw [this]
        simp [List.take_append, List.take_of_length_le]
      exact ⟨body, ['i'], by rw [htl], hbody, Or.inr rfl⟩
    · have htl : tl = body := by
        have := congrArg (List.take tl.length) hsplit
        rwa [List.take_left, ← hlength, List.take_left] at this
      exact ⟨body, [], by rw [htl, List.append_nil], hbody, Or.inl rfl⟩

/-! ## Regular expressions -/

/-- The front of a line that ends with its first open slash does so whatever follows it. -/
theorem openSlash_eq_some {cs : List Char} {n : Nat} (h : openSlash cs = some n) :
    ∃ body rest, cs = body ++ rest ∧ body.length = n ∧ ∀ r, openSlash (body ++ r) = some n := by
  fun_induction openSlash cs generalizing n with
  | case1 => cases h
  | case2 cs =>
    cases h
    exact ⟨['/'], cs, rfl, rfl, fun r => rfl⟩
  | case3 cs ih | case4 cs ih =>
    obtain ⟨k, hk, rfl⟩ := Option.map_eq_some_iff.mp h
    obtain ⟨body, rest, rfl, hlength, hbody⟩ := ih hk
    refine ⟨_ :: _ :: body, rest, rfl, by simp [hlength], fun r => ?_⟩
    rw [List.cons_append, List.cons_append, openSlash, hbody]
    rfl
  | case5 c cs hslash hescaped hdouble ih =>
    obtain ⟨k, hk, rfl⟩ := Option.map_eq_some_iff.mp h
    obtain ⟨body, rest, rfl, hlength, hbody⟩ := ih hk
    obtain ⟨d, body, rfl⟩ : ∃ d body', body = d :: body' := by
      cases body with
      | nil => exact absurd (hbody []) (nomatch ·)
      | cons d body => exact ⟨d, body, rfl⟩
    refine ⟨c :: d :: body, rest, rfl, by simp [← hlength], fun r => ?_⟩
    rw [List.cons_append, openSlash, hbody]
    · rfl
    · exact hslash
    · rintro cs' rfl hcs
      cases hcs
      exact hescaped _ rfl rfl
    · rintro cs' rfl hcs
      cases hcs
      exact hdouble _ rfl rfl

theorem lastSlash_eq_some {cs : List Char} {n : Nat} (h : lastSlash cs = some n) :
    ∃ body rest, cs = body ++ '/' :: rest ∧ body.length + 1 = n := by
  induction cs generalizing n with
  | nil => cases h
  | cons c cs ih =>
    rw [lastSlash] at h
    split at h
    · rename_i k hk
      cases h
      obtain ⟨body, rest, rfl, hlength⟩ := ih hk
      exact ⟨c :: body, rest, rfl, by simp [hlength]⟩
    · split at h
      · rename_i hc
        cases h
        exact ⟨[], cs, by rw [eq_of_beq hc]; rfl, rfl⟩
      · cases h

def escapes (cs : List Char) : Nat := (cs.reverse.takeWhile (· == '\\')).length

theorem escapes_le (cs : List Char) : escapes cs ≤ cs.length := by
  have h := (List.takeWhile_sublist (· == '\\') (l := cs.reverse)).length_le
  rwa [List.length_reverse] at h

theorem escapes_cons (c : Char) (cs : List Char) :
    escapes (c :: cs) =
      if escapes cs = cs.length ∧ c = '\\' then escapes cs + 1 else escapes cs := by
  simp only [escapes, List.reverse_cons, List.takeWhile_append, List.length_reverse]
  split
  · rename_i hall
    by_cases hc : c = '\\'
    · simp [hc, hall]
    · simp [hc, hall]
  · rename_i hall
    simp [hall]

theorem escapes_lt_of_ne {c : Char} (hc : c ≠ '\\') (cs : List Char) :
    escapes (c :: cs) < (c :: cs).length := by
  rw [escapes_cons, if_neg (fun h => hc h.2), List.length_cons]
  exact Nat.lt_succ_of_le (escapes_le cs)

/-- In a line without an open slash, every slash is escaped. -/
theorem odd_escapes_of_openSlash_eq_none {cs : List Char} (h : openSlash cs = none)
    {body rest : List Char} (hsplit : cs = body ++ '/' :: rest) : escapes body % 2 = 1 := by
  fun_induction openSlash cs generalizing body with
  | case1 => simp at hsplit
  | case2 cs => cases h
  -- An escaped slash in front is the slash in question, or it ends the run of backslashes.
  | case3 cs ih =>
    rw [Option.map_eq_none_iff] at h
    match body, hsplit with
    | [_], hsplit =>
      cases hsplit
      rfl
    | _ :: _ :: body, hsplit =>
      simp only [List.cons_append, List.cons.injEq] at hsplit
      obtain ⟨rfl, rfl, rfl⟩ := hsplit
      rw [escapes_cons, if_neg (fun hall => ?_), escapes_cons, if_neg (by simp)]
      · exact ih h rfl
      · have := escapes_lt_of_ne (c := '/') (by decide) body
        omega
  -- A pair of backslashes in front adds two to the count if all that follows is backslashes.
  | case4 cs ih =>
    rw [Option.map_eq_none_iff] at h
    match body, hsplit with
    | _ :: _ :: body, hsplit =>
      simp only [List.cons_append, List.cons.injEq] at hsplit
      obtain ⟨rfl, rfl, rfl⟩ := hsplit
      have hodd := ih h rfl
      rw [escapes_cons, escapes_cons]
      by_cases hall : escapes body = body.length
      · simp only [hall, List.length_cons, and_self, if_true]
        omega
      · have hlt : ¬ escapes body = body.length + 1 := by
          have := escapes_le body
          omega
        simp only [hall, false_and, if_false, List.length_cons, hlt]
        exact hodd
  | case5 c cs hslash hescaped hdouble ih =>
    rw [Option.map_eq_none_iff] at h
    match body, hsplit with
    | [], hsplit => exact absurd (List.cons.inj hsplit).1 hslash
    | [_], hsplit =>
      cases hsplit
      simp [openSlash] at h
    | _ :: d :: body, hsplit =>
      simp only [List.cons_append, List.cons.injEq] at hsplit
      obtain ⟨rfl, rfl⟩ := hsplit
      rw [escapes_cons, if_neg ?_]
      · exact ih h rfl
      · rintro ⟨hall, rfl⟩
        by_cases hd : d = '\\'
        · exact hdouble _ rfl (by rw [hd])
        · have := escapes_lt_of_ne hd body
          omega

/-- A text between two slashes of which the second is open, with flags at its end. -/
def IsRegexp (w : List Char) : Prop :=
  ∃ body flags, w = '/' :: (body ++ flags) ∧ startsWith (· == '/') body = false ∧
    '\n' ∉ body ∧ (∀ d ∈ flags, isRegexpFlag d = true) ∧
    ∀ r, openSlash (body ++ r) = some body.length

/-- How many backslashes stand before the last slash of a text. -/
def closingEscapes (w : List Char) : Nat :=
  ((w.reverse.dropWhile (· != '/')).tail.takeWhile (· == '\\')).length

theorem not_isRegexpFlag {c : Char} (h : isRegexpFlag c = true) : c ≠ '/' ∧ c ≠ '\n' := by
  refine ⟨?_, ?_⟩
  · rintro rfl
    exact absurd h (by decide)
  · rintro rfl
    exact absurd h (by decide)

theorem closingEscapes_eq {body flags : List Char} (hflags : ∀ d ∈ flags, isRegexpFlag d = true) :
    closingEscapes ('/' :: (body ++ '/' :: flags)) = escapes body := by
  have hreverse : ('/' :: (body ++ '/' :: flags)).reverse =
      flags.reverse ++ '/' :: (body.reverse ++ ['/']) := by simp
  have hdrop : (flags.reverse ++ '/' :: (body.reverse ++ ['/'])).dropWhile (· != '/') =
      '/' :: (body.reverse ++ ['/']) := by
    rw [List.dropWhile_append_of_pos]
    · rfl
    · intro d hd
      simpa using (not_isRegexpFlag (hflags d (List.mem_reverse.mp hd))).1
  rw [closingEscapes, hreverse, hdrop, List.tail_cons, List.takeWhile_append, escapes]
  split
  · rename_i hall
    rw [List.takeWhile_cons_of_neg (by decide), List.append_nil]
    exact hall.symm
  · rfl

theorem takeWhile_line (w r : List Char) (h : '\n' ∉ w) :
    (w ++ r).takeWhile (· != '\n') = w ++ r.takeWhile (· != '\n') := by
  apply List.takeWhile_append_of_pos
  intro c hc
  rw [bne_iff_ne]
  rintro rfl
  exact h hc

theorem reads_regexp {w r : List Char} (hw : IsRegexp w)
    (hr : startsWith isRegexpFlag r = false) : Reads regexp w r := by
  obtain ⟨body, flags, rfl, hopen, hfeed, hflags, hslash⟩ := hw
  have hbody : body ≠ [] := by
    rintro rfl
    exact absurd (hslash []) (nomatch ·)
  have hline : (body ++ flags ++ r).takeWhile (· != '\n') =
      body ++ (flags ++ r).takeWhile (· != '\n') := by
    rw [List.append_assoc, takeWhile_line _ _ hfeed]
  have hfront : frontLength isRegexpFlag (flags ++ r) = flags.length :=
    (frontLength_append_eq_iff flags r).mpr ⟨hflags, hr⟩
  refine ⟨'/', body ++ flags, rfl, atFront_of_opens ?_ (by decide)⟩
  simp only [reach, regexpReach, hline, hslash]
  rw [List.append_assoc, startsWith_append hbody, hopen]
  simp [hfront]

theorem isRegexp_of_reach {c : Char} {tl r : List Char}
    (h : reach c (tl ++ r) regexp = some tl.length) (heven : closingEscapes (c :: tl) % 2 = 0) :
    IsRegexp (c :: tl) := by
  simp only [reach, regexpReach] at h
  split at h
  case isFalse => cases h
  case isTrue hc =>
    rw [Bool.and_eq_true, Bool.not_eq_true'] at hc
    obtain ⟨n, hn, hlength⟩ := Option.map_eq_some_iff.mp h
    -- The body and the flags after it, once it is known where the body ends.
    have hsplit : ∀ body rest, (tl ++ r).takeWhile (· != '\n') = body ++ rest →
        body.length = n → ∃ flags, tl = body ++ flags ∧ '\n' ∉ body ∧
          ∀ d ∈ flags, isRegexpFlag d = true := by
      intro body rest hline hbody
      obtain ⟨rest', hrest'⟩ : ∃ rest', tl ++ r = body ++ rest' := by
        have := List.takeWhile_append_dropWhile (p := (· != '\n')) (l := tl ++ r)
        rw [hline, List.append_assoc] at this
        exact ⟨_, this.symm⟩
      rw [hrest', ← hbody, List.drop_left] at hlength
      have htl : tl = body ++ rest'.takeWhile isRegexpFlag := by
        have htake := congrArg (List.take tl.length) hrest'
        rw [List.take_left, ← hlength, List.take_append, List.take_of_length_le (by omega)] at htake
        rw [htake, Nat.add_sub_cancel_left, frontLength]
        exact congrArg _ (List.prefix_iff_eq_take.mp (List.takeWhile_prefix _)).symm
      refine ⟨_, htl, ?_, List.all_eq_true.mp List.all_takeWhile⟩
      intro hmem
      have hall := List.all_eq_true.mp (List.all_takeWhile (p := (· != '\n')) (l := tl ++ r))
      rw [hline] at hall
      exact absurd (hall '\n' (List.mem_append_left _ hmem)) (by decide)
    rw [eq_of_beq hc.1]
    cases hopen : openSlash ((tl ++ r).takeWhile (· != '\n')) with
    | some k =>
      rw [hopen] at hn
      obtain rfl : k = n := Option.some.inj hn
      obtain ⟨body, rest, hline, hbody, hslash⟩ := openSlash_eq_some hopen
      obtain ⟨flags, rfl, hfeed, hflags⟩ := hsplit body rest hline hbody
      have hne : body ≠ [] := by
        rintro rfl
        exact absurd (hslash []) (nomatch ·)
      refine ⟨body, flags, rfl, ?_, hfeed, hflags, hbody ▸ hslash⟩
      have := hc.2
      rwa [List.append_assoc, startsWith_append hne] at this
    | none =>
      have hlast : lastSlash ((tl ++ r).takeWhile (· != '\n')) = some n := by
        simpa [hopen] using hn
      obtain ⟨body, rest, hline, hbody⟩ := lastSlash_eq_some hlast
      obtain ⟨flags, rfl, hfeed, hflags⟩ := hsplit (body ++ ['/']) rest (by simp [hline])
        (by simp [hbody])
      have hodd := odd_escapes_of_openSlash_eq_none hopen hline
      rw [eq_of_beq hc.1, List.append_assoc, List.singleton_append, closingEscapes_eq hflags,
        hodd] at heven
      cases heven

/-! ## Comments and signs -/

def IsComment : List Char → Prop
  | [] => False
  | c :: tl => (c = '#' ∨ c = '/' ∧ startsWith (· == '/') tl = true) ∧ '\n' ∉ tl

/-- A text goes on with a new line, or is at its end. -/
def EndsLine (r : List Char) : Prop := startsWith (· != '\n') r = false

theorem reads_comment {w r : List Char} (hw : IsComment w) (hr : EndsLine r) :
    Reads comment w r := by
  match w, hw with
  | c :: tl, ⟨hc, hfeed⟩ =>
    have hfront : frontLength (· != '\n') (tl ++ r) = tl.length := by
      rw [frontLength_append_eq_iff]
      refine ⟨fun d hd => ?_, hr⟩
      rw [bne_iff_ne]
      rintro rfl
      exact hfeed hd
    refine ⟨c, tl, rfl, ?_⟩
    rcases hc with rfl | ⟨rfl, hslash⟩
    · exact atFront_of_opens (by simp [reach, commentReach, hfront]) (by decide)
    · have hne : tl ≠ [] := by
        rintro rfl
        cases hslash
      have hstart : startsWith (· == '/') (tl ++ r) = true := by
        rw [startsWith_append hne, hslash]
      apply atFront_of_reach (by simp [reach, commentReach, hstart, hfront])
      intro u hu
      rcases List.mem_cons.mp hu with rfl | hu
      · simp [reach, regexpReach, hstart]
      · exact reach_eq_none (by revert u; decide) _

theorem isComment_of_reach {c : Char} {tl r : List Char}
    (h : reach c (tl ++ r) comment = some tl.length) : IsComment (c :: tl) := by
  simp only [reach, commentReach] at h
  split at h
  case isFalse => cases h
  case isTrue hc =>
    obtain ⟨hall, hnext⟩ := (frontLength_append_eq_iff tl r).mp (Option.some.inj h)
    refine ⟨?_, fun hmem => absurd (hall '\n' hmem) (by decide)⟩
    simp only [Bool.or_eq_true, Bool.and_eq_true, beq_iff_eq] at hc
    refine hc.imp_right fun ⟨hslash, hstart⟩ => ⟨hslash, ?_⟩
    -- The second slash cannot stand after the comment, which would have taken it.
    cases tl with
    | cons d tl => exact hstart
    | nil =>
      cases r with
      | nil => cases hstart
      | cons d r =>
        have hd : d = '/' := eq_of_beq hstart
        rw [hd] at hnext
        cases hnext

def signTexts : List (List Char) := [['!'], ['?'], ['!', '?'], ['?', '!']]

def opensRuleName (c : Char) : Bool := c == '_' || isSmall c

theorem not_bang_of_opensRuleName {c : Char} (h : opensRuleName c = true) :
    (c == '!') = false ∧ (c == '?') = false := by
  refine ⟨?_, ?_⟩
  · rw [beq_eq_false_iff_ne]
    rintro rfl
    exact absurd h (by decide)
  · rw [beq_eq_false_iff_ne]
    rintro rfl
    exact absurd h (by decide)

theorem reads_modifiers {w r : List Char} (hw : w ∈ signTexts)
    (hr : startsWith opensRuleName r = true) : Reads modifiers w r := by
  obtain ⟨d, r, rfl⟩ : ∃ d r', r = d :: r' := by
    cases r with
    | nil => cases hr
    | cons d r => exact ⟨d, r, rfl⟩
  have hd : (d == '_' || isSmall d) = true := hr
  obtain ⟨hbang, hquery⟩ := not_bang_of_opensRuleName hr
  simp only [signTexts, List.mem_cons, List.not_mem_nil, or_false] at hw
  rcases hw with rfl | rfl | rfl | rfl
  · exact ⟨'!', [], rfl, atFront_of_opens (by simp [reach, modifiersReach, startsWith, hd])
      (by decide)⟩
  · exact ⟨'?', [], rfl, atFront_of_opens (by simp [reach, modifiersReach, startsWith, hd, hbang])
      (by decide)⟩
  · exact ⟨'!', ['?'], rfl, atFront_of_opens
      (by simp [reach, modifiersReach, startsWith, hd]; decide) (by decide)⟩
  · exact ⟨'?', ['!'], rfl, atFront_of_opens
      (by simp [reach, modifiersReach, startsWith, hd]) (by decide)⟩

theorem eq_singleton_of_startsWith {d : Char} {tl r : List Char} (hlength : 1 = tl.length)
    (hstart : startsWith (· == d) (tl ++ r) = true) : tl = [d] := by
  obtain ⟨d', rfl⟩ := List.length_eq_one_iff.mp hlength.symm
  rw [eq_of_beq (a := d') hstart]

theorem mem_signTexts_of_reach {c : Char} {tl r : List Char}
    (h : reach c (tl ++ r) modifiers = some tl.length) : c :: tl ∈ signTexts := by
  simp only [reach, modifiersReach] at h
  split at h
  case isTrue hc =>
    rw [eq_of_beq hc]
    split at h
    · rw [List.eq_nil_of_length_eq_zero (Option.some.inj h).symm]
      decide
    · split at h
      · rename_i hquery
        rw [Bool.and_eq_true] at hquery
        rw [eq_singleton_of_startsWith (Option.some.inj h) hquery.1]
        decide
      · cases h
  case isFalse =>
    split at h
    case isFalse => cases h
    case isTrue hc =>
      rw [eq_of_beq hc]
      split at h
      · rename_i hbang
        rw [Bool.and_eq_true] at hbang
        rw [eq_singleton_of_startsWith (Option.some.inj h) hbang.1]
        decide
      · split at h
        · rw [List.eq_nil_of_length_eq_zero (Option.some.inj h).symm]
          decide
        · cases h

def operatorTexts : List (List Char) := [['+'], ['*'], ['?']]

theorem reads_operator {w r : List Char} (hw : w ∈ operatorTexts) (hr : Breaks r) :
    Reads operator w r := by
  have hdigit := hr.startsWith_eq_false (p := isDigit) (by decide)
  have hname := hr.startsWith_eq_false (p := fun d => d == '_' || isSmall d) (by decide)
  have hbang := hr.startsWith_eq_false (p := (· == '!')) (by decide)
  simp only [operatorTexts, List.mem_cons, List.not_mem_nil, or_false] at hw
  rcases hw with rfl | rfl | rfl
  · refine ⟨'+', [], rfl, atFront_of_reach rfl ?_⟩
    have hnumber : reach '+' ([] ++ r) number = none := by
      simp [reach, numberReach, hdigit]
      decide
    intro u hu
    by_cases hu' : u = number
    · rw [hu', hnumber]
    · exact reach_eq_none (by revert u; decide) _
  · exact ⟨'*', [], rfl, atFront_of_opens rfl (by decide)⟩
  · refine ⟨'?', [], rfl, atFront_of_reach ?_ ?_⟩
    · simp [reach, operatorReach, hname]
    · have hmodifiers : reach '?' ([] ++ r) modifiers = none := by
        simp [reach, modifiersReach, hname, hbang]
      intro u hu
      by_cases hu' : u = modifiers
      · rw [hu', hmodifiers]
      · exact reach_eq_none (by revert u; decide) _

theorem mem_operatorTexts_of_reach {c : Char} {tl r : List Char}
    (h : reach c (tl ++ r) operator = some tl.length) : c :: tl ∈ operatorTexts := by
  simp only [reach, operatorReach] at h
  split at h
  case isFalse => cases h
  case isTrue hc =>
    rw [List.eq_nil_of_length_eq_zero (Option.some.inj h).symm]
    simp only [Bool.or_eq_true, Bool.and_eq_true, beq_iff_eq] at hc
    rcases hc with (rfl | rfl) | ⟨rfl, _⟩
    · decide
    · decide
    · decide

/-! ## What lexemes look like -/

/-- What the lexemes of a terminal that a tree keeps look like. Of a regular expression this says
nothing if its last slash is escaped. -/
def Spells (w : List Char) : Terminal → Prop
  | regexp => closingEscapes w % 2 = 0 → IsRegexp w
  | string => IsQuoted w
  | ruleName => IsRun isUnderscore isSmall isRuleChar w
  | terminalName => IsRun isUnderscore isLarge isTerminalChar w
  | comment => IsComment w
  | number => IsRun isSign isDigit isDigit w
  | modifiers => w ∈ signTexts
  | operator => w ∈ operatorTexts
  | tilde => w = ['~']
  | _ => True

theorem spells_of_reach {c : Char} {tl r : List Char} {t : Terminal}
    (h : reach c (tl ++ r) t = some tl.length) : Spells (c :: tl) t := by
  cases t
  case regexp => exact isRegexp_of_reach h
  case string => exact isQuoted_of_reach h
  case ruleName =>
    rw [reach_ruleName, runReach_append_eq_iff isRuleChar_of_isSmall] at h
    exact h.1
  case terminalName =>
    rw [reach_terminalName, runReach_append_eq_iff isTerminalChar_of_isLarge] at h
    exact h.1
  case comment => exact isComment_of_reach h
  case number =>
    rw [reach_number, runReach_append_eq_iff fun _ h => h] at h
    exact h.1
  case modifiers => exact mem_signTexts_of_reach h
  case operator => exact mem_operatorTexts_of_reach h
  case tilde =>
    simp only [reach, charReach] at h
    split at h
    · rename_i hc
      rw [List.eq_nil_of_length_eq_zero (Option.some.inj h).symm, eq_of_beq hc]
      rfl
    · cases h
  all_goals trivial

end GrammarServer.Terminal
