import GrammarServer.Text.Integer
import GrammarServer.Proofs.Lexeme.Spelling
import GrammarServer.Proofs.Text.Strip
import Mathlib.Algebra.Group.Nat.Defs

/-!
# Numerals

A number that has been read can be written, and the numeral in which it is written is read as the
same number.
-/
namespace GrammarServer.Text

theorem digitIn_lt {ranges : List (Nat × Nat)} {n d : Nat} (h : digitIn ranges n = some d) :
    d < 10 := by
  induction ranges with
  | nil => cases h
  | cons range ranges ih =>
    obtain ⟨first, last⟩ := range
    rw [digitIn] at h
    split at h
    · cases h
    · split at h
      · cases h
        omega
      · exact ih h

def addDigit (value : Nat) (c : Char) : Nat :=
  match digit? c with
  | some d => value * 10 + d
  | none => value

theorem valueOf_eq (cs : List Char) : valueOf cs = cs.foldl addDigit 0 := rfl

theorem foldl_addDigit_lt (cs : List Char) (value : Nat) :
    cs.foldl addDigit value < (value + 1) * 10 ^ (cs.filter isDigit).length := by
  induction cs generalizing value with
  | nil => simp
  | cons c cs ih =>
    rw [List.foldl_cons, addDigit]
    cases hc : digit? c with
    | none =>
      have hdigit : isDigit c = false := by rw [isDigit, hc]; rfl
      rw [List.filter_cons_of_neg (by simp [hdigit])]
      exact ih value
    | some d =>
      have hdigit : isDigit c = true := by rw [isDigit, hc]; rfl
      have hd := digitIn_lt hc
      rw [List.filter_cons_of_pos hdigit, List.length_cons, Nat.pow_succ']
      refine Nat.lt_of_lt_of_le (ih (value * 10 + d)) ?_
      rw [← Nat.mul_assoc]
      exact Nat.mul_le_mul_right _ (by omega)

theorem exists_digit_of_isSpaced {cs : List Char}
    (hcs : ∀ c ∈ cs, (isDigit c || c == '_') = true) (h : isSpaced false cs = true) :
    0 < (cs.filter isDigit).length := by
  cases cs with
  | nil => cases h
  | cons c cs =>
    rw [isSpaced] at h
    split at h
    · cases h
    · rename_i hc
      have hdigit : isDigit c = true := by simpa [hc] using hcs c List.mem_cons_self
      rw [List.filter_cons_of_pos hdigit]
      exact Nat.succ_pos _

theorem length_toDigits_of_readNumeral {cs : List Char} {n : Nat} (h : readNumeral cs = .ok n) :
    (Nat.toDigits 10 n).length ≤ digitLimit := by
  simp only [readNumeral] at h
  split at h
  · cases h
  · rename_i hspaced
    split at h
    · cases h
    · rename_i hcount
      split at h
      · cases h
        have hall := List.all_eq_true.mp
          (List.all_takeWhile (p := fun c => isDigit c || c == '_') (l := cs))
        have hpos := exists_digit_of_isSpaced hall (by simpa using hspaced)
        have hlt := foldl_addDigit_lt (cs.takeWhile fun c => isDigit c || c == '_') 0
        rw [Nat.zero_add, Nat.one_mul] at hlt
        have hlength := (Nat.length_toDigits_le_iff (b := 10) (by decide) hpos).mpr hlt
        exact Nat.le_trans hlength (Nat.le_of_not_lt hcount)
      · cases h

theorem length_toDigits_of_readInteger {s : String} {n : Int} (h : readInteger s = .ok n) :
    (Nat.toDigits 10 n.natAbs).length ≤ digitLimit := by
  rw [readInteger] at h
  unfold readSigned at h
  split at h
  all_goals
    cases hread : readNumeral _ with
    | error e =>
      rw [hread] at h
      cases h
    | ok k =>
      rw [hread] at h
      cases h
      simpa using length_toDigits_of_readNumeral hread

/-! ## Writing numbers -/

def numeral (n : Int) : List Char := (if n < 0 then ['-'] else []) ++ Nat.toDigits 10 n.natAbs

theorem toList_toString (n : Int) : (toString n).toList = numeral n := by
  rw [Int.toString_eq_repr, Int.repr_eq_if, numeral]
  split
  · rename_i hn
    rw [if_neg (by omega), Nat.toList_repr, List.nil_append]
    congr 1
    omega
  · rename_i hn
    rw [if_pos (by omega), String.toList_append, Nat.toList_repr]
    have habs : (-n).toNat = n.natAbs := by omega
    rw [habs]
    rfl

theorem digit?_of_isDigit {c : Char} (h : c.isDigit = true) : digit? c = some (c.toNat - 48) := by
  obtain ⟨hlow, hhigh⟩ : 48 ≤ c.toNat ∧ c.toNat ≤ 57 := by
    simp only [Char.isDigit, Bool.and_eq_true, decide_eq_true_eq] at h
    exact h
  rw [digit?, digitRanges, digitIn, if_neg (by omega), if_pos hhigh, Nat.mod_eq_of_lt (by omega)]

theorem isDigit_of_mem_toDigits {n : Nat} {c : Char} (h : c ∈ Nat.toDigits 10 n) :
    isDigit c = true := by
  rw [isDigit, digit?_of_isDigit (Nat.isDigit_of_mem_toDigits (by decide) (by decide) h)]
  rfl

theorem valueOf_toDigits (n : Nat) : valueOf (Nat.toDigits 10 n) = n := by
  have hfold : ∀ (cs : List Char) (value : Nat), (∀ c ∈ cs, c.isDigit = true) →
      cs.foldl addDigit value = Nat.ofDigitChars 10 cs value := by
    intro cs
    induction cs with
    | nil => exact fun value _ => by simp
    | cons c cs ih =>
      intro value hcs
      rw [List.foldl_cons, addDigit, Nat.ofDigitChars_cons,
        digit?_of_isDigit (hcs c List.mem_cons_self),
        ih _ fun d hd => hcs d (List.mem_cons_of_mem _ hd), Nat.mul_comm]
      rfl
  rw [valueOf_eq, hfold _ _ fun c hc => Nat.isDigit_of_mem_toDigits (by decide) (by decide) hc,
    Nat.ofDigitChars_ten_toDigits]

theorem isSpaced_of_digits {cs : List Char} (hcs : ∀ c ∈ cs, isDigit c = true) :
    ∀ b, (b = true ∨ cs ≠ []) → isSpaced b cs = true := by
  induction cs with
  | nil => exact fun b h => h.resolve_right (· rfl)
  | cons c cs ih =>
    intro b _
    have hc : (c == '_') = false := by
      rw [beq_eq_false_iff_ne]
      rintro rfl
      exact absurd (hcs '_' List.mem_cons_self) (by decide)
    rw [isSpaced, hc]
    exact ih (fun d hd => hcs d (List.mem_cons_of_mem _ hd)) true (Or.inl rfl)

/-- Digits are read as the number that they write, unless they are too many. -/
theorem readNumeral_digits {cs : List Char} (hdigits : ∀ c ∈ cs, isDigit c = true) (hne : cs ≠ [])
    (h : cs.length ≤ digitLimit) : readNumeral cs = .ok (valueOf cs) := by
  have htake : cs.takeWhile (fun c => isDigit c || c == '_') = cs := by
    have h : (cs ++ []).takeWhile (fun c => isDigit c || c == '_') = _ :=
      List.takeWhile_append_of_pos fun c hc => by rw [hdigits c hc, Bool.true_or]
    simpa using h
  have hfilter : cs.filter isDigit = cs := List.filter_eq_self.mpr hdigits
  simp only [readNumeral, htake, hfilter, isSpaced_of_digits hdigits false (Or.inr hne)]
  simp only [Bool.not_true, Bool.false_eq_true, if_false, if_neg (Nat.not_lt.mpr h),
    List.drop_length, List.all_nil, if_true]

theorem readNumeral_toDigits {n : Nat} (h : (Nat.toDigits 10 n).length ≤ digitLimit) :
    readNumeral (Nat.toDigits 10 n) = .ok n := by
  rw [readNumeral_digits (fun c hc => isDigit_of_mem_toDigits hc) Nat.toDigits_ne_nil h,
    valueOf_toDigits]

theorem exists_digit_toDigits (n : Nat) :
    ∃ c cs, Nat.toDigits 10 n = c :: cs ∧ c.isDigit = true := by
  obtain ⟨c, cs, hcs⟩ := List.exists_cons_of_ne_nil (Nat.toDigits_ne_nil (n := n) (b := 10))
  refine ⟨c, cs, hcs, Nat.isDigit_of_mem_toDigits (b := 10) (n := n) (by decide) (by decide) ?_⟩
  rw [hcs]
  exact List.mem_cons_self

theorem isNumeralBlank_of_isDigit {c : Char} (h : c.isDigit = true) :
    isNumeralBlank c = false := by
  have hdigit : isDigit c = true := by
    rw [isDigit, digit?_of_isDigit h]
    rfl
  rw [isNumeralBlank, isBlank_of_isDigit hdigit, Bool.false_and]

theorem readInteger_numeral {n : Int} (h : (Nat.toDigits 10 n.natAbs).length ≤ digitLimit) :
    readInteger (String.ofList (numeral n)) = .ok n := by
  have hread := readNumeral_toDigits h
  obtain ⟨c, cs, hcs, hc⟩ := exists_digit_toDigits n.natAbs
  rw [readInteger, String.toList_ofList, numeral]
  split
  · rename_i hn
    have habs : -(n.natAbs : Int) = n := by omega
    rw [List.singleton_append, List.dropWhile_cons_of_neg (by decide), readSigned, hread]
    exact congrArg Except.ok habs
  · rename_i hn
    have habs : (n.natAbs : Int) = n := by omega
    have hsign : c ≠ '-' ∧ c ≠ '+' := by
      refine ⟨?_, ?_⟩
      · rintro rfl
        exact absurd hc (by decide)
      · rintro rfl
        exact absurd hc (by decide)
    rw [List.nil_append, hcs, List.dropWhile_cons_of_neg (by simp [isNumeralBlank_of_isDigit hc]),
      readSigned, ← hcs, hread]
    · exact congrArg Except.ok habs
    · exact fun _ h => hsign.1 (List.cons.inj h).1
    · exact fun _ h => hsign.2 (List.cons.inj h).1

theorem isRun_numeral (n : Int) :
    Terminal.IsRun Terminal.isSign isDigit isDigit (numeral n) := by
  obtain ⟨c, cs, hcs, _⟩ := exists_digit_toDigits n.natAbs
  have hdigits : ∀ d ∈ c :: cs, isDigit d = true := fun d hd =>
    isDigit_of_mem_toDigits (n := n.natAbs) (hcs ▸ hd)
  rw [numeral, hcs]
  split
  · exact ⟨Or.inr ⟨rfl, hdigits c List.mem_cons_self⟩, hdigits⟩
  · exact ⟨Or.inl (hdigits c List.mem_cons_self), fun d hd => hdigits d (List.mem_cons_of_mem _ hd)⟩

/-- A run of digits, perhaps after a sign, is read as a number, unless it is too long. -/
theorem exists_readInteger {w : List Char} (hw : Terminal.IsRun Terminal.isSign isDigit isDigit w)
    (h : (w.filter isDigit).length ≤ digitLimit) :
    ∃ n, readInteger (String.ofList w) = .ok n := by
  obtain ⟨c, cs, rfl⟩ := List.exists_cons_of_ne_nil hw.ne_nil
  obtain ⟨hfirst, hdigits⟩ := hw
  have hcs : cs.filter isDigit = cs := List.filter_eq_self.mpr hdigits
  rw [readInteger, String.toList_ofList]
  by_cases hc : isDigit c = true
  · have hall : ∀ d ∈ c :: cs, isDigit d = true := List.forall_mem_cons.mpr ⟨hc, hdigits⟩
    have hblank : isNumeralBlank c = false := by
      rw [isNumeralBlank, isBlank_of_isDigit hc, Bool.false_and]
    have hsign : c ≠ '-' ∧ c ≠ '+' := by
      refine ⟨?_, ?_⟩
      · rintro rfl
        exact absurd hc (by decide)
      · rintro rfl
        exact absurd hc (by decide)
    rw [List.filter_eq_self.mpr hall] at h
    rw [List.dropWhile_cons_of_neg (by simp [hblank]), readSigned,
      readNumeral_digits hall (List.cons_ne_nil _ _) h]
    · exact ⟨_, rfl⟩
    · exact fun _ heq => hsign.1 (List.cons.inj heq).1
    · exact fun _ heq => hsign.2 (List.cons.inj heq).1
  · obtain ⟨hmark, hstarts⟩ := hfirst.resolve_left hc
    have hne : cs ≠ [] := by
      rintro rfl
      cases hstarts
    rw [List.filter_cons_of_neg hc, hcs] at h
    have hread := readNumeral_digits hdigits hne h
    have hsign : c = '+' ∨ c = '-' := by simpa [Terminal.isSign] using hmark
    rcases hsign with rfl | rfl
    all_goals
      rw [List.dropWhile_cons_of_neg (by decide), readSigned, hread]
      exact ⟨_, rfl⟩

end GrammarServer.Text
