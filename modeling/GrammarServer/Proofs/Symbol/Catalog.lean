import GrammarServer.Catalog
import Mathlib.Data.List.Induction
import Mathlib.Data.List.Nodup
import Mathlib.Data.List.Perm.Basic

/-!
# What a catalog lists

A catalog of some values lists under each name the values that have it, in their order, and lists
no name without a value; the names stand in the order in which each first occurs. Taken together it
lists each value once, and those that are not the first under their name are those that have the
name of an earlier one.
-/
namespace GrammarServer.Catalog

variable {α : Type}

/-! ## One more value -/

theorem lookup_addTo (name key : String) (a : α) (entries : List (String × List α)) :
    (addTo name a entries).lookup key =
      if key = name then some ((entries.lookup name).getD [] ++ [a]) else entries.lookup key := by
  induction entries with
  | nil => grind [addTo]
  | cons entry entries ih =>
    rw [addTo]
    by_cases hown : entry.1 = name <;> grind

theorem names_addTo (name : String) (a : α) (entries : List (String × List α)) :
    (addTo name a entries).map Prod.fst =
      if name ∈ entries.map Prod.fst then entries.map Prod.fst
      else entries.map Prod.fst ++ [name] := by
  induction entries with
  | nil => rfl
  | cons entry entries ih =>
    rw [addTo]
    by_cases hown : entry.1 = name <;> grind

theorem nodup_names_add {c : Catalog α} (h : c.names.Nodup) (name : String) (a : α) :
    (c.add name a).names.Nodup := by
  rw [add, names, names_addTo]
  split
  · exact h
  case isFalse hmem => exact List.nodup_append.mpr ⟨h, by simp, by grind [names]⟩

/-! ## Many values -/

theorem nodup_names_addAll (name : α → String) (items : List α) : ∀ {c : Catalog α},
    c.names.Nodup → (addAll name c items).names.Nodup := by
  induction items with
  | nil => exact fun h => h
  | cons a items ih => exact fun h => ih (nodup_names_add h (name a) a)

theorem get?_addAll (name : α → String) (key : String) (items : List α) : ∀ c : Catalog α,
    (addAll name c items).get? key =
      if items.filter (name · == key) = [] then c.get? key
      else some ((c.get? key).getD [] ++ items.filter (name · == key)) := by
  induction items with
  | nil => exact fun c => rfl
  | cons a items ih =>
    intro c
    have hstep : (c.add (name a) a).get? key =
        if key = name a then some ((c.get? (name a)).getD [] ++ [a]) else c.get? key :=
      lookup_addTo (name a) key a c.entries
    refine (ih (c.add (name a) a)).trans ?_
    rw [hstep, List.filter_cons]
    by_cases ha : name a = key
    · subst ha
      by_cases hrest : items.filter (name · == name a) = [] <;> simp [hrest]
    · simp [ha, Ne.symm ha]

section

variable (name : α → String) (items : List α)

theorem get?_group (key : String) : (group name items).get? key =
    if items.filter (name · == key) = [] then none else some (items.filter (name · == key)) :=
  get?_addAll name key items empty

theorem sublist_of_get?_group {key : String} {as : List α}
    (h : (group name items).get? key = some as) : as.Sublist items := by
  rw [get?_group] at h
  split at h
  · cases h
  · obtain rfl := Option.some.inj h
    exact List.filter_sublist

/-- The first value listed under a name is the first that has it. -/
theorem exists_get?_group_iff (key : String) (a : α) :
    (∃ rest, (group name items).get? key = some (a :: rest)) ↔
      items.find? (name · == key) = some a := by
  rw [get?_group, ← List.head?_filter]
  cases items.filter (name · == key) <;> simp

theorem exists_mem_get?_group_iff (key : String) (a : α) :
    (∃ as, (group name items).get? key = some as ∧ a ∈ as) ↔ a ∈ items ∧ name a = key := by
  rw [get?_group]
  constructor
  · rintro ⟨as, has, ha⟩
    split at has
    · cases has
    · obtain rfl := Option.some.inj has
      simpa using ha
  · intro ha
    have hmem : a ∈ items.filter (name · == key) := by simpa using ha
    exact ⟨_, if_neg (List.ne_nil_of_mem hmem), hmem⟩

theorem contains_group_iff (key : String) :
    (group name items).contains key = true ↔ ∃ a ∈ items, name a = key := by
  rw [contains, get?_group]
  by_cases h : items.filter (name · == key) = []
  · rw [if_pos h]
    simpa using h
  · obtain ⟨a, ha⟩ := List.exists_mem_of_ne_nil _ h
    rw [if_neg h, Option.isSome_some]
    exact ⟨fun _ => ⟨a, by simpa using ha⟩, fun _ => rfl⟩

theorem contains_group_eq_any (key : String) :
    (group name items).contains key = items.any (name · == key) := by
  rw [Bool.eq_iff_iff, contains_group_iff]
  simp

theorem lookup_eq_some_of_mem {entries : List (String × List α)}
    (hnodup : (entries.map Prod.fst).Nodup) {key : String} {as : List α}
    (h : (key, as) ∈ entries) : entries.lookup key = some as := by
  induction entries with
  | nil => cases h
  | cons entry entries ih =>
    rw [List.map_cons, List.nodup_cons] at hnodup
    rcases List.mem_cons.mp h with rfl | h
    · simp
    · have hne : (key == entry.1) = false :=
        beq_eq_false_iff_ne.mpr fun heq => hnodup.1 (List.mem_map.mpr ⟨_, h, heq⟩)
      rw [List.lookup_cons, hne]
      exact ih hnodup.2 h

theorem mem_entries_group {key : String} {as : List α} :
    (key, as) ∈ (group name items).entries ↔ as = items.filter (name · == key) ∧ as ≠ [] := by
  have hnodup : (group name items).names.Nodup := nodup_names_addAll name items List.nodup_nil
  have hget := get?_group name items key
  constructor
  · intro h
    have hlookup : (group name items).get? key = some as := lookup_eq_some_of_mem hnodup h
    rw [hlookup] at hget
    by_cases hnil : items.filter (name · == key) = []
    · rw [if_pos hnil] at hget
      cases hget
    · rw [if_neg hnil] at hget
      rw [Option.some.inj hget]
      exact ⟨rfl, hnil⟩
  · rintro ⟨rfl, hne⟩
    rw [if_neg hne] at hget
    obtain ⟨before, after, heq, _⟩ := List.lookup_eq_some_iff.mp hget
    rw [heq]
    simp

theorem mem_values_group {a : α} : a ∈ (group name items).values ↔ a ∈ items := by
  rw [values, List.mem_flatMap]
  constructor
  · rintro ⟨⟨key, as⟩, hentry, ha⟩
    obtain ⟨rfl, _⟩ := (mem_entries_group name items).mp hentry
    exact List.mem_of_mem_filter ha
  · intro ha
    have hmem : a ∈ items.filter (name · == name a) := by simpa using ha
    exact ⟨(name a, _), (mem_entries_group name items).mpr ⟨rfl, List.ne_nil_of_mem hmem⟩, hmem⟩

end

/-! ## All values -/

theorem group_append_singleton (name : α → String) (items : List α) (a : α) :
    group name (items ++ [a]) = (group name items).add (name a) a := by
  simp only [group, addAll, List.foldl_append, List.foldl_cons, List.foldl_nil]

theorem values_addTo_perm (name : String) (a : α) (entries : List (String × List α)) :
    ((addTo name a entries).flatMap (·.2)).Perm (entries.flatMap (·.2) ++ [a]) := by
  induction entries with
  | nil => exact List.Perm.refl [a]
  | cons entry entries ih =>
    rw [addTo]
    split
    · simp only [List.flatMap_cons, List.append_assoc]
      exact List.perm_append_comm.append_left entry.2
    · simp only [List.flatMap_cons, List.append_assoc]
      exact ih.append_left entry.2

theorem values_group_perm (name : α → String) (items : List α) :
    (group name items).values.Perm items := by
  induction items using List.reverseRecOn with
  | nil => exact List.Perm.refl []
  | append_singleton items a ih =>
    rw [group_append_singleton]
    exact (values_addTo_perm (name a) a (group name items).entries).trans (ih.append_right [a])

theorem values_group_eq_nil {name : α → String} {items : List α} :
    (group name items).values = [] ↔ items = [] := by
  have hperm := values_group_perm name items
  exact ⟨fun h => List.nil_perm.mp (h ▸ hperm), fun h => List.perm_nil.mp (h ▸ hperm)⟩

/-! ## Names in their order -/

/-- A catalog keeps some values: it lists the names that they have, in the order in which each first
occurs, and under each name the values that have it, in their order. -/
structure Keeps (name : α → String) (items : List α) (c : Catalog α) : Prop where
  names_eq : c.names = (items.map name).eraseDups
  listed : ∀ key as, (key, as) ∈ c.entries →
    as ≠ [] ∧ (∀ a ∈ as, name a = key) ∧ as = items.filter (name · == key)
  get?_eq : ∀ key, c.get? key =
    if items.filter (name · == key) = [] then none else some (items.filter (name · == key))

/-- Of the values that follow some earlier ones, those that have the name of one before them. -/
def repeatedAfter (name : α → String) (earlier : List α) : List α → List α
  | [] => []
  | a :: rest =>
    (if earlier.any (name · == name a) then [a] else []) ++
      repeatedAfter name (earlier ++ [a]) rest

theorem repeatedAfter_append_singleton (name : α → String) (a : α) (items : List α) :
    ∀ earlier, repeatedAfter name earlier (items ++ [a]) = repeatedAfter name earlier items ++
      if (earlier ++ items).any (name · == name a) then [a] else [] := by
  induction items with
  | nil => simp [repeatedAfter]
  | cons b items ih =>
    intro earlier
    simp only [List.cons_append, repeatedAfter, ih, List.append_assoc, List.nil_append]

theorem repeatedAfter_sublist (name : α → String) (items : List α) :
    ∀ earlier, (repeatedAfter name earlier items).Sublist items := by
  induction items with
  | nil => exact fun earlier => List.Sublist.refl []
  | cons a items ih =>
    intro earlier
    rw [repeatedAfter]
    split
    · exact (ih _).cons_cons a
    · exact (ih _).cons a

theorem tails_addTo_perm (name : String) (a : α) {entries : List (String × List α)}
    (hne : ∀ entry ∈ entries, entry.2 ≠ []) :
    ((addTo name a entries).flatMap (·.2.tail)).Perm (entries.flatMap (·.2.tail) ++
      if (entries.lookup name).isSome then [a] else []) := by
  induction entries with
  | nil => exact List.Perm.refl []
  | cons entry entries ih =>
    obtain ⟨hentry, hrest⟩ := List.forall_mem_cons.mp hne
    rw [addTo, List.lookup_cons]
    by_cases hown : entry.1 = name
    · subst hown
      simp only [beq_self_eq_true, if_true, Option.isSome_some, List.flatMap_cons,
        List.tail_append_of_ne_nil hentry, List.append_assoc]
      exact List.perm_append_comm.append_left entry.2.tail
    · have hother : (name == entry.1) = false := by simpa using Ne.symm hown
      simp only [beq_iff_eq, hown, if_false, hother, List.flatMap_cons, List.append_assoc]
      exact (ih hrest).append_left entry.2.tail

theorem tails_group_perm (name : α → String) (items : List α) :
    ((group name items).entries.flatMap (·.2.tail)).Perm (repeatedAfter name [] items) := by
  induction items using List.reverseRecOn with
  | nil => exact List.Perm.refl []
  | append_singleton items a ih =>
    have hne : ∀ entry ∈ (group name items).entries, entry.2 ≠ [] := fun entry hentry =>
      ((mem_entries_group name items).mp hentry).2
    have hlisted : ((group name items).entries.lookup (name a)).isSome =
        items.any (name · == name a) := contains_group_eq_any name items (name a)
    have hadded := tails_addTo_perm (name a) a hne
    rw [hlisted] at hadded
    rw [group_append_singleton, repeatedAfter_append_singleton, List.nil_append]
    exact hadded.trans (ih.append_right _)

end GrammarServer.Catalog
