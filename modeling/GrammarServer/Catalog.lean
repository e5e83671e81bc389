/-!
# Catalogs

A catalog keeps values under names. The names stand in the order in which each was first used,
the values under a name in the order in which they were added.
-/
namespace GrammarServer

structure Catalog (α : Type) where
  entries : List (String × List α)

namespace Catalog
variable {α : Type}

def empty : Catalog α := ⟨[]⟩

def get? (c : Catalog α) (name : String) : Option (List α) := c.entries.lookup name

def contains (c : Catalog α) (name : String) : Bool := (c.get? name).isSome

def names (c : Catalog α) : List String := c.entries.map (·.1)

def values (c : Catalog α) : List α := c.entries.flatMap (·.2)

def addTo (name : String) (a : α) : List (String × List α) → List (String × List α)
  | [] => [(name, [a])]
  | (key, kept) :: rest =>
    if key == name then (key, kept ++ [a]) :: rest else (key, kept) :: addTo name a rest

/-- Adds a value under a name, behind those already there. -/
def add (c : Catalog α) (name : String) (a : α) : Catalog α := ⟨addTo name a c.entries⟩

def addAll (name : α → String) (c : Catalog α) (items : List α) : Catalog α :=
  items.foldl (fun c a => c.add (name a) a) c

def putAt (name : String) (items : List α) : List (String × List α) → List (String × List α)
  | [] => [(name, items)]
  | (key, kept) :: rest =>
    if key == name then (key, items) :: rest else (key, kept) :: putAt name items rest

/-- Puts values under a name, instead of those already there. -/
def put (c : Catalog α) (name : String) (items : List α) : Catalog α :=
  ⟨putAt name items c.entries⟩

/-- The catalog in which each name has the values that were given to it last. -/
def ofEntries (entries : List (String × List α)) : Catalog α :=
  entries.foldl (fun c (name, items) => c.put name items) empty

def group (name : α → String) (items : List α) : Catalog α := addAll name empty items

end Catalog

end GrammarServer
