/-!
# Ordered dictionaries

A dictionary is the list of its entries, in the order in which their keys were first set.
-/

namespace Localizer.Assoc

variable {κ α : Type} [DecidableEq κ]

/-- Sets the value of a key, in the old place of the key if there is one. -/
def insert (k : κ) (a : α) : List (κ × α) → List (κ × α)
  | [] => [(k, a)]
  | (l, b) :: d => if l = k then (l, a) :: d else (l, b) :: insert k a d

def get? (k : κ) : List (κ × α) → Option α
  | [] => none
  | (l, b) :: d => if l = k then some b else get? k d

def contains (k : κ) (d : List (κ × α)) : Bool := (get? k d).isSome

def insertNew (k : κ) (a : α) (d : List (κ × α)) : List (κ × α) := if contains k d then d else d ++ [(k, a)]

/-- Changes the value of a key, which counts as `default` if it has none. -/
def modify (k : κ) (default : α) (f : α → α) (d : List (κ × α)) : List (κ × α) :=
  insert k (f ((get? k d).getD default)) d

def erase (k : κ) (d : List (κ × α)) : List (κ × α) := d.filter fun (l, _) => l ≠ k

/-- The dictionary of a list of entries, the last entry of a key giving its value. -/
def ofList (es : List (κ × α)) : List (κ × α) := es.foldl (fun d (k, a) => insert k a d) []

end Localizer.Assoc
