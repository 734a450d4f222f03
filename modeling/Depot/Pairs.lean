/-! Lists of pairs in the order of their first use, read by the first part of each pair. -/

namespace Depot

/-- Finds what a list of pairs gives for a key. -/
def assoc? {α β : Type} [DecidableEq α] (key : α) : List (α × β) → Option β
  | [] => none
  | (k, v) :: rest => if key = k then some v else assoc? key rest

/-- Gives a key a new value; a new key goes to the end. -/
def assocSet {α β : Type} [DecidableEq α] (key : α) (value : β) : List (α × β) → List (α × β)
  | [] => [(key, value)]
  | (k, v) :: rest => if key = k then (key, value) :: rest else (k, v) :: assocSet key value rest

def assocErase {α β : Type} [DecidableEq α] (key : α) (pairs : List (α × β)) : List (α × β) :=
  pairs.filter fun pair => pair.1 ≠ key

theorem assoc?_assocSet_self {α β : Type} [DecidableEq α] (key : α) (value : β)
    (pairs : List (α × β)) : assoc? key (assocSet key value pairs) = some value := by
  induction pairs with
  | nil => simp [assocSet, assoc?]
  | cons p ps ih => grind [assocSet, assoc?]

theorem assoc?_assocSet_ne {α β : Type} [DecidableEq α] {key other : α} (h : other ≠ key)
    (value : β) (pairs : List (α × β)) :
    assoc? other (assocSet key value pairs) = assoc? other pairs := by
  induction pairs with
  | nil => simp [assocSet, assoc?, h]
  | cons p ps ih => grind [assocSet, assoc?]

theorem assoc?_assocErase_self {α β : Type} [DecidableEq α] (key : α) (pairs : List (α × β)) :
    assoc? key (assocErase key pairs) = none := by
  induction pairs with
  | nil => rfl
  | cons p ps ih => grind [assocErase, assoc?]

theorem assoc?_assocErase_ne {α β : Type} [DecidableEq α] {key other : α} (h : other ≠ key)
    (pairs : List (α × β)) : assoc? other (assocErase key pairs) = assoc? other pairs := by
  induction pairs with
  | nil => rfl
  | cons p ps ih => grind [assocErase, assoc?]

end Depot
