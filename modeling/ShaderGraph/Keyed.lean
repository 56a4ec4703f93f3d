/-!
Finite maps as lists of pairs in increasing order of their keys.

`Keyed.insert` keeps the order and replaces the value of a key that is already there, so a list
built by it has each key once. `Keyed.get?_insert` says what it does to every look-up.
-/

namespace ShaderGraph

namespace Keyed

variable {κ α : Type} [LT κ] [DecidableLT κ] [DecidableEq κ]

/-- Sets the value of a key. -/
def insert (key : κ) (value : α) : List (κ × α) → List (κ × α)
  | [] => [(key, value)]
  | (k, v) :: rest =>
    if key = k then (key, value) :: rest
    else if key < k then (key, value) :: (k, v) :: rest
    else (k, v) :: insert key value rest

omit [LT κ] [DecidableLT κ] in
/-- The value of a key. -/
def get? (key : κ) : List (κ × α) → Option α
  | [] => none
  | (k, v) :: rest => if k = key then some v else get? key rest

/-- Inserting changes the look-up of its own key and of no other. -/
theorem get?_insert (entries : List (κ × α)) (key k : κ) (value : α) :
    get? k (insert key value entries) = if key = k then some value else get? k entries := by
  induction entries with
  | nil => rfl
  | cons head rest ih => grind [insert, get?]

omit [LT κ] [DecidableLT κ] in
/-- The first pair of a key decides its look-up. -/
theorem get?_cons (k key : κ) (v : α) (rest : List (κ × α)) :
    get? key ((k, v) :: rest) = if k = key then some v else get? key rest := rfl

omit [LT κ] [DecidableLT κ] in
theorem get?_eq_none {key : κ} {entries : List (κ × α)} (h : key ∉ entries.map Prod.fst) :
    get? key entries = none := by
  induction entries with
  | nil => rfl
  | cons e rest ih =>
    rw [List.map_cons, List.mem_cons, not_or] at h
    rw [get?_cons, if_neg fun heq => h.1 heq.symm]
    exact ih h.2

end Keyed

end ShaderGraph
