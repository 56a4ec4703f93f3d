/-!
Searches through a finite universe by a successor function.

Every search keeps what it has seen. It ends because each step either takes an item off the list of
items to visit or sees an item of the universe for the first time (`Search.unseen_cons_lt`). Items
outside the universe are passed over.

* `Search.preorder` lists items depth first, each before its successors.
* `Search.postorder` lists them depth first, each after its successors.
* `Search.breadth` lists what is reached from a queue, in the order of the queue.
-/

namespace ShaderGraph.Search

variable {α : Type} [DecidableEq α]

/-- How many items of the universe are not among `seen`. -/
def unseen (all seen : List α) : Nat := (all.filter fun x => x ∉ seen).length

/-- Seeing more leaves no more to see. -/
theorem unseen_le_of_subset (all : List α) {seen more : List α} (sub : seen ⊆ more) :
    unseen all more ≤ unseen all seen := by
  unfold unseen
  have step : (all.filter fun x => x ∉ more) =
      (all.filter fun x => x ∉ seen).filter fun x => x ∉ more := by
    rw [List.filter_filter]
    congr 1
    funext x
    by_cases h : x ∈ seen
    · simp [h, sub h]
    · simp [h]
  rw [step]
  exact List.length_filter_le _ _

/-- Seeing an item for the first time leaves less to see. -/
theorem unseen_cons_lt {all seen : List α} {x : α} (here : x ∈ all) (fresh : x ∉ seen) :
    unseen all (x :: seen) < unseen all seen := by
  have member : x ∈ all.filter fun y => y ∉ seen := by simp [here, fresh]
  have step : (all.filter fun y => y ∉ x :: seen) =
      (all.filter fun y => y ∉ seen).filter fun y => y ≠ x := by
    rw [List.filter_filter]
    congr 1
    funext y
    by_cases h : y = x <;> simp [h]
  unfold unseen
  rw [step]
  refine Nat.lt_of_le_of_ne (List.length_filter_le _ _) fun equal => ?_
  have every := List.length_filter_eq_length_iff.mp equal x member
  simp at every

/-- Lists items depth first, each before its successors; `seen` is in reverse. -/
def preorder (all : List α) (next : α → List α) (seen : List α) : List α → List α
  | [] => seen.reverse
  | n :: rest =>
    if here : n ∈ all ∧ n ∉ seen then
      have := unseen_cons_lt here.1 here.2
      preorder all next (n :: seen) (next n ++ rest)
    else preorder all next seen rest
termination_by todo => (unseen all seen, todo.length)

/-- What is left to do for an item: visit its successors, or list the item itself. -/
inductive Visit (α : Type) where
  | enter (x : α)
  | leave (x : α)

/-- Lists items depth first, each after its successors; `done` is in reverse. -/
def postorder (all : List α) (next : α → List α) (seen done : List α) : List (Visit α) → List α
  | [] => done.reverse
  | .leave n :: rest => postorder all next seen (n :: done) rest
  | .enter n :: rest =>
    if here : n ∈ all ∧ n ∉ seen then
      have := unseen_cons_lt here.1 here.2
      postorder all next (n :: seen) done ((next n).map .enter ++ .leave n :: rest)
    else postorder all next seen done rest
termination_by todo => (unseen all seen, todo.length)

/-- The successors that were not seen, each once. -/
def fresh (all seen : List α) : List α → List α
  | [] => []
  | n :: rest =>
    if n ∈ all ∧ n ∉ seen then n :: fresh all (n :: seen) rest else fresh all seen rest

theorem mem_of_mem_fresh {all : List α} {x : α} :
    ∀ {seen items : List α}, x ∈ fresh all seen items → x ∈ all ∧ x ∉ seen
  | _, [], h => by simp [fresh] at h
  | seen, n :: rest, h => by
    unfold fresh at h
    split at h
    next good =>
      rcases List.mem_cons.mp h with rfl | later
      · exact good
      · have := mem_of_mem_fresh later
        exact ⟨this.1, fun old => this.2 (List.mem_cons_of_mem _ old)⟩
    next => exact mem_of_mem_fresh h

/-- Lists the successors of a queue of items, breadth first, each once. The items that the queue
starts with are listed only if they are successors. -/
def breadth (all : List α) (next : α → List α) (seen : List α) : List α → List α
  | [] => []
  | n :: queue =>
    match found : fresh all seen (next n) with
    | [] => breadth all next seen queue
    | x :: rest =>
      have inside : x ∈ all ∧ x ∉ seen := mem_of_mem_fresh (by rw [found]; exact List.mem_cons_self)
      have sub : x :: seen ⊆ x :: rest ++ seen := by simp
      have := Nat.lt_of_le_of_lt (unseen_le_of_subset all sub) (unseen_cons_lt inside.1 inside.2)
      x :: rest ++ breadth all next (x :: rest ++ seen) (queue ++ x :: rest)
termination_by queue => (unseen all seen, queue.length)

end ShaderGraph.Search
