import ShaderGraph.Proofs.RoundTrip

/-!
# The order of the walks upstream

`Graph.gather` and `Graph.gatherFeedersFirst` keep a stack of what is left to do. Both follow one
and the same recursion, `Search.Descent`: an item that is new is entered, then everything behind it
is walked through, then it is left. The first walk lists the items as they are entered, the second
one as they are left (`Search.Descent.preorder_eq`, `Search.Descent.postorder_eq`).

What is left has nothing new behind it. So an item may be listed before one that it reads from only
if that one was entered and not left, which means that the walk is on a path from it; and in a graph
without cycles there is no way back along such a path (`Search.Descent.fed`). The result for graphs
is `Graph.walks_list_upstream`.
-/

namespace ShaderGraph

open Relation List Option

/-! ## 1. Recursive descent -/

namespace Search

variable {α : Type} {all seen seen' todo rest pre post pre' post' : List α}
  {next : α → List α} {n x : α}

/-- A depth-first walk through what is to be visited, each item with everything behind it before the
next one. `pre` are the items that are new, in the order in which they are entered, and `post` the
same items in the order in which they are left. -/
inductive Descent (all : List α) (next : α → List α) :
    List α → List α → List α → List α → Prop
  | nil (seen : List α) : Descent all next seen [] [] []
  /-- An item that was seen, or is none of the universe, is passed over. -/
  | skip {seen rest pre post : List α} {n : α} : ¬(n ∈ all ∧ n ∉ seen) →
      Descent all next seen rest pre post → Descent all next seen (n :: rest) pre post
  | visit {seen rest pre post pre' post' : List α} {n : α} : n ∈ all → n ∉ seen →
      Descent all next (n :: seen) (next n) pre post →
      Descent all next (pre.reverse ++ n :: seen) rest pre' post' →
      Descent all next seen (n :: rest) (n :: pre ++ pre') (post ++ n :: post')

namespace Descent

section

variable (h : Descent all next seen todo pre post)
include h

theorem mem_of_mem_todo (hx : x ∈ todo) (hall : x ∈ all) : x ∈ pre ∨ x ∈ seen := by
  induction h with
  | nil => cases hx
  | @skip seen rest pre post n old _ ih =>
    rcases mem_cons.mp hx with rfl | hx
    · refine .inr ?_
      by_contra new
      exact old ⟨hall, new⟩
    · exact ih hx
  | @visit seen rest pre post pre' post' n _ _ _ _ _ ih =>
    rcases mem_cons.mp hx with rfl | hx
    · exact .inl mem_cons_self
    · have later := ih hx
      simp only [mem_append, mem_reverse, mem_cons] at later ⊢
      tauto

theorem exists_path (hx : x ∈ pre) : ∃ n ∈ todo, ReflTransGen (fun a b => b ∈ next a) n x := by
  induction h with
  | nil => cases hx
  | skip _ _ ih =>
    obtain ⟨n, hn, path⟩ := ih hx
    exact ⟨n, mem_cons_of_mem _ hn, path⟩
  | @visit seen rest pre post pre' post' n _ _ _ _ inner later =>
    rcases mem_append.mp hx with hx | hx
    · rcases mem_cons.mp hx with rfl | hx
      · exact ⟨x, mem_cons_self, .refl⟩
      · obtain ⟨m, hm, path⟩ := inner hx
        exact ⟨n, mem_cons_self, .head hm path⟩
    · obtain ⟨m, hm, path⟩ := later hx
      exact ⟨m, mem_cons_of_mem _ hm, path⟩

/-- Whatever is entered is left, once. -/
theorem perm : post.Perm pre := by
  induction h with
  | nil => exact .refl _
  | skip _ _ ih => exact ih
  | visit _ _ _ _ inner later => exact perm_middle.trans (.cons _ (inner.append later))

end

variable [DecidableEq α]

/-- There is a descent from every state of a walk. -/
theorem exists_descent (all : List α) (next : α → List α) (seen todo : List α) :
    ∃ pre post, Descent all next seen todo pre post := by
  -- what is behind a new item sees fewer new items, and so does what comes after it
  induction hk : unseen all seen using Nat.strong_induction_on generalizing seen todo with
  | _ k ih =>
    subst hk
    induction todo with
    | nil => exact ⟨[], [], .nil seen⟩
    | cons n rest skipped =>
      by_cases new : n ∈ all ∧ n ∉ seen
      · have fewer := unseen_cons_lt new.1 new.2
        obtain ⟨pre, post, inner⟩ := ih _ fewer (n :: seen) (next n) rfl
        have sub : n :: seen ⊆ pre.reverse ++ n :: seen := subset_append_right _ _
        have still := (unseen_le_of_subset all sub).trans_lt fewer
        obtain ⟨pre', post', later⟩ := ih _ still (pre.reverse ++ n :: seen) rest rfl
        exact ⟨_, _, .visit new.1 new.2 inner later⟩
      · obtain ⟨pre, post, later⟩ := skipped
        exact ⟨pre, post, .skip new later⟩

section

variable (h : Descent all next seen todo pre post)
include h

/-- The walk with a stack of items goes along with the descent and comes to the rest of its stack
once the descent is over. -/
theorem preorder_append (rest : List α) :
    preorder all next seen (todo ++ rest) = preorder all next (pre.reverse ++ seen) rest := by
  induction h generalizing rest with
  | nil => rfl
  | skip old _ ih => rw [cons_append, preorder, dif_neg old, ih]
  | visit here new _ _ inner later =>
    rw [cons_append, preorder, dif_pos ⟨here, new⟩, inner, later]
    simp only [reverse_append, reverse_cons, append_assoc, singleton_append]

theorem postorder_append (done : List α) (rest : List (Visit α)) :
    postorder all next seen done (todo.map .enter ++ rest) =
      postorder all next (pre.reverse ++ seen) (post.reverse ++ done) rest := by
  induction h generalizing done rest with
  | nil => rfl
  | skip old _ ih => rw [map_cons, cons_append, postorder, dif_neg old, ih]
  | visit here new _ _ inner later =>
    rw [map_cons, cons_append, postorder, dif_pos ⟨here, new⟩, inner, postorder, later]
    simp only [reverse_append, reverse_cons, append_assoc, cons_append,
      nil_append]

theorem preorder_eq : preorder all next seen todo = seen.reverse ++ pre := by
  have walked := h.preorder_append []
  rw [append_nil, preorder, reverse_append, reverse_reverse] at walked
  exact walked

theorem postorder_eq : postorder all next seen [] (todo.map .enter) = post := by
  have walked := h.postorder_append [] []
  rw [append_nil, append_nil, postorder, reverse_reverse] at walked
  exact walked

end

/-- There is one descent from each state, and the two walks list what it enters and leaves. -/
theorem iff_walks : Descent all next [] todo pre post ↔
    pre = preorder all next [] todo ∧ post = postorder all next [] [] (todo.map .enter) := by
  constructor
  · intro h
    exact ⟨h.preorder_eq.symm, h.postorder_eq.symm⟩
  · rintro ⟨rfl, rfl⟩
    obtain ⟨pre, post, h⟩ := exists_descent all next [] todo
    rw [h.preorder_eq, h.postorder_eq]
    exact h

end Descent

/-! ## 2. Everything after what it reads from -/

/-- Whatever is behind an item of the list, as far as it is in the universe, was seen before or
comes earlier in the list. -/
def Fed (all : List α) (next : α → List α) (seen : List α) : List α → Prop
  | [] => True
  | a :: rest => (∀ y ∈ next a, y ∈ all → y ∈ seen) ∧ Fed all next (a :: seen) rest

namespace Fed

theorem mono (h : Fed all next seen post) (sub : ∀ a ∈ post, ∀ y ∈ next a, y ∈ seen → y ∈ seen') :
    Fed all next seen' post := by
  induction post generalizing seen seen' with
  | nil => trivial
  | cons a rest ih =>
    refine ⟨fun y hy hall => sub a mem_cons_self y hy (h.1 y hy hall), ih h.2 ?_⟩
    intro a' ha' y hy hseen
    rcases mem_cons.mp hseen with rfl | hseen
    · exact mem_cons_self
    · exact mem_cons_of_mem _ (sub a' (mem_cons_of_mem _ ha') y hy hseen)

theorem append (h : Fed all next seen post) (h' : Fed all next (post.reverse ++ seen) post') :
    Fed all next seen (post ++ post') := by
  induction post generalizing seen with
  | nil => exact h'
  | cons a rest ih =>
    refine ⟨h.1, ih h.2 ?_⟩
    rw [reverse_cons, append_assoc] at h'
    exact h'

theorem mem_before (h : Fed all next seen post) {before after : List α} {a y : α}
    (split : post = before ++ a :: after) (hy : y ∈ next a) (hall : y ∈ all) :
    y ∈ before ∨ y ∈ seen := by
  induction before generalizing seen post with
  | nil =>
    subst split
    exact .inr (h.1 y hy hall)
  | cons b before ih =>
    subst split
    rcases ih h.2 rfl with earlier | hseen
    · exact .inl (mem_cons_of_mem _ earlier)
    · rcases mem_cons.mp hseen with rfl | hseen
      · exact .inl mem_cons_self
      · exact .inr hseen

end Fed

/-- What a descent leaves comes after everything behind it. Where the next items are visited, the
item that they belong to is entered and not left; nothing that is left meanwhile leads back to it.
-/
theorem Descent.fed (h : Descent all next seen todo pre post)
    (acyclic : ∀ x, ¬TransGen (fun a b => b ∈ next a) x x) : Fed all next seen post := by
  induction h with
  | nil => trivial
  | skip _ _ ih => exact ih
  | @visit seen rest pre post pre' post' n here new within after inner later =>
    have alone : n ∉ next n := fun self => acyclic n (.single self)
    have behind : Fed all next seen post := by
      refine inner.mono fun a ha y hy hseen => (mem_cons.mp hseen).resolve_left ?_
      rintro rfl
      obtain ⟨m, hm, path⟩ := within.exists_path (within.perm.mem_iff.mp ha)
      exact acyclic y (.head' hm (path.tail hy))
    have last : ∀ y ∈ next n, y ∈ all → y ∈ post.reverse ++ seen := by
      intro y hy hall
      have met := within.mem_of_mem_todo hy hall
      have other : y ≠ n := fun same => alone (same ▸ hy)
      rw [← within.perm.mem_iff] at met
      simp only [mem_cons, mem_append, mem_reverse] at met ⊢
      tauto
    refine behind.append ⟨last, later.mono fun a _ y _ hseen => ?_⟩
    rw [mem_append, mem_reverse, ← within.perm.mem_iff] at hseen
    simp only [mem_cons, mem_append, mem_reverse] at hseen ⊢
    tauto

end Search

/-! ## 3. Walks through graphs -/

/-- What a block reads from: its producers in the order of its inputs, then the entry of its
teleport. -/
def Block.origins (b : Block) : List BlockId :=
  (b.inputs.filterMap fun p => p.link.map SocketRef.block) ++ b.kind.teleportEntry.toList

namespace Graph

variable {g : Graph} {roots : List BlockId} {a b x : BlockId}

def origins (g : Graph) (x : BlockId) : List BlockId := (g.get? x).elim [] Block.origins

/-- A graph that calls make of the empty one, or that some material holds. -/
inductive Reachable : Graph → Prop
  | edited (edits : List Edit) : Reachable (ofEdits edits)
  | held {m : Material} : m.Reachable → Reachable m.graph

theorem Reachable.coherent (hg : g.Reachable) : g.Coherent := by
  cases hg with
  | edited edits => exact coherent_ofEdits edits
  | held hm => exact hm.wellFormed.graph.coherent

theorem Reachable.acyclic (hg : g.Reachable) : g.Acyclic := by
  cases hg with
  | edited edits => exact acyclic_ofEdits edits
  | held hm => exact hm.wellFormed.graph.acyclic

/-- No block reads from itself, so nothing is left out of what feeds a block. -/
theorem Acyclic.feeders_eq (hg : g.Acyclic) : g.feeders = g.origins := by
  funext x
  unfold feeders origins
  cases hb : g.get? x with
  | none => rfl
  | some b =>
    rw [elim_some, elim_some, Block.feeders, Block.origins,
      filter_eq_self.mpr]
    intro y hy
    obtain ⟨p, hp, hlink⟩ := mem_filterMap.mp hy
    obtain ⟨s, hs, rfl⟩ := map_eq_some_iff.mp hlink
    obtain ⟨i, hi⟩ := getElem?_of_mem hp
    have reads : g.Upstream x s.block := upstream_of_source? (r := ⟨x, i⟩)
      (source?_eq_some_iff.mpr ⟨p, input?_eq_some_iff.mpr ⟨b, hb, hi⟩, hs⟩)
    rw [bne_iff_ne, id_of_get? hb]
    intro self
    exact hg x (.single (self ▸ reads))

theorem Acyclic.of_feeders (hg : g.Acyclic) :
    ∀ x, ¬TransGen (fun a b => b ∈ g.feeders a) x x := by
  intro x path
  -- a path does not lead on from an entry that is gone
  have upstream : ∀ y ∈ g.ids, TransGen (fun a b => b ∈ g.feeders a) x y →
      TransGen g.Upstream x y := by
    intro y there path
    induction path with
    | single feeds => exact .single (upstream_of_mem_feeders feeds there)
    | tail _ feeds ih =>
      obtain ⟨c, hc⟩ := exists_get?_of_mem_feeders feeds
      exact (ih (mem_ids_iff.mpr ⟨c, hc⟩)).tail (upstream_of_mem_feeders feeds there)
  obtain ⟨y, feeds, -⟩ := TransGen.head'_iff.mp path
  obtain ⟨c, hc⟩ := exists_get?_of_mem_feeders feeds
  exact hg x (upstream x (mem_ids_iff.mpr ⟨c, hc⟩) path)

theorem perm_gatherFeedersFirst (g : Graph) (roots : List BlockId) :
    (g.gatherFeedersFirst roots).Perm (g.gather roots) :=
  (Search.Descent.iff_walks.mpr ⟨rfl, rfl⟩).perm

theorem Acyclic.fed_gatherFeedersFirst (hg : g.Acyclic) (roots : List BlockId) :
    Search.Fed g.ids g.feeders [] (g.gatherFeedersFirst roots) :=
  (Search.Descent.iff_walks.mpr ⟨rfl, rfl⟩).fed hg.of_feeders

/-- From any roots, repeated and unknown ones included, both walks list every block behind the roots
once and nothing else. They go depth first along the producers in the order of the inputs, with the
entry of a teleport last: one walk lists the blocks as they are entered, the other one as they are
left. The second one lists a block after everything that it reads from. -/
theorem walks_list_upstream (hg : g.Reachable) (roots : List BlockId) :
    (g.gather roots).Nodup ∧ (g.gatherFeedersFirst roots).Nodup ∧
    (∀ x, x ∈ g.gather roots ↔ x ∈ g.ids ∧ ∃ r ∈ roots, ReflTransGen g.Upstream r x) ∧
    (∀ x, x ∈ g.gatherFeedersFirst roots ↔
      x ∈ g.ids ∧ ∃ r ∈ roots, ReflTransGen g.Upstream r x) ∧
    (∀ pre post, Search.Descent g.ids g.origins [] roots pre post ↔
      pre = g.gather roots ∧ post = g.gatherFeedersFirst roots) ∧
    ∀ before a after, g.gatherFeedersFirst roots = before ++ a :: after →
      ∀ b, g.Upstream a b → b ∈ before := by
  have perm := g.perm_gatherFeedersFirst roots
  have distinct : (g.gather roots).Nodup := Search.nodup_preorder _ _ List.nodup_nil
  refine ⟨distinct, perm.nodup_iff.mpr distinct, fun x => mem_gather_iff,
    fun x => perm.mem_iff.trans mem_gather_iff, fun pre post => ?_, ?_⟩
  · rw [← hg.acyclic.feeders_eq]
    exact Search.Descent.iff_walks
  · intro before a after split b reads
    have apart : b ≠ a := by
      rintro rfl
      exact hg.acyclic b (.single reads)
    exact ((hg.acyclic.fed_gatherFeedersFirst roots).mem_before split
      (mem_feeders_of_upstream reads apart)
      (hg.coherent.mem_ids_of_upstream reads)).resolve_right List.not_mem_nil

/-- The exit of a teleport is read twice, and comes once, after the entry. -/
theorem relay_walks_list_upstream :
    let g := Material.relay.graph
    let roots : List BlockId := [⟨4⟩, ⟨9⟩, ⟨2⟩, ⟨4⟩]
    g.Reachable ∧ g.gather roots = [⟨4⟩, ⟨3⟩, ⟨2⟩, ⟨1⟩] ∧
      g.gatherFeedersFirst roots = [⟨1⟩, ⟨2⟩] ++ ⟨3⟩ :: [⟨4⟩] ∧ g.Upstream ⟨3⟩ ⟨2⟩ ∧
      (⟨2⟩ : BlockId) ∈ ([⟨1⟩, ⟨2⟩] : List BlockId) ∧
      (g.gather roots).Nodup ∧ (g.gatherFeedersFirst roots).Nodup ∧
      ∀ pre post, Search.Descent g.ids g.origins [] roots pre post ↔
        pre = g.gather roots ∧ post = g.gatherFeedersFirst roots := by
  intro g roots
  have reachable : g.Reachable := .held Material.crafted_relay.reachable
  obtain ⟨distinct, distinct', -, -, descent, fed⟩ := walks_list_upstream reachable roots
  have entered : g.gather roots = [⟨4⟩, ⟨3⟩, ⟨2⟩, ⟨1⟩] := by cbv
  have left : g.gatherFeedersFirst roots = [⟨1⟩, ⟨2⟩] ++ ⟨3⟩ :: [⟨4⟩] := by cbv
  have reads : g.Upstream ⟨3⟩ ⟨2⟩ := .inr ⟨rfl, by decide⟩
  exact ⟨reachable, entered, left, reads, fed _ _ _ left _ reads, distinct, distinct', descent⟩

end Graph

end ShaderGraph
