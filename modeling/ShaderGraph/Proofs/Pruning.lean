import Mathlib.Order.Bounds.Basic
import ShaderGraph.Proofs.Shaking
import ShaderGraph.Proofs.Walks

/-!
# What the outputs of a document rest on

A set of block numbers that holds the outputs of a document and, with every block of the document,
whatever that block refers to, is one that the document can do with (`Document.Sustained`). There is
a least such set, the numbers at the end of a path of references from an output
(`Document.isLeast_upstream`). It may hold numbers that no block has, since nothing asks for the
block that a teleport entry names.

Shaking leaves the blocks whose number is in the least set (`Document.shake_eq`). Since the least
set of what is left is the same one, there is nothing to shake off a second time
(`Document.shake_shake`).
-/

namespace ShaderGraph

open Relation List Option

theorem Json.word?_eq_some_iff {v : Json} {n : Nat} :
    v.word? = some n ↔ v = .integer n ∧ n < 2 ^ 32 := by
  constructor
  · intro h
    obtain ⟨i, within, rfl⟩ := map_eq_some_iff.mp h
    unfold integerWithin? at within
    split at within
    · rename_i j
      split at within
      · rename_i range
        obtain rfl := Option.some.inj within
        have limit : j ≤ (2 ^ 32 : Nat) - 1 := range.2
        rw [Int.toNat_of_nonneg range.1]
        exact ⟨rfl, by omega⟩
      · cases within
    · cases within
  · rintro ⟨rfl, small⟩
    exact word?_integer small

namespace Document

variable {d : Document} {b : BlockEntry} {a e : Nat} {s t : Set Nat}

/-- The set holds the outputs, and it is closed under the links of blocks and under the entries that
their settings give as a natural number below `2 ^ 32`. -/
structure Sustained (d : Document) (s : Set Nat) : Prop where
  outputs : ∀ a ∈ d.outputs, a ∈ s
  links : ∀ b ∈ d.blocks, b.id ∈ s → ∀ l ∈ b.links, l.target ∈ s
  entries : ∀ b ∈ d.blocks, b.id ∈ s → ∀ e < 2 ^ 32,
    Json.field? b.fields "entryPoint" = some (.integer (e : Nat)) → e ∈ s

theorem entryOf_eq_some_iff :
    entryOf b = some e ↔ e < 2 ^ 32 ∧ Json.field? b.fields "entryPoint" = some (.integer e) := by
  show (Json.field? b.fields "entryPoint").bind Json.word? = some e ↔ _
  rw [bind_eq_some_iff]
  constructor
  · rintro ⟨v, field, word⟩
    obtain ⟨rfl, small⟩ := Json.word?_eq_some_iff.mp word
    exact ⟨small, field⟩
  · rintro ⟨small, field⟩
    exact ⟨_, field, Json.word?_eq_some_iff.mpr ⟨rfl, small⟩⟩

/-! ## 1. The least set -/

theorem Sustained.feeder (h : d.Sustained s) (ha : a ∈ s) (he : e ∈ d.feeders a) : e ∈ s := by
  unfold feeders at he
  split at he
  · exact absurd he not_mem_nil
  · rename_i b found
    have hb := mem_of_find?_eq_some found
    have same : b.id = a := by simpa using find?_some found
    subst same
    rcases mem_append.mp he with link | entry
    · obtain ⟨l, hl, rfl⟩ := mem_map.mp link
      exact h.links b hb ha l hl
    · obtain ⟨small, field⟩ := entryOf_eq_some_iff.mp (mem_toList.mp entry)
      exact h.entries b hb ha e small field

/-- The numbers to which references lead from the outputs. -/
def upstream (d : Document) : Set Nat :=
  {a | ∃ o ∈ d.outputs, ReflTransGen (fun a e => e ∈ d.feeders a) o a}

theorem isLeast_upstream (hd : d.Referring) : IsLeast {s | d.Sustained s} d.upstream := by
  constructor
  · have onward {a e : Nat} (ha : a ∈ d.upstream) (he : e ∈ d.feeders a) : e ∈ d.upstream := by
      obtain ⟨o, ho, path⟩ := ha
      exact ⟨o, ho, path.tail he⟩
    refine ⟨fun a ha => ⟨a, ha, .refl⟩, fun b hb kept l hl => onward kept ?_,
      fun b hb kept e small field => onward kept ?_⟩
    · rw [hd.feeders_eq hb]
      exact mem_append_left _ (mem_map_of_mem hl)
    · rw [hd.feeders_eq hb, entryOf_eq_some_iff.mpr ⟨small, field⟩]
      exact mem_append_right _ mem_cons_self
  · rintro s hs a ⟨o, ho, path⟩
    induction path with
    | refl => exact hs.outputs o ho
    | tail _ he ih => exact hs.feeder ih he

/-! ## 2. The search -/

theorem upstream_of_mem_reached (h : a ∈ d.reached) : a ∈ d.upstream := by
  obtain ⟨pre, post, descent⟩ := Search.Descent.exists_descent d.ids d.feeders [] d.outputs
  unfold reached at h
  rw [descent.preorder_eq, reverse_nil, nil_append] at h
  exact descent.exists_path h

/-- The search finds all blocks upstream: the numbers that it finds, together with those of no
block, are a set that the document can do with. -/
theorem mem_reached_of_upstream (hd : d.Referring) (h : a ∈ d.upstream) (here : a ∈ d.ids) :
    a ∈ d.reached := by
  have sustained : d.Sustained {a | a ∈ d.ids → a ∈ d.reached} :=
    { outputs := fun a ha _ => mem_reached_of_mem_outputs hd ha
      links := fun b hb kept l hl _ =>
        hd.target_reached hb (kept (mem_map_of_mem hb)) hl
      entries := fun b hb kept e small field there =>
        hd.entry_reached hb (kept (mem_map_of_mem hb))
          (entryOf_eq_some_iff.mpr ⟨small, field⟩) there }
  exact (isLeast_upstream hd).2 sustained h here

open Classical in
/-- Shaking leaves the blocks upstream, in their order. -/
theorem shake_eq (hd : d.Referring) (h : IsLeast {t | d.Sustained t} s) :
    d.shake = { d with blocks := d.blocks.filter fun b => b.id ∈ s } := by
  obtain rfl : s = d.upstream := h.unique (isLeast_upstream hd)
  have same : d.shake.blocks = d.blocks.filter fun b => b.id ∈ d.upstream := by
    refine filter_congr fun b hb => decide_eq_decide.mpr ⟨upstream_of_mem_reached, fun h => ?_⟩
    exact mem_reached_of_upstream hd h (mem_map_of_mem hb)
  rw [← same]
  rfl

/-- What is left rests on the same blocks. -/
theorem upstream_shake (hd : d.Referring) : d.shake.upstream = d.upstream := by
  have least := isLeast_upstream hd
  have least' := isLeast_upstream hd.shake
  have sub : d.shake.upstream ⊆ d.upstream := least'.2
    { outputs := least.1.outputs
      links := fun b hb => least.1.links b (mem_blocks_shake.mp hb).1
      entries := fun b hb => least.1.entries b (mem_blocks_shake.mp hb).1 }
  have left {b : BlockEntry} (hb : b ∈ d.blocks) (h : b.id ∈ d.shake.upstream) :
      b ∈ d.shake.blocks :=
    mem_blocks_shake.mpr ⟨hb, mem_reached_of_upstream hd (sub h) (mem_map_of_mem hb)⟩
  refine sub.antisymm (least.2 ?_)
  exact
    { outputs := least'.1.outputs
      links := fun b hb h => least'.1.links b (left hb h) h
      entries := fun b hb h => least'.1.entries b (left hb h) h }

theorem shake_shake (hd : d.Referring) : d.shake.shake = d.shake := by
  have least := isLeast_upstream hd
  rw [shake_eq hd.shake (upstream_shake hd ▸ isLeast_upstream hd.shake), shake_eq hd least]
  simp

open Classical in
/-- Of a document whose references are right, shaking leaves the blocks of the least set of numbers
that holds the outputs and is closed under links and teleport entries. The blocks stay as they are
and in their order, nothing else of the document changes, its references are still right, and all
that is left would be left again. -/
theorem shake_leaves_least (h : d.fault? = none) :
    ∃ s : Set Nat, IsLeast {t | d.Sustained t} s ∧
      d.shake = { d with blocks := d.blocks.filter fun b => b.id ∈ s } ∧
      d.shake.fault? = none ∧ d.shake.shake = d.shake := by
  have hd := fault?_eq_none_iff.mp h
  have least := isLeast_upstream hd
  exact ⟨d.upstream, least, shake_eq hd least, fault?_eq_none_iff.mpr hd.shake, shake_shake hd⟩

/-- Two blocks that feed each other, a teleport with its entry, one whose entry is not there, and a
block that reads from the first and that nothing reads from. -/
def tangled : Document where
  name := "tangled"
  blocks :=
    [{ id := 5, tag := "AddBlock", name := "loose", links := [⟨"left", 1, "output"⟩] },
      { id := 1, tag := "AddBlock", name := "first", links := [⟨"left", 2, "output"⟩] },
      { id := 2, tag := "AddBlock", name := "second",
        links := [⟨"left", 1, "output"⟩, ⟨"right", 6, "output"⟩] },
      { id := 3, tag := "TeleportOutBlock", name := "far", fields := [("entryPoint", .integer 4)] },
      { id := 4, tag := "TeleportInBlock", name := "near", links := [⟨"input", 1, "output"⟩] },
      { id := 6, tag := "TeleportOutBlock", name := "lost",
        fields := [("entryPoint", .integer 99)] }]
  outputs := [3]

open Classical in
theorem tangled_shake_leaves_least :
    tangled.fault? = none ∧ ∃ s : Set Nat, IsLeast {t | tangled.Sustained t} s ∧
      tangled.shake = { tangled with blocks := tangled.blocks.filter fun b => b.id ∈ s } ∧
      tangled.shake.fault? = none ∧ tangled.shake.shake = tangled.shake :=
  ⟨by decide, shake_leaves_least (by decide)⟩

end Document

end ShaderGraph
