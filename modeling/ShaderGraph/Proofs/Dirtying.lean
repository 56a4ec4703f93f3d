import Mathlib.Data.List.Induction
import ShaderGraph.Define.Set

/-!
# What makes a define set dirty

A check of a draw target is cut short where its define set is not dirty. The set keeps one flag for
each category and one for the whole. This module follows them through the operations that may come
between two looks at the set (`DefineSet.Op`): a category is dirty exactly if an operation touched
it (`Op.Touches`), and nothing but a touch or an explicit wish for another look makes the set dirty
(`DefineSet.dirty_iff_touched`).
-/

namespace ShaderGraph.DefineSet

open List

/-- What may be done to a define set between two looks at it. -/
inductive Op where
  | put (name : String) (v : DefineValue) (c : DefineCategory)
  | markDirty (c : DefineCategory)
  | markAllDirty
  | markLightsDisposed
  | markUnprocessed
deriving DecidableEq

namespace Op

def apply : Op → DefineSet → DefineSet
  | .put name v c, d => d.put name v c
  | .markDirty c, d => d.markDirty c
  | .markAllDirty, d => d.markAllDirty
  | .markLightsDisposed, d => d.markLightsDisposed
  | .markUnprocessed, d => d.markUnprocessed

/-- The operation marks the category, or gives a define of the category a value that it does not
have in `d`. -/
def Touches (d : DefineSet) (c : DefineCategory) : Op → Prop
  | .put name v c' => c' = c ∧ d.get? name ≠ some v
  | .markDirty c' => c' = c
  | .markAllDirty => True
  | .markLightsDisposed => c = .lights
  | .markUnprocessed => False

end Op

def applyAll (ops : List Op) (d : DefineSet) : DefineSet := ops.foldl (fun d op => op.apply d) d

theorem applyAll_concat (ops : List Op) (op : Op) (d : DefineSet) :
    applyAll (ops ++ [op]) d = op.apply (applyAll ops d) := by
  simp only [applyAll, foldl_append, foldl_cons, foldl_nil]

section Step

variable (op : Op) (d : DefineSet)

/-- An operation makes the categories dirty that it touches, and cleans none. -/
theorem contains_dirty_apply (c : DefineCategory) :
    (op.apply d).dirty.contains c = true ↔ d.dirty.contains c = true ∨ op.Touches d c := by
  have mark (d : DefineSet) (c' : DefineCategory) :
      (d.markDirty c').dirty.contains c = true ↔ d.dirty.contains c = true ∨ c' = c := by
    simp [markDirty, DirtyFlags.contains_set, or_comm]
  cases op with
  | put name v c' =>
    by_cases new : d.get? name = some v
    · simp [Op.apply, Op.Touches, put, changes, new]
    · simpa [Op.apply, Op.Touches, put, changes, new, setQuiet] using mark (d.setQuiet name v) c'
  | markDirty c' => exact mark d c'
  | markAllDirty => cases c <;> simp [Op.apply, Op.Touches, markAllDirty, DirtyFlags.all,
      DirtyFlags.contains]
  | markLightsDisposed =>
    rw [Op.Touches, eq_comm (a := c)]
    exact mark { d with lightsDisposed := true } .lights
  | markUnprocessed => simp [Op.apply, Op.Touches, markUnprocessed]

/-- An operation that touches something, or asks for another look, makes the set dirty. Any other
one changes nothing at all. -/
theorem isDirty_apply :
    (op.apply d).isDirty = true ∧ ((∃ c, op.Touches d c) ∨ op = .markUnprocessed) ∨
      op.apply d = d ∧ ¬(∃ c, op.Touches d c) ∧ op ≠ .markUnprocessed := by
  cases op with
  | put name v c =>
    by_cases new : d.get? name = some v
    · simp [Op.apply, Op.Touches, put, changes, new]
    · simp [Op.apply, Op.Touches, put, changes, new, markDirty]
  | markDirty c => exact .inl ⟨rfl, .inl ⟨c, rfl⟩⟩
  | markAllDirty => exact .inl ⟨rfl, .inl ⟨.misc, trivial⟩⟩
  | markLightsDisposed => exact .inl ⟨rfl, .inl ⟨.lights, rfl⟩⟩
  | markUnprocessed => exact .inl ⟨rfl, .inr rfl⟩

theorem lightsDisposed_apply (h : (op.apply d).lightsDisposed = true) :
    d.lightsDisposed = true ∨ op.Touches d .lights := by
  cases op with
  | put name v c =>
    refine .inl ?_
    rw [Op.apply, put] at h
    split at h <;> exact h
  | markLightsDisposed => exact .inr rfl
  | _ => exact .inl h

end Step

/-- How the record of changes stands to the operations since the set was last processed, when it
held `values`. -/
structure Tracked (values : List (String × DefineValue)) (ops : List Op) (d : DefineSet) :
    Prop where
  overall : d.isDirty = true ↔ (∃ c, d.dirty.contains c = true) ∨ .markUnprocessed ∈ ops
  lights : d.lightsDisposed = true → d.dirty.contains .lights = true
  values : d.isDirty = false → d.values = values

theorem Tracked.step {values : List (String × DefineValue)} {ops : List Op} {d : DefineSet}
    (h : Tracked values ops d) (op : Op) : Tracked values (ops ++ [op]) (op.apply d) := by
  have lights (hl : (op.apply d).lightsDisposed = true) :
      (op.apply d).dirty.contains .lights = true :=
    (contains_dirty_apply op d .lights).mpr ((lightsDisposed_apply op d hl).imp_left h.lights)
  rcases isDirty_apply op d with ⟨dirty, cause⟩ | ⟨same, untouched, other⟩
  · refine ⟨iff_of_true dirty ?_, lights, fun clean => by rw [dirty] at clean; cases clean⟩
    rcases cause with ⟨c, touched⟩ | rfl
    · exact .inl ⟨c, (contains_dirty_apply op d c).mpr (.inr touched)⟩
    · exact .inr (mem_append_right _ mem_cons_self)
  · refine ⟨?_, lights, by rw [same]; exact h.values⟩
    rw [same, h.overall, mem_append, mem_singleton, or_iff_left (Ne.symm other)]

theorem tracked_applyAll (d : DefineSet) (ops : List Op) :
    Tracked d.values ops (applyAll ops d.markProcessed) := by
  induction ops using reverseRecOn with
  | nil =>
    refine ⟨?_, nofun, fun _ => rfl⟩
    have clean (c : DefineCategory) : DirtyFlags.none.contains c = false := by cases c <;> rfl
    simp [applyAll, markProcessed, clean]
  | append_singleton ops op ih =>
    rw [applyAll_concat]
    exact ih.step op

theorem contains_dirty_applyAll (d : DefineSet) (ops : List Op) (c : DefineCategory) :
    (applyAll ops d.markProcessed).dirty.contains c = true ↔ ∃ before op after,
      ops = before ++ op :: after ∧ op.Touches (applyAll before d.markProcessed) c := by
  induction ops using reverseRecOn with
  | nil => cases c <;> simp [applyAll, markProcessed, DirtyFlags.none, DirtyFlags.contains]
  | append_singleton ops last ih =>
    rw [applyAll_concat, contains_dirty_apply, ih]
    constructor
    · rintro (⟨before, op, after, rfl, touched⟩ | touched)
      · exact ⟨before, op, after ++ [last], by simp, touched⟩
      · exact ⟨ops, last, [], rfl, touched⟩
    · rintro ⟨before, op, after, all, touched⟩
      rcases eq_nil_or_concat after with rfl | ⟨front, x, rfl⟩
      · obtain ⟨rfl, rfl⟩ := append_singleton_inj.mp all
        exact .inr touched
      · rw [concat_eq_append, ← cons_append, ← append_assoc] at all
        obtain ⟨rfl, rfl⟩ := append_singleton_inj.mp all
        exact .inl ⟨before, op, front, rfl, touched⟩

/-- Since the set was last processed, a category became dirty exactly if an operation touched it,
and the set exactly if a category did or another look was asked for. Disposed lights are dirty. A
set that is not dirty has the values, and so the signature, that it had. -/
theorem dirty_iff_touched (d : DefineSet) (ops : List Op) :
    let now := applyAll ops d.markProcessed
    (∀ c, now.dirty.contains c = true ↔ ∃ before op after, ops = before ++ op :: after ∧
        op.Touches (applyAll before d.markProcessed) c) ∧
      (now.isDirty = true ↔ (∃ c, now.dirty.contains c = true) ∨ .markUnprocessed ∈ ops) ∧
      (now.lightsDisposed = true → now.dirty.contains .lights = true) ∧
      (now.isDirty = false → now.values = d.values ∧ now.signature = d.signature) := by
  obtain ⟨overall, lights, values⟩ := tracked_applyAll d ops
  refine ⟨contains_dirty_applyAll d ops, overall, lights, fun clean => ⟨values clean, ?_⟩⟩
  rw [signature, signature, values clean]

end ShaderGraph.DefineSet
