import Mathlib.Data.List.Chain
import ShaderGraph.Proofs.Rendering

/-!
# Code does not depend on the pieces in which it is written

Text that is pushed is joined to the text before it, in whichever list is written to. So no list of
segments, at any depth, has an empty text or two texts side by side (`CodeBuffer.joined_perform`),
and pieces that are pushed one after another leave the buffer that their concatenation leaves
(`CodeBuffer.foldl_push`).
-/

namespace ShaderGraph

open List

namespace Segment

variable {x : Segment} {xs : List Segment}

def isText : Segment → Bool
  | .text _ => true
  | _ => false

/-- The lists of segments that stand in a list: itself and the branches of the regions in it. -/
inductive Within : List Segment → List Segment → Prop
  | whole {xs : List Segment} : Within xs xs
  | body {c : Condition} {xs body otherwise ys : List Segment} :
      .conditional c body otherwise ∈ xs → Within body ys → Within xs ys
  | otherwise {c : Condition} {xs body otherwise ys : List Segment} :
      .conditional c body otherwise ∈ xs → Within otherwise ys → Within xs ys

/-- No text is empty, and no two texts stand side by side. -/
def IsJoined (xs : List Segment) : Prop :=
  .text "" ∉ xs ∧ xs.IsChain fun x y => ¬(x.isText = true ∧ y.isText = true)

/-- Texts are joined in a list and at every depth below it. -/
def Joined (xs : List Segment) : Prop := ∀ ys, Within xs ys → IsJoined ys

theorem joined_iff : Joined xs ↔ IsJoined xs ∧
    ∀ c body otherwise, .conditional c body otherwise ∈ xs → Joined body ∧ Joined otherwise := by
  constructor
  · intro h
    exact ⟨h _ .whole, fun _ _ _ hx =>
      ⟨fun _ hy => h _ (.body hx hy), fun _ hy => h _ (.otherwise hx hy)⟩⟩
  · rintro ⟨h, below⟩ ys (_ | ⟨hx, hy⟩ | ⟨hx, hy⟩)
    · exact h
    · exact (below _ _ _ hx).1 _ hy
    · exact (below _ _ _ hx).2 _ hy

theorem joined_nil : Joined [] := joined_iff.mpr ⟨⟨nofun, .nil⟩, nofun⟩

theorem joined_concat : Joined (xs ++ [x]) ↔ Joined xs ∧ x ≠ .text "" ∧
    (∀ c body otherwise, x = .conditional c body otherwise → Joined body ∧ Joined otherwise) ∧
    ∀ y ∈ xs.getLast?, ¬(y.isText = true ∧ x.isText = true) := by
  rw [joined_iff, @joined_iff xs, IsJoined, IsJoined, isChain_append]
  simp only [mem_append, mem_singleton, head?_cons, Option.mem_some_iff, isChain_singleton]
  grind

/-- Text goes behind a text that stands last, or becomes a segment of its own. -/
theorem go_eq (s : String) (xs : List Segment) :
    (∃ ys t, xs = ys ++ [.text t] ∧ pushText.go s xs = ys ++ [.text (t ++ s)]) ∨
      (∀ x ∈ xs.getLast?, x.isText = false) ∧ pushText.go s xs = xs ++ [.text s] := by
  fun_induction pushText.go s xs with
  | case1 => exact .inr ⟨by simp, rfl⟩
  | case2 t => exact .inl ⟨[], t, rfl, rfl⟩
  | case3 x rest other ih =>
    rcases ih with ⟨ys, t, rfl, pushed⟩ | ⟨last, pushed⟩
    · exact .inl ⟨x :: ys, t, rfl, by rw [pushed]; rfl⟩
    · refine .inr ⟨?_, by rw [pushed]; rfl⟩
      cases rest with
      | nil => cases x <;> simp_all [isText]
      | cons y rest => rwa [getLast?_cons_cons]

theorem joined_pushText (s : String) (h : Joined xs) : Joined (pushText s xs) := by
  unfold pushText
  split
  · exact h
  · rename_i nonempty
    rw [String.isEmpty_iff] at nonempty
    rcases go_eq s xs with ⟨ys, t, rfl, pushed⟩ | ⟨last, pushed⟩
    · obtain ⟨hys, -, -, last⟩ := joined_concat.mp h
      rw [pushed, joined_concat]
      exact ⟨hys, by simp [nonempty], nofun, last⟩
    · rw [pushed, joined_concat]
      exact ⟨h, by simp [nonempty], nofun, fun x hx => by simp [last x hx]⟩

theorem go_concat (s t : String) (xs : List Segment) :
    pushText.go s (xs ++ [.text t]) = xs ++ [.text (t ++ s)] := by
  rcases go_eq s (xs ++ [.text t]) with ⟨ys, u, same, pushed⟩ | ⟨last, -⟩
  · simp_all
  · simp [isText] at last

/-- Texts that are pushed one after the other are joined. -/
theorem pushText_pushText (s t : String) (xs : List Segment) :
    pushText t (pushText s xs) = pushText (s ++ t) xs := by
  by_cases hs : s = ""
  · simp [pushText, hs]
  by_cases ht : t = ""
  · simp [pushText, ht]
  simp only [pushText, String.isEmpty_iff, String.append_eq_empty_iff, hs, ht, and_self, if_false]
  rcases go_eq s xs with ⟨ys, u, rfl, pushed⟩ | ⟨last, pushed⟩
  · rw [pushed, go_concat, go_concat, String.append_assoc]
  · rw [pushed, go_concat]
    rcases go_eq (s ++ t) xs with ⟨ys, u, rfl, -⟩ | ⟨-, pushed⟩
    · simp [isText] at last
    · exact pushed.symm

end Segment

namespace CodeBuffer

open Segment (Joined IsJoined Within joined_nil joined_concat joined_pushText)

variable {b : CodeBuffer} {x : Segment}

/-- The lists that a buffer holds: the finished code and the branches of the open regions. -/
def lists (b : CodeBuffer) : List (List Segment) :=
  b.root :: b.regions.flatMap fun r => [r.body, r.otherwise]

theorem joined_modifyCurrent {f : List Segment → List Segment}
    (hf : ∀ xs, Joined xs → Joined (f xs)) (h : ∀ xs ∈ b.lists, Joined xs) :
    ∀ xs ∈ (b.modifyCurrent f).lists, Joined xs := by
  obtain ⟨root, regions⟩ := b
  match regions with
  | [] | ⟨_, _, _, true⟩ :: _ | ⟨_, _, _, false⟩ :: _ =>
    simp only [modifyCurrent, lists, forall_mem_cons, forall_mem_flatMap] at h ⊢
    grind

theorem joined_pushSegment (other : x.isText = false) (below : ∀ c body otherwise,
    x = .conditional c body otherwise → Joined body ∧ Joined otherwise)
    (h : ∀ xs ∈ b.lists, Joined xs) : ∀ xs ∈ (b.pushSegment x).lists, Joined xs := by
  refine joined_modifyCurrent (fun xs hxs => joined_concat.mpr ⟨hxs, ?_, below, ?_⟩) h
  · rintro rfl
    cases other
  · simp [other]

/-- An operation keeps the texts joined, also one that is refused. -/
theorem joined_perform (op : CodeOp) (h : ∀ xs ∈ b.lists, Joined xs) :
    ∀ xs ∈ (b.perform op).lists, Joined xs := by
  obtain ⟨root, regions⟩ := b
  cases op with
  | push s | assign target value => exact joined_modifyCurrent (fun _ => joined_pushText _) h
  | anchor id => exact joined_pushSegment rfl nofun h
  | beginIf c =>
    obtain ⟨hroot, hregions⟩ := forall_mem_cons.mp h
    exact forall_mem_cons.mpr ⟨hroot, forall_mem_cons.mpr ⟨joined_nil,
      forall_mem_cons.mpr ⟨joined_nil, hregions⟩⟩⟩
  | beginElse =>
    match regions with
    | [] | ⟨_, _, _, true⟩ :: _ | ⟨_, _, _, false⟩ :: _ => exact h
  | endIf =>
    cases regions with
    | nil => exact h
    | cons r outer =>
      simp only [lists, flatMap_cons, cons_append, nil_append, forall_mem_cons] at h
      obtain ⟨hroot, hbody, hother, houter⟩ := h
      refine joined_pushSegment (b := ⟨root, outer⟩) rfl ?_ (forall_mem_cons.mpr ⟨hroot, houter⟩)
      rintro _ _ _ ⟨⟩
      exact ⟨hbody, hother⟩

theorem joined_run (ops : List CodeOp) (h : ∀ xs ∈ b.lists, Joined xs) :
    ∀ xs ∈ (ops.foldl perform b).lists, Joined xs := by
  induction ops generalizing b with
  | nil => exact h
  | cons op ops ih => exact ih (joined_perform op h)

theorem modifyCurrent_modifyCurrent (b : CodeBuffer) (f g : List Segment → List Segment) :
    (b.modifyCurrent f).modifyCurrent g = b.modifyCurrent (g ∘ f) := by
  obtain ⟨root, regions⟩ := b
  match regions with
  | [] | ⟨_, _, _, true⟩ :: _ | ⟨_, _, _, false⟩ :: _ => rfl

/-- Pieces of text leave what their concatenation leaves. -/
theorem foldl_push (pieces : List String) (b : CodeBuffer) :
    (pieces.map .push).foldl perform b = b.pushText (String.join pieces) := by
  induction pieces generalizing b with
  | nil =>
    obtain ⟨root, regions⟩ := b
    match regions with
    | [] | ⟨_, _, _, true⟩ :: _ | ⟨_, _, _, false⟩ :: _ => rfl
  | cons s rest ih =>
    have joined : Segment.pushText (String.join rest) ∘ Segment.pushText s =
        Segment.pushText (String.join (s :: rest)) :=
      funext fun xs => by simp [Segment.pushText_pushText]
    rw [map_cons, foldl_cons, ih]
    exact (modifyCurrent_modifyCurrent b _ _).trans (congrArg _ joined)

/-- Whatever operations were made, refused ones among them, no list of segments has an empty text or
two texts side by side: not the finished code, not the branches of the regions that are still open,
and no branch of a region at any depth in them. Text that is pushed in pieces leaves the same buffer
as the text pushed at once. -/
theorem segments_joined (ops : List CodeOp) :
    (∀ xs ∈ (ofOps ops).lists, ∀ ys, Within xs ys → IsJoined ys) ∧
      (∀ code, (ofOps ops).segments = .ok code → ∀ ys, Within code ys → IsJoined ys) ∧
      ∀ before pieces after, ofOps (before ++ pieces.map .push ++ after) =
        ofOps (before ++ .push (String.join pieces) :: after) := by
  have joined : ∀ xs ∈ (ofOps ops).lists, Joined xs :=
    joined_run ops (by simp [lists, joined_nil])
  refine ⟨joined, fun code finished => ?_, fun before pieces after => ?_⟩
  · have root : (ofOps ops).root = code := by
      unfold segments at finished
      split at finished
      · exact Except.ok.inj finished
      · cases finished
    exact root ▸ joined _ mem_cons_self
  · unfold ofOps
    rw [foldl_append, foldl_append, foldl_append, foldl_push, foldl_cons]
    rfl

end CodeBuffer

end ShaderGraph
