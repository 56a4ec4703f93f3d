import ShaderGraph.Proofs.Bounds
import ShaderGraph.Proofs.Leftovers

/-!
# Graphs that are the same up to identities

A block mirrors another one if the two look alike to the blocks around them and to a pass: the same
name, kind, sockets and symbols, with links that lead to the blocks that stand for the ones at the
other end (`Block.Mirrors`). Where its block comes in the list, who else hears from its outputs and
what passes left that is never read do not matter.

In graphs that mirror each other the same types are found (`Graph.Mirrors.outputType`), and the same
blocks are behind a block (`Graph.Mirrors.feeders`, `Graph.Mirrors.mem_gather_iff`).
-/

namespace ShaderGraph

open Relation List Option

/-! ## 1. Other identities -/

variable {f : BlockId → BlockId}

def SocketRef.relabel (f : BlockId → BlockId) (r : SocketRef) : SocketRef := ⟨f r.block, r.index⟩

def InputSocket.relabel (f : BlockId → BlockId) (p : InputSocket) : InputSocket :=
  { p with link := p.link.map (SocketRef.relabel f) }

theorem InputSocket.relabel_id : InputSocket.relabel id = id := by
  funext p
  cases p with
  | mk spec link => cases link <;> rfl

/-- What the block of an output sees of it. -/
def OutputSocket.view (p : OutputSocket) : SocketSpec × String × Bool :=
  (p.spec, p.symbol, p.isConnected)

def Roster.relabel (f : BlockId → BlockId) (r : Roster) : Roster :=
  ⟨r.entries.map fun e => (e.1, f e.2)⟩

def Ledger.relabel (f : BlockId → BlockId) (l : Ledger) : Ledger :=
  { l with roster := l.roster.relabel f }

theorem Roster.enter_relabel (hf : f.Injective) (r : Roster) (role : Role) (id : BlockId) :
    (r.relabel f).enter role (f id) = (r.enter role id).relabel f := by
  have same : (r.relabel f).entries.contains (role, f id) = r.entries.contains (role, id) := by
    rw [Bool.eq_iff_iff, List.contains_iff_mem, List.contains_iff_mem, relabel, List.mem_map]
    constructor
    · rintro ⟨⟨role', id'⟩, he, heq⟩
      obtain ⟨rfl, hid⟩ := Prod.mk.inj heq
      rwa [← hf hid]
    · exact fun he => ⟨_, he, rfl⟩
  unfold enter
  rw [same]
  split
  · rfl
  · simp [relabel]

theorem Ledger.enter_relabel (hf : f.Injective) (l : Ledger) (role : Role) (id : BlockId) :
    (l.relabel f).enter role (f id) = (l.enter role id).relabel f :=
  congrArg (fun roster => ({ l with roster } : Ledger)) (l.roster.enter_relabel hf role id)

/-! ## 2. Kinds and blocks -/

/-- Two kinds that do the same in a pass, with entries of teleports that stand for each other. -/
inductive Kind.Mirrors (f : BlockId → BlockId) : Kind → Kind → Prop
  | input (b : InputBlock) : Mirrors f (.input b) (.input b)
  | transform (t : Transform) : Mirrors f (.transform t) (.transform t)
  | vertexOutput : Mirrors f .vertexOutput .vertexOutput
  | fragmentOutput (o o' : FragmentOutput) : Mirrors f (.fragmentOutput o) (.fragmentOutput o')
  | math (op : MathOp) : Mirrors f (.math op) (.math op)
  | clamp (c : Clamp) : Mirrors f (.clamp c) (.clamp c)
  | lerp : Mirrors f .lerp .lerp
  | vectorMerger : Mirrors f .vectorMerger .vectorMerger
  | texture (t t' : TextureBlock) : Mirrors f (.texture t) (.texture t')
  | morphTargets (m m' : MorphBlock) : Mirrors f (.morphTargets m) (.morphTargets m')
  | bones (b b' : BonesBlock) : Mirrors f (.bones b) (.bones b')
  | fog (b b' : FogBlock) : Mirrors f (.fog b) (.fog b')
  | teleportIn : Mirrors f .teleportIn .teleportIn
  | teleportOut {t t' : TeleportOut} : t'.entry = t.entry.map f →
      Mirrors f (.teleportOut t) (.teleportOut t')

namespace Kind.Mirrors

variable {k k' : Kind}

theorem refl_bare (k : Kind) : k.bare.Mirrors id k.bare := by
  cases k with
  | teleportOut t => exact .teleportOut (by simp)
  | _ => constructor

theorem bare_of_uniform (b : InputBlock) (h : b.uniformName = "") :
    (Kind.input b).bare = .input b := by
  cases b
  cases h
  rfl

/-- Uniforms are the one leftover that is read. -/
theorem of_bare (h : k.bare.Mirrors f k'.bare) (hk : k.uniform = "") (hk' : k'.uniform = "") :
    k.Mirrors f k' := by
  cases k with
  | input b =>
    rw [bare_of_uniform b hk] at h
    cases k' with
    | input b' => rwa [bare_of_uniform b' hk'] at h
    | _ => cases h
  | transform | math | clamp | teleportOut => cases k' <;> first | exact h | cases h
  | _ => cases k' <;> first | constructor | cases h

variable (h : k.Mirrors f k')
include h

theorem className : k'.className = k.className := by cases h <;> rfl

theorem target : k'.target = k.target := by cases h <;> rfl

theorem isUnique : k'.isUnique = k.isUnique := by cases h <;> rfl

theorem isInput : k'.isInput = k.isInput := by cases h <;> rfl

theorem isAttribute : k'.isAttribute = k.isAttribute := by cases h <;> rfl

theorem isFinal : k'.isFinal = k.isFinal := by cases h <;> rfl

theorem teleportEntry : k'.teleportEntry = k.teleportEntry.map f := by
  cases h with
  | teleportOut same => exact same
  | _ => rfl

theorem resolveOutput (types : List ValueType) :
    k'.resolveOutput types = k.resolveOutput types := by
  cases h <;> rfl

end Kind.Mirrors

/-- Two blocks that a pass cannot tell apart. -/
structure Block.Mirrors (f : BlockId → BlockId) (b b' : Block) : Prop where
  id : b'.id = f b.id
  name : b'.name = b.name
  kind : b.kind.Mirrors f b'.kind
  inputs : b'.inputs = b.inputs.map (InputSocket.relabel f)
  outputs : b'.outputs.map OutputSocket.view = b.outputs.map OutputSocket.view

theorem mirrors_bare (b : Block) : b.bare.Mirrors id b.bare where
  id := rfl
  name := rfl
  kind := .refl_bare b.kind
  inputs := by rw [InputSocket.relabel_id, List.map_id]
  outputs := rfl

namespace Block.Mirrors

variable {b b' : Block}

theorem of_bare (h : b.bare.Mirrors f b'.bare) (hb : b.Fresh) (hb' : b'.Fresh) :
    b.Mirrors f b' where
  id := h.id
  name := h.name
  kind := h.kind.of_bare hb.kind hb'.kind
  inputs := by
    have inputs : b'.inputs.map InputSocket.reset =
      (b.inputs.map InputSocket.reset).map (InputSocket.relabel f) := h.inputs
    rwa [hb.inputs, hb'.inputs] at inputs
  outputs := by
    have outputs : (b'.outputs.map OutputSocket.reset).map OutputSocket.view =
      (b.outputs.map OutputSocket.reset).map OutputSocket.view := h.outputs
    rwa [hb.outputs, hb'.outputs] at outputs

variable (h : b.Mirrors f b')
include h

theorem className : b'.className = b.className := h.kind.className

theorem target : b'.target = b.target := h.kind.target

theorem feeders (hf : f.Injective) : b'.feeders = b.feeders.map f := by
  have links : (b'.inputs.filterMap fun p => p.link.map SocketRef.block) =
      (b.inputs.filterMap fun p => p.link.map SocketRef.block).map f := by
    rw [h.inputs, List.filterMap_map, List.map_filterMap]
    refine congrArg (fun g => List.filterMap g b.inputs) ?_
    funext p
    cases p with
    | mk spec link symbol enforced => cases link <;> rfl
  have others : ∀ xs : List BlockId, (xs.map f).filter (· != f b.id) =
      (xs.filter (· != b.id)).map f := by
    intro xs
    rw [List.filter_map]
    refine congrArg (fun test => List.map f (List.filter test xs)) ?_
    funext x
    rw [Bool.eq_iff_iff]
    simp [hf.eq_iff]
  rw [Block.feeders, Block.feeders, links, h.id, others, h.kind.teleportEntry, List.map_append]
  cases b.kind.teleportEntry <;> rfl

end Block.Mirrors

/-! ## 3. Graphs -/

namespace Graph

variable {S : BlockId → Prop} {g g' : Graph} {x : BlockId} {b : Block}

/-- The blocks of `S` are mirrored in another graph of the same size, and so is what is not
there. -/
structure Mirrors (f : BlockId → BlockId) (S : BlockId → Prop) (g g' : Graph) : Prop where
  blocks : ∀ x, S x → Option.Rel (Block.Mirrors f) (g.get? x) (g'.get? (f x))
  length : g'.blocks.length = g.blocks.length
  absent : ∀ x, x ∉ g.ids → S x

namespace Mirrors

theorem of_bare_eq (h : g'.bare = g.bare) : g.bare.Mirrors id (fun _ => True) g'.bare where
  blocks x _ := by
    rw [h, id, get?_bare]
    cases g.get? x with
    | none => exact .none
    | some b => exact .some (mirrors_bare b)
  length := congrArg (fun g : Graph => g.blocks.length) h
  absent _ _ := trivial

/-- Where the blocks of `S` are fresh, leftovers do not matter. -/
theorem of_bare (h : g.bare.Mirrors f S g'.bare) (fresh : ∀ x, S x → g.At Block.Fresh x)
    (fresh' : ∀ x, S x → g'.At Block.Fresh (f x)) : g.Mirrors f S g' where
  blocks x hx := by
    have rel := h.blocks x hx
    rw [get?_bare, get?_bare] at rel
    cases hb : g.get? x with
    | none =>
      cases hb' : g'.get? (f x) with
      | none => exact .none
      | some b' =>
        rw [hb, hb'] at rel
        cases rel
    | some b =>
      cases hb' : g'.get? (f x) with
      | none =>
        rw [hb, hb'] at rel
        cases rel
      | some b' =>
        rw [hb, hb'] at rel
        cases rel with
        | some rel => exact .some (rel.of_bare (fresh x hx b hb) (fresh' x hx b' hb'))
  length := by
    have same := h.length
    simp only [bare, length_map] at same
    exact same
  absent x hx := by
    rw [← get?_eq_none_iff] at hx
    refine h.absent x (get?_eq_none_iff.mp ?_)
    rw [get?_bare, hx]
    rfl

variable (h : g.Mirrors f S g')
include h

theorem get? (hx : S x) (hb : g.get? x = some b) :
    ∃ b', g'.get? (f x) = some b' ∧ b.Mirrors f b' := by
  have rel := h.blocks x hx
  rw [hb] at rel
  cases hb' : g'.get? (f x) with
  | none =>
    rw [hb'] at rel
    cases rel
  | some b' =>
    rw [hb'] at rel
    cases rel with
    | some rel => exact ⟨b', rfl, rel⟩

theorem get?_eq_none (hx : S x) (hb : g.get? x = none) : g'.get? (f x) = none := by
  have rel := h.blocks x hx
  rw [hb] at rel
  cases hb' : g'.get? (f x) with
  | none => rfl
  | some b' =>
    rw [hb'] at rel
    cases rel

theorem mem_ids_iff (hx : S x) : f x ∈ g'.ids ↔ x ∈ g.ids := by
  cases hb : g.get? x with
  | none =>
    exact iff_of_false (get?_eq_none_iff.mp (h.get?_eq_none hx hb)) (get?_eq_none_iff.mp hb)
  | some b =>
    obtain ⟨b', hb', -⟩ := h.get? hx hb
    exact iff_of_true (Graph.mem_ids_iff.mpr ⟨b', hb'⟩) (Graph.mem_ids_iff.mpr ⟨b, hb⟩)

theorem input? (hx : S x) (i : Nat) :
    g'.input? ⟨f x, i⟩ = (g.input? ⟨x, i⟩).map (InputSocket.relabel f) := by
  cases hb : g.get? x with
  | none => simp only [Graph.input?, hb, h.get?_eq_none hx hb, bind_none, map_none]
  | some b =>
    obtain ⟨b', hb', same⟩ := h.get? hx hb
    simp only [Graph.input?, hb, hb', bind_some, same.inputs, getElem?_map]

theorem source? (hx : S x) (i : Nat) :
    g'.source? ⟨f x, i⟩ = (g.source? ⟨x, i⟩).map (SocketRef.relabel f) := by
  rw [Graph.source?, h.input? hx, Graph.source?]
  cases g.input? ⟨x, i⟩ <;> rfl

theorem feeders (hf : f.Injective) (hx : S x) : g'.feeders (f x) = (g.feeders x).map f := by
  cases hb : g.get? x with
  | none => rw [Graph.feeders, Graph.feeders, hb, h.get?_eq_none hx hb]; rfl
  | some b =>
    obtain ⟨b', hb', same⟩ := h.get? hx hb
    rw [Graph.feeders, Graph.feeders, hb, hb']
    exact same.feeders hf

theorem origin? (hx : S x) : g'.origin? (f x) = (g.origin? x).map f := by
  cases hb : g.get? x with
  | none => simp [Graph.origin?, hb, h.get?_eq_none hx hb]
  | some b =>
    obtain ⟨b', hb', same⟩ := h.get? hx hb
    simp only [Graph.origin?, hb, hb', bind_some]
    exact same.kind.teleportEntry

section Closed

variable (closed : ∀ x y, S x → g.Upstream x y → S y) {r : SocketRef}
include closed

/-- The entry of a teleport is behind it, or is not there. -/
theorem entry (hx : S x) {y : BlockId} (origin : g.origin? x = some y) : S y := by
  by_cases there : y ∈ g.ids
  · exact closed x y hx (.inr ⟨origin, there⟩)
  · exact h.absent y there

theorem upstream_iff (hx : S x) {z : BlockId} :
    g'.Upstream (f x) z ↔ ∃ y, g.Upstream x y ∧ f y = z := by
  constructor
  · rintro (⟨i, s, hs, rfl⟩ | ⟨origin, there⟩)
    · rw [h.source? hx] at hs
      obtain ⟨t, ht, rfl⟩ := map_eq_some_iff.mp hs
      exact ⟨t.block, upstream_of_source? (r := ⟨x, i⟩) ht, rfl⟩
    · rw [h.origin? hx] at origin
      obtain ⟨y, hy, rfl⟩ := map_eq_some_iff.mp origin
      exact ⟨y, .inr ⟨hy, (h.mem_ids_iff (h.entry closed hx hy)).mp there⟩, rfl⟩
  · rintro ⟨y, ⟨i, s, hs, rfl⟩ | ⟨origin, there⟩, rfl⟩
    · refine .inl ⟨i, s.relabel f, ?_, rfl⟩
      rw [h.source? hx, hs]
      rfl
    · refine .inr ⟨?_, (h.mem_ids_iff (h.entry closed hx origin)).mpr there⟩
      rw [h.origin? hx, origin]
      rfl

theorem path_iff {n : BlockId} (hn : S n) {z : BlockId} :
    ReflTransGen g'.Upstream (f n) z ↔ ∃ y, ReflTransGen g.Upstream n y ∧ f y = z := by
  constructor
  · intro path
    induction path with
    | refl => exact ⟨n, .refl, rfl⟩
    | tail _ up ih =>
      obtain ⟨y, path, rfl⟩ := ih
      obtain ⟨w, hw, rfl⟩ := (h.upstream_iff closed (closed_of_reflTransGen closed path hn)).mp up
      exact ⟨w, path.tail hw, rfl⟩
  · rintro ⟨y, path, rfl⟩
    induction path with
    | refl => exact .refl
    | tail path up ih =>
      exact ih.tail ((h.upstream_iff closed
        (closed_of_reflTransGen closed path hn)).mpr ⟨_, up, rfl⟩)

/-- The same blocks are reached from nodes that stand for each other. -/
theorem mem_gather_iff (hf : f.Injective) {nodes : List BlockId} (hnodes : ∀ n ∈ nodes, S n) :
    f x ∈ g'.gather (nodes.map f) ↔ x ∈ g.gather nodes := by
  rw [Graph.mem_gather_iff, Graph.mem_gather_iff]
  constructor
  · rintro ⟨hid, n, hn, path⟩
    obtain ⟨m, hm, rfl⟩ := List.mem_map.mp hn
    obtain ⟨y, hy, same⟩ := (h.path_iff closed (hnodes m hm)).mp path
    obtain rfl := hf same
    have within := closed_of_reflTransGen closed hy (hnodes m hm)
    exact ⟨(h.mem_ids_iff within).mp hid, m, hm, hy⟩
  · rintro ⟨hid, n, hn, path⟩
    have within := closed_of_reflTransGen closed path (hnodes n hn)
    exact ⟨(h.mem_ids_iff within).mpr hid, f n, List.mem_map_of_mem hn,
      (h.path_iff closed (hnodes n hn)).mpr ⟨x, path, rfl⟩⟩

theorem inputTypeBy {next next' : SocketRef → ValueType}
    (same : ∀ s, S s.block → next' (s.relabel f) = next s) {p : SocketRef} (hp : S p.block) :
    g'.inputTypeBy next' (p.relabel f) = g.inputTypeBy next p := by
  have found : ((g'.get? (p.relabel f).block).bind fun b => b.inputs[(p.relabel f).index]?) =
      (g.input? p).map (InputSocket.relabel f) := h.input? hp p.index
  unfold Graph.inputTypeBy
  rw [found, ← Graph.input?]
  cases hi : g.input? p with
  | none => rfl
  | some input =>
    cases hl : input.link with
    | none => simp only [map_some, InputSocket.relabel, hl, map_none]
    | some source =>
      have up := upstream_of_source? (source?_eq_some_iff.mpr ⟨input, hi, hl⟩)
      simp only [map_some, InputSocket.relabel, hl]
      exact same source (closed _ _ hp up)

theorem outputTypeWithin (steps : Nat) (hr : S r.block) :
    g'.outputTypeWithin steps (r.relabel f) = g.outputTypeWithin steps r := by
  induction steps generalizing r with
  | zero => rfl
  | succ steps ih =>
    -- one step down, the types of all inputs agree
    have inputs : ∀ {p : SocketRef}, S p.block →
        g'.inputTypeBy (g'.outputTypeWithin steps) (p.relabel f) =
          g.inputTypeBy (g.outputTypeWithin steps) p := fun hp =>
      h.inputTypeBy closed (fun s hs => ih hs) hp
    rw [outputTypeWithin_succ, outputTypeWithin_succ, typeBy, typeBy]
    rw [show (r.relabel f).block = f r.block from rfl]
    cases hb : g.get? r.block with
    | none => rw [h.get?_eq_none hr hb]
    | some b =>
      obtain ⟨b', hb', same⟩ := h.get? hr hb
      rw [hb']
      have outputs := congrArg (fun views => views[r.index]?) same.outputs
      simp only [getElem?_map] at outputs
      cases ho : b.outputs[r.index]? with
      | none =>
        rw [ho, map_none, map_eq_none_iff] at outputs
        simp only [SocketRef.relabel, outputs, ho]
      | some output =>
        rw [ho, map_some] at outputs
        obtain ⟨output', ho', view⟩ := map_eq_some_iff.mp outputs
        have spec : output'.spec = output.spec := congrArg Prod.fst view
        have types : (List.range b'.inputs.length).map (fun i =>
            g'.inputTypeBy (g'.outputTypeWithin steps) ⟨f r.block, i⟩) =
              (List.range b.inputs.length).map fun i =>
                g.inputTypeBy (g.outputTypeWithin steps) ⟨r.block, i⟩ := by
          rw [same.inputs, length_map]
          exact map_congr_left fun i _ => inputs (p := ⟨r.block, i⟩) hr
        simp only [SocketRef.relabel, ho, ho', spec, types, same.kind.resolveOutput,
          same.kind.teleportEntry]
        cases he : b.kind.teleportEntry with
        | none => rfl
        | some entry =>
          have origin : g.origin? r.block = some entry := origin?_eq_some_iff.mpr ⟨b, hb, he⟩
          have entered : g'.inputTypeBy (g'.outputTypeWithin steps) ⟨f entry, 0⟩ =
              g.inputTypeBy (g.outputTypeWithin steps) ⟨entry, 0⟩ :=
            inputs (p := ⟨entry, 0⟩) (h.entry closed hr origin)
          simp only [map_some, entered]

theorem outputType (hr : S r.block) : g'.outputType (r.relabel f) = g.outputType r := by
  rw [Graph.outputType, Graph.outputType, h.length]
  exact h.outputTypeWithin closed _ hr

theorem inputType (hr : S r.block) : g'.inputType (r.relabel f) = g.inputType r :=
  h.inputTypeBy closed (fun _ hs => h.outputType closed hs) hr

end Closed

end Mirrors

end Graph

end ShaderGraph
