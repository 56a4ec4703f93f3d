import Mathlib.Data.List.Basic
import ShaderGraph.Proofs.Upstream

/-!
# Parts of a graph

A part of a graph holds some of its blocks under other identities, in the same order, with their
settings and whatever joins them to each other (`Graph.Restricts`). A change to a block of the part
is done to the part as well; a change to any other block does not show in it. A walk through the
part is one through the whole graph, so that a link or a teleport that closes no cycle there closes
none in the part.
-/

namespace ShaderGraph

open Relation List Option Block Kind SocketRef

/-! ## 1. Parts of blocks -/

section

variable (f : BlockId → Option BlockId)

def SocketRef.restrict (r : SocketRef) : Option SocketRef :=
  (f r.block).map fun y => ⟨y, r.index⟩

/-- The input, free if what feeds it is left out. -/
def InputSocket.restrict (p : InputSocket) : InputSocket :=
  { p with link := p.link.bind (SocketRef.restrict f) }

/-- The output, without the inputs that are left out. -/
def OutputSocket.restrict (p : OutputSocket) : OutputSocket :=
  { p with endpoints := p.endpoints.filterMap (SocketRef.restrict f) }

def Kind.restrict (k : Kind) : Kind := k.setTeleportEntry (k.teleportEntry.bind f)

/-- The block under its other identity, if it has one. -/
def Block.restrict (b : Block) : Option Block :=
  (f b.id).map fun y =>
    { b with
      id := y
      kind := b.kind.restrict f
      inputs := b.inputs.map (InputSocket.restrict f)
      outputs := b.outputs.map (OutputSocket.restrict f) }

end

variable {f : BlockId → Option BlockId} {x y e : BlockId} {b c : Block} {r s t s' t' : SocketRef}

theorem SocketRef.restrict_eq_some_iff :
    r.restrict f = some s ↔ f r.block = some s.block ∧ s.index = r.index := by
  unfold restrict
  rw [map_eq_some_iff]
  constructor
  · rintro ⟨y, hy, rfl⟩
    exact ⟨hy, rfl⟩
  · rintro ⟨hy, index⟩
    exact ⟨s.block, hy, by rw [← index]⟩

theorem SocketRef.restrict_eq_none_iff : r.restrict f = none ↔ f r.block = none :=
  map_eq_none_iff

namespace Kind

variable {k : Kind}

theorem teleportEntry_restrict (k : Kind) :
    (k.restrict f).teleportEntry = k.teleportEntry.bind f := by
  cases k <;> rfl

theorem restrict_setTeleportEntry (k : Kind) (h : f e = some y) :
    (k.setTeleportEntry (some e)).restrict f = (k.restrict f).setTeleportEntry (some y) := by
  cases k with
  | teleportOut t => simp [restrict, setTeleportEntry, teleportEntry, h]
  | _ => rfl

theorem restrict_takePending (k : Kind) :
    (k.restrict f).takePending = (k.takePending.1, k.takePending.2.restrict f) := by
  cases k <;> rfl

theorem isTeleportOut_restrict (k : Kind) : (k.restrict f).isTeleportOut = k.isTeleportOut := by
  cases k <;> rfl

theorem target_restrict (k : Kind) : (k.restrict f).target = k.target := by
  cases k <;> rfl

theorem restrict_of_free (h : k.teleportEntry = none) : k.restrict f = k := by
  cases k with
  | teleportOut t =>
    obtain ⟨entry, pending⟩ := t
    subst h
    rfl
  | _ => rfl

end Kind

namespace Block

theorem restrict_eq_some_iff : b.restrict f = some c ↔ ∃ y, f b.id = some y ∧ c =
    { b with
      id := y
      kind := b.kind.restrict f
      inputs := b.inputs.map (InputSocket.restrict f)
      outputs := b.outputs.map (OutputSocket.restrict f) } := by
  unfold restrict
  rw [map_eq_some_iff]
  exact exists_congr fun y => and_congr_right fun _ => eq_comm

theorem restrict_eq_none_iff : b.restrict f = none ↔ f b.id = none := map_eq_none_iff

theorem restrict_setLink (b : Block) (i : Nat) (hs : s.restrict f = some s') :
    (b.setLink i (some s)).restrict f = (b.restrict f).map (·.setLink i (some s')) := by
  have inputs := @map_modify _ _ (InputSocket.restrict f)
    (fun p => { p with link := some s }) (fun p => { p with link := some s' })
    (fun p => by simp [InputSocket.restrict, hs]) b.inputs i
  unfold restrict setLink modifyInput
  rw [inputs, Option.map_map]
  rfl

theorem restrict_addEndpoint (b : Block) (i : Nat) (ht : t.restrict f = some t') :
    (b.addEndpoint i t).restrict f = (b.restrict f).map (·.addEndpoint i t') := by
  have outputs := @map_modify _ _ (OutputSocket.restrict f)
    (fun p => { p with endpoints := p.endpoints ++ [t] })
    (fun p => { p with endpoints := p.endpoints ++ [t'] })
    (fun p => by simp [OutputSocket.restrict, ht]) b.outputs i
  unfold restrict addEndpoint modifyOutput
  rw [outputs, Option.map_map]
  rfl

theorem restrict_addEndpoint_of_none (b : Block) (i : Nat) (ht : t.restrict f = none) :
    (b.addEndpoint i t).restrict f = b.restrict f := by
  have outputs := @map_modify_of_keeps _ _ (OutputSocket.restrict f)
    (fun p => { p with endpoints := p.endpoints ++ [t] }) b.outputs i
    fun p => by simp [OutputSocket.restrict, ht]
  unfold restrict addEndpoint modifyOutput
  rw [outputs]

theorem restrict_withKind (b : Block) {u v : Kind → Kind}
    (comm : (u b.kind).restrict f = v (b.kind.restrict f)) :
    { b with kind := u b.kind }.restrict f =
      (b.restrict f).map fun c => { c with kind := v c.kind } := by
  unfold restrict
  rw [Option.map_map, comm]
  rfl

theorem restrict_new (hx : f x = some y) (name : String) {k : Kind}
    (free : k.teleportEntry = none) :
    (Block.new x name k).restrict f = some (Block.new y name k) := by
  unfold restrict new
  simp only [hx, Option.map_some, Kind.restrict_of_free free, List.map_map]
  rfl

end Block

/-! ## 2. Parts of graphs -/

def Apart (f : BlockId → Option BlockId) : Prop := ∀ x x' y, f x = some y → f x' = some y → x = x'

namespace Graph

variable {g g' : Graph}

/-- The blocks of a part are those of the graph that have other identities, in the same order. -/
def Restricts (f : BlockId → Option BlockId) (g g' : Graph) : Prop :=
  g'.blocks = g.blocks.filterMap (Block.restrict f)

/-- Whatever feeds a block of the part is in the part. -/
structure Closed (f : BlockId → Option BlockId) (g : Graph) : Prop where
  links : ∀ r s, g.source? r = some s → (f r.block).isSome → (f s.block).isSome
  entries : ∀ x e, g.origin? x = some e → (f x).isSome → (f e).isSome

namespace Restricts

variable {u : Block → Block} {e' z : BlockId} {g₁ : Graph}

variable (h : g.Restricts f g')
include h

theorem get? (apart : Apart f) (hx : f x = some y) :
    g'.get? y = (g.get? x).bind (Block.restrict f) := by
  unfold Graph.get?
  rw [show g'.blocks = _ from h]
  induction g.blocks with
  | nil => rfl
  | cons b rest ih =>
    cases hb : b.restrict f with
    | none =>
      have other : b.id ≠ x := by
        rintro rfl
        rw [Block.restrict_eq_none_iff, hx] at hb
        cases hb
      rw [List.filterMap_cons_none hb, ih, List.find?_cons_of_neg (by simpa using other)]
    | some c =>
      obtain ⟨z, hz, rfl⟩ := Block.restrict_eq_some_iff.mp hb
      rw [List.filterMap_cons_some hb]
      by_cases same : b.id = x
      · subst same
        cases hx.symm.trans hz
        rw [List.find?_cons_of_pos (by simp), List.find?_cons_of_pos (by simp), Option.bind_some,
          hb]
      · have other : z ≠ y := fun eq => same (apart _ _ _ (eq ▸ hz) hx)
        rw [List.find?_cons_of_neg (by simpa using other), ih,
          List.find?_cons_of_neg (by simpa using same)]

theorem modify (apart : Apart f) (hx : f x = some y) {v : Block → Block}
    (comm : ∀ b, (u b).restrict f = (b.restrict f).map v) :
    (g.modify x u).Restricts f (g'.modify y v) := by
  unfold Restricts Graph.modify at *
  rw [h, filterMap_map, map_filterMap]
  refine filterMap_congr fun b _ => ?_
  dsimp only [Function.comp]
  cases hb : b.restrict f with
  | none =>
    have none : (if b.id = x then u b else b).restrict f = none := by
      split
      · rw [comm, hb, map_none]
      · exact hb
    rw [none, map_none]
  | some c =>
    obtain ⟨z, hz, rfl⟩ := restrict_eq_some_iff.mp hb
    by_cases same : b.id = x
    · have there : z = y := Option.some.inj (hz.symm.trans (same ▸ hx))
      rw [if_pos same, comm, hb, map_some, map_some, if_pos there]
    · have other : z ≠ y := fun eq => same (apart _ _ _ (eq ▸ hz) hx)
      rw [if_neg same, hb, map_some, if_neg other]

theorem modify_of_same (same : ∀ b, b.id = x → (u b).restrict f = b.restrict f) :
    (g.modify x u).Restricts f g' := by
  unfold Restricts Graph.modify at *
  rw [h, filterMap_map]
  refine filterMap_congr fun b _ => ?_
  dsimp only [Function.comp]
  split
  · rename_i here
    exact (same b here).symm
  · rfl

theorem modify_of_none (hx : f x = none) (keeps : ∀ b, (u b).id = b.id) :
    (g.modify x u).Restricts f g' := by
  refine h.modify_of_same fun b hb => ?_
  have before : b.restrict f = none := restrict_eq_none_iff.mpr (hb ▸ hx)
  have after : (u b).restrict f = none := restrict_eq_none_iff.mpr (keeps b ▸ hb ▸ hx)
  rw [before, after]

theorem insert (hx : f g.freshId = some g'.freshId) (name : String) {k : Kind}
    (free : k.teleportEntry = none) : (g.insert name k).Restricts f (g'.insert name k) := by
  unfold Restricts Graph.insert at *
  rw [h, filterMap_append, filterMap_cons_some (restrict_new hx name free)]
  rfl

theorem insert_of_none (hx : f g.freshId = none) (name : String) (k : Kind) :
    (g.insert name k).Restricts f g' := by
  have none : (Block.new g.freshId name k).restrict f = none := restrict_eq_none_iff.mpr hx
  unfold Restricts Graph.insert at *
  rw [h, filterMap_append, filterMap_cons_none none, filterMap_nil, append_nil]

theorem link (apart : Apart f) (hs : s.restrict f = some s') (ht : t.restrict f = some t') :
    (g.link s t).Restricts f (g'.link s' t') := by
  obtain ⟨source, i⟩ := restrict_eq_some_iff.mp hs
  obtain ⟨target, j⟩ := restrict_eq_some_iff.mp ht
  unfold Graph.link
  rw [i, j]
  exact (h.modify apart target fun b => b.restrict_setLink _ hs).modify apart source fun b =>
    b.restrict_addEndpoint _ ht

theorem link_of_none (ht : f t.block = none) (s : SocketRef) : (g.link s t).Restricts f g' := by
  have consumer := h.modify_of_none ht (u := (·.setLink t.index (some s))) fun _ => rfl
  exact consumer.modify_of_same fun b _ =>
    b.restrict_addEndpoint_of_none _ (restrict_eq_none_iff.mpr ht)

variable (apart : Apart f)
include apart

theorem takePending (hx : f x = some y) :
    (g.modify x fun b => { b with kind := b.kind.takePending.2 }).Restricts f
      (g'.modify y fun b => { b with kind := b.kind.takePending.2 }) := by
  refine h.modify apart hx fun b => b.restrict_withKind (u := fun k => k.takePending.2)
    (v := fun k => k.takePending.2) ?_
  rw [restrict_takePending]

theorem withEntry (hx : f x = some y) (he : f e = some e') :
    (g.withEntry x (some e)).Restricts f (g'.withEntry y (some e')) :=
  h.modify apart hx fun b =>
    b.restrict_withKind (u := fun k => k.setTeleportEntry (some e))
      (b.kind.restrict_setTeleportEntry he)

/-! ## 3. Walks and checks -/

theorem mem_ids_iff (hx : f x = some y) : y ∈ g'.ids ↔ x ∈ g.ids := by
  rw [Graph.mem_ids_iff, Graph.mem_ids_iff, h.get? apart hx]
  constructor
  · rintro ⟨c, hc⟩
    obtain ⟨b, hb, -⟩ := bind_eq_some_iff.mp hc
    exact ⟨b, hb⟩
  · rintro ⟨b, hb⟩
    exact ⟨_, by rw [hb, bind_some, Block.restrict, id_of_get? hb, hx, map_some]⟩

theorem upstream_back (up : g'.Upstream y z) (hx : f x = some y) :
    ∃ w, f w = some z ∧ g.Upstream x w := by
  rcases up with ⟨i, s, source, rfl⟩ | ⟨origin, there⟩
  · obtain ⟨p, hp, hl⟩ := source?_eq_some_iff.mp source
    obtain ⟨c, hc, hi⟩ := input?_eq_some_iff.mp hp
    rw [h.get? apart hx] at hc
    obtain ⟨b, hb, restricted⟩ := bind_eq_some_iff.mp hc
    obtain ⟨_, -, rfl⟩ := restrict_eq_some_iff.mp restricted
    rw [getElem?_map] at hi
    obtain ⟨q, hq, rfl⟩ := map_eq_some_iff.mp hi
    obtain ⟨s₀, hs₀, hs⟩ := bind_eq_some_iff.mp hl
    refine ⟨s₀.block, (restrict_eq_some_iff.mp hs).1, .inl ⟨i, s₀, ?_, rfl⟩⟩
    exact source?_eq_some_iff.mpr ⟨q, input?_eq_some_iff.mpr ⟨b, hb, hq⟩, hs₀⟩
  · obtain ⟨c, hc, he⟩ := origin?_eq_some_iff.mp origin
    rw [h.get? apart hx] at hc
    obtain ⟨b, hb, restricted⟩ := bind_eq_some_iff.mp hc
    obtain ⟨_, -, rfl⟩ := restrict_eq_some_iff.mp restricted
    rw [teleportEntry_restrict] at he
    obtain ⟨e, he, hz⟩ := bind_eq_some_iff.mp he
    exact ⟨e, hz, .inr ⟨origin?_eq_some_iff.mpr ⟨b, hb, he⟩, (h.mem_ids_iff apart hz).mp there⟩⟩

theorem reaches_eq_false {w : BlockId} (hx : f x = some y) (hw : f w = some z) (there : w ∈ g.ids)
    (away : g.reaches x w = false) : g'.reaches y z = false := by
  have back : ∀ {u}, ReflTransGen g'.Upstream y u → ∃ v, f v = some u ∧
      ReflTransGen g.Upstream x v := by
    intro u path
    induction path with
    | refl => exact ⟨x, hx, .refl⟩
    | tail _ up ih =>
      obtain ⟨v, hv, path⟩ := ih
      obtain ⟨v', hv', up⟩ := h.upstream_back apart up hv
      exact ⟨v', hv', path.tail up⟩
  rw [Bool.eq_false_iff] at away ⊢
  intro reaches
  obtain ⟨v, hv, path⟩ := back ((reaches_iff ((h.mem_ids_iff apart hw).mpr there)).mp reaches)
  rw [apart v w z hv hw] at path
  exact away ((reaches_iff there).mpr path)

/-- A link inside the part is made in the part. -/
theorem connectNamed {source target source' target' : BlockId} {output input : String}
    (hs : f source = some source') (ht : f target = some target')
    (made : g.connectNamed source output target input = .ok g₁) :
    ∃ g₁', g'.connectNamed source' output target' input = .ok g₁' ∧ g₁.Restricts f g₁' := by
  obtain ⟨i, j, ⟨⟨p, hp, hi⟩, c, hc, hj⟩, made⟩ := connectNamed_eq_ok_iff.mp made
  obtain ⟨⟨o, q, linkable⟩, away, rfl⟩ := connect_eq_ok_iff.mp made
  have hp' := h.get? apart hs
  have hc' := h.get? apart ht
  rw [hp, bind_some, Block.restrict, id_of_get? hp, hs, map_some] at hp'
  rw [hc, bind_some, Block.restrict, id_of_get? hc, ht, map_some] at hc'
  obtain ⟨p₁, hp₁, ho⟩ := output?_eq_some_iff.mp linkable.output_eq
  obtain ⟨c₁, hc₁, hq⟩ := input?_eq_some_iff.mp linkable.input_eq
  cases hp.symm.trans hp₁
  cases hc.symm.trans hc₁
  refine ⟨_, connectNamed_eq_ok_iff.mpr ⟨i, j, ⟨⟨_, hp', ?_⟩, _, hc', ?_⟩,
    connect_eq_ok_iff.mpr ⟨⟨o.restrict f, q.restrict f, ?_⟩,
      h.reaches_eq_false apart hs ht linkable.target_mem_ids away, rfl⟩⟩, ?_⟩
  · exact findIdx?_map.trans hi
  · exact findIdx?_map.trans hj
  · constructor
    case output_eq =>
      refine output?_eq_some_iff.mpr ⟨_, hp', ?_⟩
      simp only [getElem?_map, ho, map_some]
    case input_eq =>
      refine input?_eq_some_iff.mpr ⟨_, hc', ?_⟩
      simp only [getElem?_map, hq, map_some]
    case free => exact congrArg (·.bind (SocketRef.restrict f)) linkable.free
    case apart =>
      intro same
      exact linkable.apart (apart _ _ _ hs (ht.trans (congrArg some same.symm)))
    case fits => exact linkable.fits
  · exact h.link apart (restrict_eq_some_iff.mpr ⟨hs, rfl⟩)
      (restrict_eq_some_iff.mpr ⟨ht, rfl⟩)

/-- A teleport inside the part is set up in the part. -/
theorem setTeleportEntry (hx : f x = some y) (he : f e = some e')
    (made : g.setTeleportEntry x (some e) = .ok g₁) :
    ∃ g₁', g'.setTeleportEntry y (some e') = .ok g₁' ∧ g₁.Restricts f g₁' := by
  obtain ⟨⟨b, hb, checks⟩, rfl⟩ := setTeleportEntry_eq_ok_iff.mp made
  obtain ⟨isOut, isIn, away⟩ := checks e rfl
  obtain ⟨a, ha, isIn⟩ := isEntry_iff.mp isIn
  have hb' := h.get? apart hx
  have ha' := h.get? apart he
  rw [hb, bind_some, Block.restrict, id_of_get? hb, hx, map_some] at hb'
  rw [ha, bind_some, Block.restrict, id_of_get? ha, he, map_some] at ha'
  refine ⟨_, setTeleportEntry_eq_ok_iff.mpr ⟨⟨_, hb', ?_⟩, rfl⟩, h.withEntry apart hx he⟩
  rintro _ ⟨⟩
  refine ⟨?_, isEntry_iff.mpr ⟨_, ha', ?_⟩,
    h.reaches_eq_false apart he hx (Graph.mem_ids_iff.mpr ⟨b, hb⟩) away⟩
  · exact (isTeleportOut_restrict _).trans isOut
  · exact (isTeleportIn_setTeleportEntry _ _).trans isIn

end Restricts

end Graph

end ShaderGraph
