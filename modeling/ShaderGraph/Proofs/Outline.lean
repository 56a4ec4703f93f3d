import ShaderGraph.Proofs.Builds
import ShaderGraph.Proofs.Upstream

/-!
# What writing code leaves alone in a graph

A pass gives symbols to sockets, notes in which stage a block was built and changes the settings of
kinds. Everything else about a block is its outline: its name, what its kind decides, its links and
its endpoints. Graphs of the same outlines have the same edges, so that what `Coherent` and
`Acyclic` say carries over (`Graph.Regular.of_outlines`).
-/

namespace ShaderGraph

open List Option Kind

/-! ## 1. Outlines of blocks -/

namespace Block

/-- A block without its symbols, its settings and the stage it was built in. -/
structure Outline where
  id : BlockId
  name : String
  traits : Kind.Traits
  /-- The outputs that the kind declares. -/
  declared : List SocketSpec
  target : Target
  entry : Option BlockId
  inputs : List (SocketSpec × Option SocketRef)
  outputs : List (SocketSpec × List SocketRef)

def outline (b : Block) : Outline where
  id := b.id
  name := b.name
  traits := b.kind.traits
  declared := b.kind.outputs
  target := b.target
  entry := b.kind.teleportEntry
  inputs := b.inputs.map fun p => (p.spec, p.link)
  outputs := b.outputs.map fun p => (p.spec, p.endpoints)

/-- The sockets of a block are those that its kind declares. -/
structure Fitted (b : Block) : Prop where
  inputs : b.inputs.map InputSocket.spec = b.kind.inputs
  outputs : (b.outputs.map fun p => p.spec.name) = b.kind.outputs.map SocketSpec.name

variable {b b' : Block}

theorem fitted_new (id : BlockId) (name : String) (kind : Kind) : (new id name kind).Fitted where
  inputs := by simp [new, Function.comp_def]
  outputs := by simp [new, Function.comp_def]

theorem isInput_of_outline (h : b'.outline = b.outline) : b'.kind.isInput = b.kind.isInput :=
  congrArg (fun o => o.traits.isInput) h

theorem target_of_outline (h : b'.outline = b.outline) : b'.target = b.target :=
  congrArg Outline.target h

theorem className_of_outline (h : b'.outline = b.outline) : b'.className = b.className :=
  congrArg (fun o => o.traits.className) h

theorem entry_of_outline (h : b'.outline = b.outline) :
    b'.kind.teleportEntry = b.kind.teleportEntry := congrArg Outline.entry h

theorem outline_of_alike {k : Kind} (h : b.kind.Alike k) :
    ({ b with kind := k } : Block).outline = b.outline := by
  have target : k.target = b.kind.target := h.target
  simp only [outline, Block.target, h.traits, h.outputs, h.entry, target]

theorem input_of_outline (h : b'.outline = b.outline) {i : Nat} {p : InputSocket}
    (hp : b.inputs[i]? = some p) :
    ∃ p', b'.inputs[i]? = some p' ∧ p'.spec = p.spec ∧ p'.link = p.link := by
  have same := congrArg (fun o => o.inputs[i]?) h
  simp only [outline, getElem?_map, hp, map_some, map_eq_some_iff] at same
  obtain ⟨p', hp', heq⟩ := same
  exact ⟨p', hp', congrArg Prod.fst heq, congrArg Prod.snd heq⟩

/-- A report that the block calls for: a required input has nothing connected. -/
def Lacks (b : Block) (u : UnconnectedInput) : Prop :=
  ∃ (i : Nat) (p : InputSocket), b.inputs[i]? = some p ∧ p.link = none ∧ p.spec.optional = false ∧
    u = ⟨p.spec.name, b.name, b.className⟩

theorem Lacks.of_outline {u : UnconnectedInput} (h : b'.outline = b.outline) (hb : b.Lacks u) :
    b'.Lacks u := by
  obtain ⟨i, p, hp, free, required, rfl⟩ := hb
  obtain ⟨p', hp', hspec, hlink⟩ := input_of_outline h hp
  have name : b'.name = b.name := congrArg Outline.name h
  refine ⟨i, p', hp', hlink.trans free, hspec ▸ required, ?_⟩
  rw [hspec, name, className_of_outline h]

theorem Fitted.of_outline (h : b'.outline = b.outline) (hb : b.Fitted) : b'.Fitted where
  inputs := by
    have specs := congrArg (fun o => o.inputs.map Prod.fst) h
    have declared : b'.kind.inputs = b.kind.inputs := congrArg (fun o => o.traits.inputs) h
    simp only [outline, List.map_map] at specs
    rw [declared, ← hb.inputs]
    exact specs
  outputs := by
    have specs := congrArg (fun o => o.outputs.map fun p => p.1.name) h
    have declared : b'.kind.outputs.map SocketSpec.name = b.kind.outputs.map SocketSpec.name :=
      congrArg (fun o => o.traits.outputs) h
    simp only [outline, List.map_map] at specs
    rw [declared, ← hb.outputs]
    exact specs

/-- An input block has nothing to read, and its only output is named `output`. -/
theorem Fitted.of_isInput (hb : b.Fitted) (h : b.kind.isInput = true) :
    b.inputs = [] ∧ ∃ p, b.outputs = [p] ∧ p.spec.name = "output" := by
  obtain ⟨hin, hout⟩ := hb
  cases hk : b.kind with
  | input i =>
    rw [hk] at hin hout
    refine ⟨map_eq_nil_iff.mp hin, ?_⟩
    obtain ⟨p, hp, hname⟩ := map_eq_singleton_iff.mp hout
    exact ⟨p, hp, hname⟩
  | _ => rw [hk] at h; cases h

end Block

namespace Kind

variable {k : Kind}

/-- A block that is built in both stages reads each of its inputs in one of them only. -/
theorem target_of_dual (h : k.target = .vertexAndFragment) {p : SocketSpec} (hp : p ∈ k.inputs)
    (hf : p.target.includes .fragment = true) : p.target = .fragment := by
  cases k with
  | input b => cases hp
  | fog f =>
    simp only [inputs, FogBlock.inputs, mem_cons, not_mem_nil, or_false] at hp
    rcases hp with rfl | rfl | rfl | rfl
    · cases hf
    · cases hf
    · rfl
    · rfl
  | _ => cases h

/-- Attributes are the inputs that belong to the vertex stage. -/
theorem isAttribute_iff : k.isAttribute = true ↔ k.isInput = true ∧ k.target = .vertex := by
  cases k with
  | input b =>
    simp only [isAttribute, isInput, target, InputBlock.target, true_and]
    cases b.isAttribute <;> simp
  | _ => simp [isAttribute, isInput]

theorem target_of_isInput (h : k.isInput = true) :
    k.target = if k.isAttribute then .vertex else .vertexAndFragment := by
  cases k with
  | input b => rfl
  | _ => cases h

theorem teleportEntry_of_isInput (h : k.isInput = true) : k.teleportEntry = none := by
  cases k with
  | input b => rfl
  | _ => cases h

theorem target_of_isTeleportIn (h : k.isTeleportIn = true) :
    k.target = .neutral ∧ k.inputs = TeleportIn.inputs := by
  cases k with
  | teleportIn => exact ⟨rfl, rfl⟩
  | _ => cases h

def isFog : Kind → Bool
  | .fog _ => true
  | _ => false

/-- Inputs apart, a fog is the only kind that belongs to both stages. -/
theorem isFog_iff : k.isFog = true ↔ k.isInput = false ∧ k.target = .vertexAndFragment := by
  cases k <;> simp [isFog, isInput, target]

end Kind

theorem Block.isFog_of_outline {b b' : Block} (h : b'.outline = b.outline) :
    b'.kind.isFog = b.kind.isFog := by
  have target : b'.kind.target = b.kind.target := target_of_outline h
  rw [Bool.eq_iff_iff, isFog_iff, isFog_iff, isInput_of_outline h, target]

theorem Block.isAttribute_of_outline {b b' : Block} (h : b'.outline = b.outline) :
    b'.kind.isAttribute = b.kind.isAttribute := by
  have target : b'.kind.target = b.kind.target := target_of_outline h
  rw [Bool.eq_iff_iff, isAttribute_iff, isAttribute_iff, isInput_of_outline h, target]

/-! ## 2. Outlines of graphs -/

namespace Graph

open Relation

def outlines (g : Graph) : List Block.Outline := g.blocks.map Block.outline

variable {g g' : Graph} {id x : BlockId} {b : Block} {f : Block → Block}

theorem map_outline_get? (g : Graph) (x : BlockId) :
    (g.get? x).map Block.outline = g.outlines.find? fun o => o.id == x := by
  simp only [get?, outlines, find?_map]
  rfl

theorem exists_get?_of_outlines (h : g'.outlines = g.outlines) (hb : g.get? x = some b) :
    ∃ b', g'.get? x = some b' ∧ b'.outline = b.outline := by
  have same : (g'.get? x).map Block.outline = (g.get? x).map Block.outline := by
    rw [map_outline_get?, map_outline_get?, h]
  rw [hb, map_some, map_eq_some_iff] at same
  exact same

theorem map_blocks_modify {α : Type} {view : Block → α} (hd : g.ids.Nodup) (hb : g.get? id = some b)
    (keeps : view (f b) = view b) : (g.modify id f).blocks.map view = g.blocks.map view := by
  simp only [modify, List.map_map]
  refine List.map_congr_left fun c hc => ?_
  by_cases hid : c.id = id
  · have same : c = b :=
        List.inj_on_of_nodup_map hd hc (mem_of_get? hb) (hid.trans (id_of_get? hb).symm)
    simp [same, keeps, ← hid]
  · simp [hid]

theorem outlines_modify (hd : g.ids.Nodup) (hb : g.get? id = some b)
    (keeps : (f b).outline = b.outline) : (g.modify id f).outlines = g.outlines :=
  map_blocks_modify hd hb keeps

section

variable (h : g'.outlines = g.outlines)
include h

theorem ids_of_outlines : g'.ids = g.ids := by
  have same := congrArg (List.map Block.Outline.id) h
  simp only [outlines, List.map_map] at same
  exact same

theorem length_of_outlines : g'.blocks.length = g.blocks.length := by
  have := congrArg List.length h
  simpa only [outlines, length_map] using this

/-- What can be told from the outline of a block. -/
theorem view_of_outlines {α : Type} (view : Option Block → α) (read : Option Block.Outline → α)
    (x : BlockId) (told : ∀ o, view o = read (o.map Block.outline)) :
    view (g'.get? x) = view (g.get? x) := by
  rw [told, told, map_outline_get?, map_outline_get?, h]

theorem source?_of_outlines (r : SocketRef) : g'.source? r = g.source? r := by
  refine view_of_outlines h
    (fun o => (o.bind fun b => b.inputs[r.index]?).bind InputSocket.link)
    (fun o => o.bind fun o => o.inputs[r.index]?.bind Prod.snd) r.block fun o => ?_
  cases o with
  | none => rfl
  | some b => simp [Block.outline, getElem?_map, bind_map]

theorem endpoints_of_outlines (r : SocketRef) : g'.endpoints r = g.endpoints r := by
  refine view_of_outlines h
    (fun o => (o.bind fun b => b.outputs[r.index]?).elim [] OutputSocket.endpoints)
    (fun o => (o.bind fun o => o.outputs[r.index]?).elim [] Prod.snd) r.block fun o => ?_
  cases o with
  | none => rfl
  | some b =>
    simp only [bind_some, map_some, Block.outline, getElem?_map]
    cases b.outputs[r.index]? <;> rfl

theorem origin?_of_outlines (x : BlockId) : g'.origin? x = g.origin? x :=
  view_of_outlines h (fun o => o.bind fun b => b.kind.teleportEntry) (·.bind Block.Outline.entry) x
    fun o => by cases o <;> rfl

theorem isEntry_of_outlines (x : BlockId) : g'.isEntry x = g.isEntry x := by
  refine view_of_outlines h (fun o => o.any fun b => b.kind.isTeleportIn)
    (fun o => o.any fun o => o.traits.isTeleportIn) x fun o => ?_
  cases o <;> rfl

theorem upstream_of_outlines : g'.Upstream = g.Upstream := by
  funext a b
  simp only [Upstream, source?_of_outlines h, origin?_of_outlines h, ids_of_outlines h]

theorem gather_of_outlines (nodes : List BlockId) : g'.gather nodes = g.gather nodes := by
  have same : g'.feeders = g.feeders := by
    funext x
    refine view_of_outlines h (·.elim [] Block.feeders) (·.elim [] fun o =>
      (o.inputs.filterMap fun p => p.2.map SocketRef.block).filter (· != o.id) ++
        o.entry.toList) x fun o => ?_
    cases o with
    | none => rfl
    | some b =>
      simp only [map_some, elim_some, Block.feeders, Block.outline, filterMap_map]
      rfl
  rw [gather, gather, same, ids_of_outlines h]

end

/-! ## 3. Regular graphs -/

/-- Both sides of every link agree, no block feeds itself, and every block has the sockets of its
kind. -/
structure Regular (g : Graph) : Prop where
  coherent : g.Coherent
  acyclic : g.Acyclic
  fitted : ∀ x b, g.get? x = some b → b.Fitted

/-- The structure of a graph is a matter of outlines. -/
theorem Regular.of_outlines (hg : g.Regular) (h : g'.outlines = g.outlines) : g'.Regular where
  coherent := hg.coherent.of_views (ids_of_outlines h) (source?_of_outlines h)
    (endpoints_of_outlines h)
  acyclic := by
    unfold Acyclic
    rw [upstream_of_outlines h]
    exact hg.acyclic
  fitted x b hb := by
    obtain ⟨c, hc, same⟩ := exists_get?_of_outlines h.symm hb
    exact (hg.fitted x c hc).of_outline same.symm

theorem Entered.of_outlines (hg : g.Entered) (h : g'.outlines = g.outlines) : g'.Entered := by
  intro x e loose
  unfold Loose at loose
  rw [origin?_of_outlines h, isEntry_of_outlines h] at loose
  rw [ids_of_outlines h]
  exact hg x e loose

/-- What feeds a block that is gathered is gathered. -/
theorem Regular.closed_gather (hg : g.Regular) (roots : List BlockId) (x y : BlockId)
    (hx : x ∈ g.gather roots) (hxy : g.Upstream x y) : y ∈ g.gather roots :=
  hg.coherent.mem_gather_of_upstream hx hxy

theorem Regular.feeders_of_isInput (hg : g.Regular) (hb : g.get? x = some b)
    (hin : b.kind.isInput = true) : g.feeders x = [] := by
  rw [feeders, hb, elim_some, Block.feeders, Kind.teleportEntry_of_isInput hin,
    ((hg.fitted _ _ hb).of_isInput hin).1]
  rfl

/-- An input block is a leaf. -/
theorem Regular.not_upstream_of_isInput (hg : g.Regular) (hb : g.get? x = some b)
    (hin : b.kind.isInput = true) (y : BlockId) : ¬g.Upstream x y := by
  intro up
  have apart : y ≠ x := fun same => hg.acyclic x (.single (same ▸ up))
  simpa [hg.feeders_of_isInput hb hin] using mem_feeders_of_upstream up apart

end Graph

end ShaderGraph
