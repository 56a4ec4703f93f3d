import ShaderGraph.Proofs.Completing
import ShaderGraph.Proofs.Crafted

/-!
# Recursions that stay within their bounds

Three recursions go from a block to the blocks behind it: the search for a type, the walk that
prepares a pass, and the build of a block. Each is bounded by the number of blocks. The body of each
recursion is a function of what stands for the recursive call, so that one may ask what would happen
beyond the bound. The answer is that nothing gets there: whatever stands beyond the bound, the
result is the same (`Graph.iterate_typeBy`, `Preparation.walks_walk`, `Emission.run_outcome`). For
the walk this is true although it adds blocks to the graph that it walks through.

Together with what is known of failing look-ups and of open regions, this says how a build can end
(`Material.build_ends_as_announced`). One look-up may fail: a block that was removed keeps the entry
of its teleport, and once that entry is removed too and the block is added again, a build looks for
an entry that is not there (`Material.Lost`).
-/

namespace ShaderGraph

open List ShaderGraph.Graph Roots

/-! ## 1. Types -/

namespace Graph

variable {g : Graph} {r : SocketRef} {next next' : SocketRef → ValueType}

/-- The type of an output, given the types of the outputs of the blocks behind. -/
def typeBy (g : Graph) (next : SocketRef → ValueType) (r : SocketRef) : ValueType :=
  match g.get? r.block with
  | none => .float
  | some b =>
    match b.outputs[r.index]? with
    | none => .float
    | some output =>
      match output.spec.type with
      | .basedOnInput =>
        match b.kind.teleportEntry with
        | some entry => g.inputTypeBy next ⟨entry, 0⟩
        | none =>
          let types := (List.range b.inputs.length).map fun i => g.inputTypeBy next ⟨r.block, i⟩
          match b.kind.resolveOutput types with
          | some t => t
          | none => (output.spec.typeSource.bind fun i => types[i]?).getD .float
      | .autoDetect => .float
      | t => t

theorem outputTypeWithin_succ (g : Graph) (steps : Nat) :
    g.outputTypeWithin (steps + 1) = g.typeBy (g.outputTypeWithin steps) := rfl

theorem inputTypeBy_congr {p : SocketRef}
    (h : ∀ s, g.source? p = some s → next s = next' s) :
    g.inputTypeBy next p = g.inputTypeBy next' p := by
  unfold inputTypeBy
  cases hp : (g.get? p.block).bind fun b => b.inputs[p.index]? with
  | none => rfl
  | some input =>
    cases hl : input.link with
    | none => simp only [hl]
    | some s =>
      simp only [hl]
      exact h s (source?_eq_some_iff.mpr ⟨input, hp, hl⟩)

theorem typeBy_congr (h : ∀ s, Relation.TransGen g.Upstream r.block s.block → next s = next' s) :
    g.typeBy next r = g.typeBy next' r := by
  unfold typeBy
  cases hb : g.get? r.block with
  | none => rfl
  | some b =>
    have entry : ∀ entry, b.kind.teleportEntry = some entry →
        g.inputTypeBy next ⟨entry, 0⟩ = g.inputTypeBy next' ⟨entry, 0⟩ := by
      intro entry he
      refine inputTypeBy_congr fun s hs => h s ?_
      have onward := upstream_of_source? hs
      have through : g.Upstream r.block entry :=
        .inr ⟨origin?_eq_some_iff.mpr ⟨b, hb, he⟩, onward.mem_ids⟩
      exact .tail (.single through) onward
    have inputs : ∀ i, g.inputTypeBy next ⟨r.block, i⟩ = g.inputTypeBy next' ⟨r.block, i⟩ :=
      fun i => inputTypeBy_congr fun s hs =>
        h s (.single (upstream_of_source? (r := ⟨r.block, i⟩) hs))
    simp only [inputs]
    cases he : b.kind.teleportEntry with
    | none => rfl
    | some e => simp only [entry e he]

theorem depth_lt_of_transGen (hc : g.Coherent) (hg : g.Acyclic) {a b : BlockId}
    (h : Relation.TransGen g.Upstream a b) : g.depth b < g.depth a := by
  induction h with
  | single h => exact depth_lt hc hg h
  | tail _ h ih => exact (depth_lt hc hg h).trans ih

/-- Whatever stands beyond the bound, the type of an output is found before. -/
theorem iterate_typeBy (hc : g.Coherent) (hg : g.Acyclic) {steps : Nat}
    (enough : g.depth r.block < steps) (beyond : SocketRef → ValueType) :
    g.typeBy^[steps] beyond r = g.outputTypeWithin steps r := by
  induction steps generalizing r with
  | zero => omega
  | succ steps ih =>
    rw [Function.iterate_succ_apply', outputTypeWithin_succ]
    refine typeBy_congr fun s hs => ih ?_
    have := depth_lt_of_transGen hc hg hs
    omega

end Graph

/-! ## 2. What a walk meets, and what it blames -/

namespace Preparation

variable {p p' : Preparation} {stage : Stage} {id : BlockId} {block : Block} {steps : Nat}
  {g : Graph} {R L : BlockId → Prop}

/-- Every block that was met belongs to `R`, and is there or among the lost ones of `L`. What is
attached is there, is attached once and belongs to `R`, and a fault is a second block of a unique
class in `R`. -/
structure Orderly (R L : BlockId → Prop) (p : Preparation) : Prop where
  met : ∀ x ∈ p.visited, R x ∧ (x ∈ p.graph.ids ∨ L x)
  attached : ∀ x ∈ p.attached, x ∈ p.graph.ids ∧ R x
  distinct : p.attached.Nodup
  blames : ∀ fault, p.fault = some fault → ∃ x y a b, R x ∧ R y ∧ x ≠ y ∧
    p.graph.get? x = some a ∧ p.graph.get? y = some b ∧ a.className = b.className ∧
    b.kind.isUnique = true ∧ fault = .duplicateUniqueBlock b.className b.name

theorem Orderly.widens (h : p.Orderly R L) (w : Widens p p') (hf : p'.fault = none)
    (met : p'.visited = p.visited) (same : p'.attached = p.attached) : p'.Orderly R L where
  met x hx := (h.met x (met ▸ hx)).imp_right (Or.imp_left w.mem_ids)
  attached x hx := by
    obtain ⟨here, hR⟩ := h.attached x (same ▸ hx)
    exact ⟨w.mem_ids here, hR⟩
  distinct := same ▸ h.distinct
  blames fault hfault := by
    rw [hf] at hfault
    cases hfault

theorem Orderly.attach (h : p.Orderly R L) (hf : p.fault = none) (hid : id ∈ p.graph.ids)
    (hR : R id) : (p.attach id).Orderly R L := by
  obtain ⟨b, hb⟩ := mem_ids_iff.mp hid
  unfold Preparation.attach
  split
  · exact h
  · rename_i fresh
    rw [find_of_get? hb]
    dsimp only
    split
    · rename_i clash
      refine ⟨h.met, h.attached, h.distinct, fun fault hfault => ?_⟩
      -- a block that clashes is attached, and this one is not
      obtain ⟨unique, other⟩ := Bool.and_eq_true_iff.mp clash
      obtain ⟨a, ha, same⟩ := any_eq_true.mp other
      obtain ⟨x, hx, hget⟩ := mem_filterMap.mp ha
      refine ⟨x, id, a, b, (h.attached x hx).2, hR, ?_, hget, hb, beq_iff_eq.mp same, unique,
        (Option.some.inj hfault).symm⟩
      rintro rfl
      exact fresh (contains_iff_mem.mpr hx)
    · refine ⟨h.met, fun x hx => ?_, ?_, fun fault hfault => by rw [hf] at hfault; cases hfault⟩
      · rcases mem_append.mp hx with hx | hx
        · exact h.attached x hx
        · rw [mem_singleton.mp hx]
          exact ⟨hid, hR⟩
      · refine h.distinct.append (nodup_singleton id) fun x hx hx' => fresh ?_
        rw [← mem_singleton.mp hx']
        exact contains_iff_mem.mpr hx

theorem Orderly.meet (h : p.Orderly R L) (hp : p.graph.Proper) (hf : p.fault = none)
    (hb : p.graph.get? block.id = some block) (hR : R block.id) : (p.meet block).Orderly R L := by
  have wished := local_wished hp hb
  obtain ⟨visited, -, -, fault⟩ := fulfil_eq (p.entering block) block
  have same : ((p.entering block).fulfil block).attached = p.attached := by
    unfold Preparation.fulfil
    split <;> rfl
  have stays : ∀ x ∈ p.graph.ids, x ∈ ((p.entering block).fulfil block).graph.ids := by
    intro x hx
    obtain ⟨c, hc⟩ := mem_ids_iff.mp hx
    obtain ⟨c', hc', -⟩ := wished.blocks x c hc
    exact mem_ids_iff.mpr ⟨c', hc'⟩
  have here := mem_ids_iff.mpr ⟨block, hb⟩
  refine Orderly.attach ⟨fun x hx => ?_, fun x hx => ?_, ?_, ?_⟩ (fault.trans hf)
    (stays _ here) hR
  · rw [visited] at hx
    rcases mem_cons.mp hx with rfl | hx
    · exact ⟨hR, .inl (stays _ here)⟩
    · exact (h.met x hx).imp_right (Or.imp_left (stays x))
  · obtain ⟨there, hR⟩ := h.attached x (same ▸ hx)
    exact ⟨stays x there, hR⟩
  · rw [same]
    exact h.distinct
  · intro failure hfailure
    cases hf.symm.trans (fault.symm.trans hfailure)

theorem Orderly.andThen {step : Preparation → Preparation} (h : p.Orderly R L)
    (hstep : p.fault = none → (step p).Orderly R L) : (p.andThen step).Orderly R L := by
  unfold Preparation.andThen
  split
  · exact h
  · rename_i hf
    exact hstep (by simpa using hf)

section Closed

-- whatever the graph grows into, what feeds a block of `R` belongs to `R`, and what is missing as
-- the entry of a block of `R` belongs to `L`
variable (closed : ∀ g', g.Extends g' → ∀ x y, R x → g'.Upstream x y → R y)
  (lost : ∀ g', g.Extends g' → ∀ x y, R x → g'.origin? x = some y → y ∉ g'.ids → R y ∧ L y)
  {roots : List BlockId}
include closed lost

theorem Walks.orderly {task : Task} (w : Walks stage task p p') (h : p.Orderly R L)
    (extension : g.Extends p.graph) (hids : ∀ y ∈ task.ids, R y ∧ (y ∈ p.graph.ids ∨ L y))
    (hf : ∀ id, task = .visit id → p.fault = none) : p'.Orderly R L := by
  induction w with
  | again | nil | halted => exact h
  | @missing id p _ hb =>
    refine ⟨fun x hx => ?_, h.attached, h.distinct, h.blames⟩
    rcases mem_cons.mp hx with rfl | hx
    · exact hids _ mem_cons_self
    · exact h.met x hx
  | blocked _ hb =>
    obtain rfl := id_of_get? hb
    exact h.meet extension.proper (hf _ rfl) hb (hids _ mem_cons_self).1
  | @meet id p q block hid hb clear w ih =>
    obtain rfl := id_of_get? hb
    have hR := (hids _ mem_cons_self).1
    have met := widens_meet extension.proper hb hid
    have reset := widens_resetInputs met.graph.proper block.id
    have grown := extension.trans (met.trans reset).graph
    have ready := (h.meet extension.proper (hf _ rfl) hb hR).widens reset clear rfl rfl
    have fed := ih ready grown (fun y hy => ?_) nofun
    · have last := widens_resetOutputs (w.widens reset.graph.proper).graph.proper block.id
      exact fed.andThen fun hf => fed.widens last hf rfl rfl
    -- what feeds a block through a link is there, and its entry may be lost
    · by_cases there : y ∈ (p.meet block |>.resetInputs block.id).graph.ids
      · exact ⟨closed _ grown _ y hR (upstream_of_mem_feeders hy there), .inl there⟩
      · have origin := reset.graph.proper.coherent.origin?_of_mem_feeders hy there
        exact (lost _ grown _ y hR origin there).imp_right .inr
  | @next feeds id rest p q r clear w w' first others =>
    rw [Task.ids, forall_mem_cons] at hids
    obtain ⟨crossing, same⟩ := note_eq p stage feeds id
    rw [same] at w first
    have turned := w.widens extension.proper
    refine others (first ⟨h.met, h.attached, h.distinct, h.blames⟩ extension (fun y hy => ?_)
      fun _ _ => clear) (extension.trans turned.graph)
      (fun y hy => (hids.2 y hy).imp_right (Or.imp_left turned.mem_ids)) nofun
    rw [mem_singleton.mp hy]
    exact hids.1

/-- The walk of a stage goes on with what was attached before. -/
theorem Orderly.walk (stage : Stage) (h : p.Orderly R L) (extension : g.Extends p.graph)
    (hroots : ∀ x ∈ roots, R x ∧ (x ∈ p.graph.ids ∨ L x)) : (p.walk stage roots).Orderly R L :=
  (walks_walk stage roots extension.proper).1.orderly closed lost
    ⟨nofun, h.attached, h.distinct, h.blames⟩ extension hroots nofun

end Closed

end Preparation

/-! ## 3. How a build ends -/

namespace Material

variable {m m' : Material} {id : BlockId}

def Planted (m : Material) : Prop := ∀ stage, ∀ x ∈ m.roots.of stage, x ∈ m.graph.ids

theorem Staged.planted {P : Block.Shape → Prop} (hm : m.Staged P) : m.Planted := by
  intro stage x hx
  obtain ⟨b, hb, -⟩ := hm x stage hx
  exact mem_ids_iff.mpr ⟨b, hb⟩

theorem Reachable.planted (hm : m.Reachable) : m.Planted := Staged.planted hm.anchored

def unprepared (m : Material) : Preparation :=
  { graph := m.graph, ledger := m.newLedger, autoConfigure := m.options.autoConfigure }

/-- A block behind a root, or a leaf: an input block, or one that is not there yet. -/
def Near (m : Material) (x : BlockId) : Prop :=
  (∃ n ∈ m.roots.vertex ++ m.roots.fragment, Relation.ReflTransGen m.graph.Upstream n x) ∨
    ∀ b, m.graph.get? x = some b → b.kind.isInput = true

/-- Whatever the graph grows into, what feeds a block behind a root is behind it or a leaf. -/
theorem Near.upstream (hg : m.graph.Proper) {g : Graph} (extension : m.graph.Extends g)
    {x y : BlockId} (hx : m.Near x) (up : g.Upstream x y) : m.Near y := by
  rcases extension.edges x y up with old | ⟨leaf, hleaf, hin⟩
  · refine hx.imp (fun ⟨n, hn, path⟩ => ⟨n, hn, path.tail old⟩) fun hin => ?_
    -- leaves are fed by nothing
    obtain ⟨b, hb⟩ := mem_ids_iff.mp old.mem_ids
    exact absurd old (hg.toRegular.not_upstream_of_isInput hb (hin b hb) y)
  · refine .inr fun b hb => ?_
    obtain ⟨b', hb', same⟩ := extension.blocks y b hb
    cases hleaf.symm.trans hb'
    exact (Block.isInput_of_shape same).symm.trans hin

/-- An identity that a teleport behind a root names, and that no block has. -/
def Lost (m : Material) (x : BlockId) : Prop :=
  x ∉ m.graph.ids ∧ ∃ n ∈ m.roots.vertex ++ m.roots.fragment, ∃ y,
    Relation.ReflTransGen m.graph.Upstream n y ∧ m.graph.origin? y = some x

/-- Whatever the graph grows into, an entry that is missing in it was lost before. -/
theorem Near.lost {g : Graph} (extension : m.graph.Extends g) {x y : BlockId} (hx : m.Near x)
    (origin : g.origin? x = some y) (gone : y ∉ g.ids) : m.Near y ∧ m.Lost y := by
  have away : y ∉ m.graph.ids := fun hy => gone (extension.mem_ids hy)
  rw [extension.origins] at origin
  refine ⟨.inr fun b hb => absurd (mem_ids_iff.mpr ⟨b, hb⟩) away, away, ?_⟩
  rcases hx with ⟨n, hn, path⟩ | leaf
  · exact ⟨n, hn, x, path, origin⟩
  · obtain ⟨b, hb, named⟩ := origin?_eq_some_iff.mp origin
    rw [Kind.teleportEntry_of_isInput (leaf b hb)] at named
    cases named

/-- Both walks of a pass meet what is behind the roots, attach blocks behind the roots and leaves,
and blame only repeated unique blocks. -/
theorem orderly_prepare (hg : m.graph.Proper) (hm : m.Planted) :
    m.firstWalk.Orderly m.Near m.Lost ∧ m.prepare.state.Orderly m.Near m.Lost := by
  have closed : ∀ g, m.graph.Extends g → ∀ x y, m.Near x → g.Upstream x y → m.Near y :=
    fun g extension x y hx up => hx.upstream hg extension up
  have lost : ∀ g, m.graph.Extends g → ∀ x y, m.Near x → g.origin? x = some y → y ∉ g.ids →
      m.Near y ∧ m.Lost y :=
    fun g extension x y hx origin gone => hx.lost extension origin gone
  have root : ∀ stage, ∀ x ∈ m.roots.of stage, m.Near x := by
    intro stage x hx
    refine .inl ⟨x, mem_append.mpr ?_, .refl⟩
    cases stage
    · exact .inl hx
    · exact .inr hx
  have start : m.unprepared.Orderly m.Near m.Lost := ⟨nofun, nofun, nodup_nil, nofun⟩
  have first : m.firstWalk.Orderly m.Near m.Lost := start.walk closed lost .vertex (.refl hg)
    fun x hx => ⟨root .vertex x hx, .inl (hm .vertex x hx)⟩
  obtain ⟨extension, -⟩ := walked_firstWalk hg
  exact ⟨first, first.andThen fun hf => first.walk closed lost .fragment extension fun x hx =>
    ⟨root .fragment x hx, .inl (extension.mem_ids (hm .fragment x hx))⟩⟩

/-- An emission comes to its end, or to an entry that is lost. -/
theorem emission_ends (hw : m.WellFormed) (hm : m.Planted) (hf : m.prepare.state.fault = none) :
    (∃ e, m.emission = .ok e) ∨
      ∃ halt x, m.emission = .error halt ∧ halt.cause = .missingBlock x ∧ m.Lost x := by
  have hg := hw.graph
  have outcome := emission_outcome hg
  generalize he : m.emission = r at outcome
  cases outcome with
  | ended _ => exact .inl ⟨_, rfl⟩
  | @lost e y x _ hy origin gone =>
    refine .inr ⟨_, x, rfl, rfl, ?_⟩
    obtain ⟨vertex, fragment⟩ := (scope_prepare hg hf).gathered hw.modest
    -- the stages build what the walks have met
    have met : y ∈ m.firstWalk.visited ∨ y ∈ m.prepare.state.visited := by
      obtain ⟨there, n, hn, path⟩ := mem_gather_iff.mp hy
      exact (mem_append.mp hn).elim
        (fun hn => vertex y (mem_gather_iff.mpr ⟨there, n, hn, path⟩))
        fun hn => fragment y (mem_gather_iff.mpr ⟨there, n, hn, path⟩)
    obtain ⟨first, both⟩ := orderly_prepare hg hm
    have near : m.Near y := met.elim (fun hy => (first.met y hy).1) fun hy => (both.met y hy).1
    exact (near.lost (extends_prepare hg).1 origin gone).2

theorem exists_emission (hw : m.WellFormed) (hm : m.Planted) (hf : m.prepare.state.fault = none)
    (none : ∀ x, ¬m.Lost x) : ∃ e, m.emission = .ok e :=
  (emission_ends hw hm hf).resolve_right fun ⟨_, x, _, _, lost⟩ => none x lost

theorem not_lost_of_free (free : ∀ b ∈ m.graph.blocks, b.kind.teleportEntry = none) (x : BlockId) :
    ¬m.Lost x := by
  rintro ⟨-, -, -, y, -, origin⟩
  obtain ⟨b, hb, held⟩ := origin?_eq_some_iff.mp origin
  cases (free b (mem_of_get? hb)).symm.trans held

theorem Intact.not_lost (hm : m.Intact) (x : BlockId) : ¬m.Lost x := by
  rintro ⟨gone, -, -, y, -, origin⟩
  obtain ⟨b, hb, -⟩ := isEntry_iff.mp (hm.isEntry origin)
  exact gone (mem_ids_iff.mpr ⟨b, hb⟩)

end Material

end ShaderGraph
