import ShaderGraph.Pass.Preparation
import ShaderGraph.Proofs.Naming
import ShaderGraph.Proofs.Proper

/-!
# What the walks of a pass leave behind

The walk of a stage prepares every block behind the roots of the stage. It may add input blocks and
link them, so that the graph grows while it is walked; what it adds are leaves, and it links them
only to the block that it is about to look behind (`Graph.Extends`, `Preparation.Widens`).

What meeting a block, resetting its sockets and noting it keep, a walk keeps (`Preparation.Stable`).

A walk without a fault covers what it meets: whatever feeds a block that it met was met as well, and
no input of such a block reads a varying (`Preparation.Covers`). The bound on the length of chains
is never reached.
-/

namespace ShaderGraph

open List ShaderGraph.Graph Option Block

/-! ## 1. Graphs that get new leaves -/

namespace Graph

variable {g g' g'' : Graph} {id x y : BlockId} {b : Block}

/-- A proper graph that has grown out of another one. Blocks keep their shapes, new blocks are input
blocks, and so is whatever is at the far end of a new edge. -/
structure Extends (g g' : Graph) : Prop where
  proper : g'.Proper
  blocks : ∀ x b, g.get? x = some b → ∃ b', g'.get? x = some b' ∧ b'.shape = b.shape
  added : ∀ x b', g'.get? x = some b' → x ∉ g.ids → b'.kind.isInput = true
  edges : ∀ x y, g'.Upstream x y →
    g.Upstream x y ∨ ∃ b', g'.get? y = some b' ∧ b'.kind.isInput = true
  declared : g.Declared → g'.Declared
  entered : g.Entered → g'.Entered
  origins : ∀ x, g'.origin? x = g.origin? x

namespace Extends

theorem refl (hg : g.Proper) : g.Extends g where
  proper := hg
  blocks _ b hb := ⟨b, hb, rfl⟩
  added _ b hb hx := absurd (mem_ids_iff.mpr ⟨b, hb⟩) hx
  edges _ _ h := .inl h
  declared h := h
  entered h := h
  origins _ := rfl

theorem trans (h : g.Extends g') (h' : g'.Extends g'') : g.Extends g'' where
  proper := h'.proper
  blocks x b hb := by
    obtain ⟨b', hb', same⟩ := h.blocks x b hb
    obtain ⟨b'', hb'', same'⟩ := h'.blocks x b' hb'
    exact ⟨b'', hb'', same'.trans same⟩
  added x b'' hb'' hx := by
    cases hb' : g'.get? x with
    | none => exact h'.added x b'' hb'' (get?_eq_none_iff.mp hb')
    | some b' =>
      obtain ⟨c, hc, same⟩ := h'.blocks x b' hb'
      cases hb''.symm.trans hc
      rw [isInput_of_shape same]
      exact h.added x b' hb' hx
  edges x y hxy := by
    rcases h'.edges x y hxy with hxy | hnew
    · rcases h.edges x y hxy with hxy | ⟨b', hb', hin⟩
      · exact .inl hxy
      · obtain ⟨b'', hb'', same⟩ := h'.blocks y b' hb'
        exact .inr ⟨b'', hb'', by rw [isInput_of_shape same]; exact hin⟩
    · exact .inr hnew
  declared hg := h'.declared (h.declared hg)
  entered hg := h'.entered (h.entered hg)
  origins x := (h'.origins x).trans (h.origins x)

theorem of_outlines (hg : g.Proper) (h : g'.outlines = g.outlines)
    (counter : g'.nextId = g.nextId) : g.Extends g' where
  proper := hg.of_outlines h counter.ge
  blocks x b hb := by
    obtain ⟨b', hb', same⟩ := exists_get?_of_outlines h hb
    exact ⟨b', hb', shape_of_outline same⟩
  added x b hb hx := by
    rw [← ids_of_outlines h] at hx
    exact absurd (mem_ids_iff.mpr ⟨b, hb⟩) hx
  edges x y hxy := by
    rw [upstream_of_outlines h] at hxy
    exact .inl hxy
  declared hg := hg.of_outlines h
  entered hg := hg.of_outlines h
  origins := origin?_of_outlines h

theorem isEntry (h : g.Extends g') (hx : g.isEntry x = true) : g'.isEntry x = true := by
  obtain ⟨b, hb, entry⟩ := isEntry_iff.mp hx
  obtain ⟨b', hb', same⟩ := h.blocks x b hb
  exact isEntry_iff.mpr ⟨b', hb', (congrArg (fun s => s.traits.isTeleportIn) same).trans entry⟩

theorem loose (h : g.Extends g') {e : BlockId} (loose : g'.Loose x e) : g.Loose x e := by
  obtain ⟨origin, away⟩ := loose
  refine ⟨h.origins x ▸ origin, ?_⟩
  by_contra entry
  rw [h.isEntry (by simpa using entry)] at away
  cases away

theorem mem_ids (h : g.Extends g') (hx : x ∈ g.ids) : x ∈ g'.ids := by
  obtain ⟨b, hb⟩ := mem_ids_iff.mp hx
  obtain ⟨b', hb', -⟩ := h.blocks x b hb
  exact mem_ids_iff.mpr ⟨b', hb'⟩

/-- What is not an input block was there before, with the same shape. -/
theorem back (h : g.Extends g') {b' : Block} (hb' : g'.get? x = some b')
    (hin : b'.kind.isInput = false) : ∃ b, g.get? x = some b ∧ b'.shape = b.shape := by
  cases hb : g.get? x with
  | none =>
    rw [h.added x b' hb' (get?_eq_none_iff.mp hb)] at hin
    cases hin
  | some b =>
    obtain ⟨c, hc, same⟩ := h.blocks x b hb
    cases hb'.symm.trans hc
    exact ⟨b, rfl, same⟩

end Extends

/-- No input of the block reads a varying. -/
def Plain (g : Graph) (x : BlockId) : Prop :=
  ∀ b, g.get? x = some b → ∀ p ∈ b.inputs, p.enforced = false

/-- A change around one block: new edges start there. -/
structure Local (id : BlockId) (g g' : Graph) : Prop extends Extends g g' where
  frame : ∀ x y, x ≠ id → g'.Upstream x y → g.Upstream x y

namespace Local

theorem refl (hg : g.Proper) : g.Local id g where
  toExtends := .refl hg
  frame _ _ _ h := h

theorem trans (h : Local id g g') (h' : Local id g' g'') : Local id g g'' where
  toExtends := h.toExtends.trans h'.toExtends
  frame x y hx hxy := h.frame x y hx (h'.frame x y hx hxy)

variable (hg : g.Proper)
include hg

theorem modify {f : Block → Block} (hb : g.get? id = some b) (same : (f b).outline = b.outline) :
    g.Local id (g.modify id f) where
  toExtends := .of_outlines hg (outlines_modify hg.coherent.distinct hb same) rfl
  frame x y _ hxy := by
    rw [upstream_of_outlines (outlines_modify hg.coherent.distinct hb same)] at hxy
    exact hxy

theorem insert (name : String) (input : InputBlock) :
    g.Local id (g.insert name (.input input)) where
  proper := hg.insert name (forall_entry_of_free rfl)
  blocks x b hb := ⟨b, by rw [get?_insert, hb]; rfl, rfl⟩
  added x b hb hx := by
    rw [get?_insert, get?_eq_none_iff.mpr hx] at hb
    split at hb
    · cases hb
      rfl
    · cases hb
  edges _ _ h :=
    .inl ((upstream_insert_of_free (hg.isFresh (forall_entry_of_free rfl)) name rfl).mp h)
  declared h := h.insert hg.coherent name _
  entered h := hg.entered_insert h name (forall_entry_of_free rfl)
  origins x := by
    have fresh : g.IsFresh g.freshId (.input input) := hg.isFresh (forall_entry_of_free rfl)
    rw [origin?_insert hg.fresh]
    split
    · rename_i hx
      rw [hx, fresh.origin?_self]
      rfl
    · rfl
  frame _ _ _ h :=
    (upstream_insert_of_free (hg.isFresh (forall_entry_of_free rfl)) name rfl).mp h

theorem connect {s t : SocketRef} (hb : g.get? s.block = some b) (hin : b.kind.isInput = true)
    (h : g.connect s t = .ok g') : g.Local t.block g' := by
  have proper := hg.connect h
  have declared : g.Declared → g'.Declared := fun hd => hd.connect h
  have entered : g.Entered → g'.Entered := fun he => he.connect h
  obtain ⟨⟨output, input, hl⟩, -, rfl⟩ := connect_eq_ok_iff.mp h
  have shapes : ∀ x c, g.get? x = some c →
      ∃ c', (g.link s t).get? x = some c' ∧ c'.shape = c.shape := by
    intro x c hc
    have same := map_link unjoined_shape g s t x
    rw [hc, map_some] at same
    exact map_eq_some_iff.mp same
  constructor
  case toExtends =>
    refine ⟨proper, shapes, ?_, ?_, declared, entered,
      fun x => origin?_congr (map_link .of_kind g s t x)⟩
    · intro x c hc hx
      rw [← ids_link g s t] at hx
      exact absurd (mem_ids_iff.mpr ⟨c, hc⟩) hx
    · intro x y hxy
      rcases (upstream_link hl).mp hxy with hold | ⟨-, rfl⟩
      · exact .inl hold
      · obtain ⟨b', hb', same⟩ := shapes _ b hb
        exact .inr ⟨b', hb', by rw [isInput_of_shape same]; exact hin⟩
  case frame =>
    intro x y hx hxy
    rcases (upstream_link hl).mp hxy with hold | ⟨rfl, -⟩
    · exact hold
    · exact absurd rfl hx

theorem serve (id : BlockId) (wish : AutoSource) : g.Local id (g.serve wish).2 ∧
    ∃ b, (g.serve wish).2.get? (g.serve wish).1 = some b ∧ b.kind.isInput = true := by
  unfold Graph.serve
  cases hfound : g.serving? wish with
  | some found =>
    refine ⟨.refl hg, ?_⟩
    obtain ⟨b, hb, rfl⟩ := map_eq_some_iff.mp hfound
    refine ⟨b, get?_of_mem hg.coherent.distinct (mem_of_find?_eq_some hb), ?_⟩
    have hsatisfies := find?_some hb
    cases hk : b.kind with
    | input i => rfl
    | _ => simp [hk] at hsatisfies
  | none =>
    obtain ⟨name, input⟩ := InputBlock.ofAutoSource wish
    refine ⟨insert hg name input, Block.new g.freshId name (.input input), ?_, rfl⟩
    rw [get?_insert, get?_eq_none_iff.mpr hg.fresh, if_pos rfl]
    rfl

theorem fulfil (id : BlockId) (wish : AutoConnect) : g.Local id (g.fulfil id wish) := by
  obtain ⟨served, b, hb, hin⟩ := serve hg id wish.source
  unfold Graph.fulfil
  dsimp only
  cases h : (g.serve wish.source).2.connectNamed (g.serve wish.source).1 "output" id wish.input with
  | error _ => exact served
  | ok g' =>
    obtain ⟨i, j, h⟩ := connectNamed_eq_ok h
    exact served.trans (connect served.proper hb hin h)

theorem fulfilAll (id : BlockId) (wishes : List AutoConnect) :
    g.Local id (wishes.foldl (·.fulfil id) g) := by
  induction wishes generalizing g with
  | nil => exact .refl hg
  | cons wish rest ih =>
    have first := fulfil hg id wish
    exact first.trans (ih first.proper)

end Local

end Graph

/-! ## 2. What lasts at a block -/

/-- A property of blocks that nothing in the first part of a pass takes away. -/
structure Block.Lasting (P : Block → Prop) : Prop where
  start : ∀ (b : Block) (l : Ledger), P b → P { b with kind := (b.kind.start l).1 }
  resetInputs : ∀ b : Block, P b → P { b with inputs := b.inputs.map InputSocket.reset }
  resetOutputs : ∀ b : Block, P b → P { b with outputs := b.outputs.map OutputSocket.reset }
  setLink : ∀ (b : Block) (i : Nat) (link : Option SocketRef), P b → P (b.setLink i link)
  addEndpoint : ∀ (b : Block) (i : Nat) (endpoint : SocketRef), P b → P (b.addEndpoint i endpoint)
  leaf : ∀ (id : BlockId) (source : AutoSource),
    P (Block.new id (InputBlock.ofAutoSource source).1 (.input (InputBlock.ofAutoSource source).2))

namespace Graph

variable {P : Block → Prop} {g : Graph} {x : BlockId} {f : Block → Block}

def At (P : Block → Prop) (g : Graph) (x : BlockId) : Prop := ∀ b, g.get? x = some b → P b

theorem At.modify (h : g.At P x) (id : BlockId) (keeps : ∀ b, (f b).id = b.id)
    (hf : ∀ b, g.get? id = some b → P b → P (f b)) : (g.modify id f).At P x := by
  intro b hb
  rw [get?_modify g id keeps] at hb
  split at hb
  · rename_i same
    obtain ⟨c, hc, rfl⟩ := map_eq_some_iff.mp hb
    exact hf c (same ▸ hc) (h c hc)
  · exact h b hb

theorem at_modify_self (keeps : ∀ b, (f b).id = b.id) (hf : ∀ b, P (f b)) :
    (g.modify x f).At P x := by
  intro b hb
  rw [get?_modify g x keeps, if_pos rfl] at hb
  obtain ⟨c, -, rfl⟩ := map_eq_some_iff.mp hb
  exact hf c

theorem At.fulfil (hP : Block.Lasting P) (h : g.At P x) (id : BlockId) (wish : AutoConnect) :
    (g.fulfil id wish).At P x := by
  have served : (g.serve wish.source).2.At P x := by
    unfold serve
    split
    · exact h
    · intro b hb
      rw [get?_insert] at hb
      cases hc : g.get? x with
      | some c =>
        rw [hc] at hb
        exact h b (hc.trans hb)
      | none =>
        rw [hc, none_or] at hb
        split at hb
        · cases hb
          exact hP.leaf _ _
        · cases hb
  unfold Graph.fulfil
  dsimp only
  split
  · rename_i g' ok
    obtain ⟨i, j, ok⟩ := connectNamed_eq_ok ok
    obtain ⟨-, -, rfl⟩ := connect_eq_ok_iff.mp ok
    exact (served.modify _ (by intro; rfl) fun b _ => hP.setLink b _ _).modify _ (by intro; rfl)
      fun b _ => hP.addEndpoint b _ _
  · exact served

end Graph

theorem Block.lasting_plain : Block.Lasting fun b => ∀ p ∈ b.inputs, p.enforced = false where
  start _ _ h := h
  resetInputs b _ p hp := by
    obtain ⟨p', -, rfl⟩ := mem_map.mp hp
    rfl
  resetOutputs _ h := h
  setLink b i link h p hp := by
    have same : (b.setLink i link).inputs.map InputSocket.enforced =
        b.inputs.map InputSocket.enforced := map_modify_of_keeps b.inputs i fun _ => rfl
    obtain ⟨p', hp', heq⟩ := mem_map.mp (same ▸ mem_map_of_mem hp)
    exact heq ▸ h p' hp'
  addEndpoint _ _ _ h := h
  leaf _ _ := nofun

/-! ## 3. What a walk changes -/

theorem Kind.start_alike (k : Kind) (l : Ledger) : k.Alike (k.start l).1 := by
  cases k <;> exact ⟨rfl, rfl, rfl, rfl⟩

/-- Two states of a ledger that differ at most in names that are excluded. -/
def Ledger.SameButNames (l l' : Ledger) : Prop :=
  ∃ excluded : List String, l' = { l with names := excluded.foldl NameTable.exclude l.names }

theorem Ledger.SameButNames.refl (l : Ledger) : l.SameButNames l := ⟨[], rfl⟩

theorem Ledger.SameButNames.trans {a b c : Ledger} (hab : a.SameButNames b)
    (hbc : b.SameButNames c) : a.SameButNames c := by
  obtain ⟨excluded, rfl⟩ := hab
  obtain ⟨excluded', rfl⟩ := hbc
  exact ⟨excluded ++ excluded', by rw [List.foldl_append]⟩

theorem Kind.ledger_start (k : Kind) (l : Ledger) : l.SameButNames (k.start l).2 := by
  cases k with
  | input b =>
    simp only [start, InputBlock.start]
    split
    · exact ⟨[_], rfl⟩
    · exact .refl l
  | _ => exact .refl l

namespace Preparation

variable {p p' p'' q : Preparation} {stage : Stage} {id x : BlockId} {block : Block} {steps : Nat}
  {g : Graph} {producer : BlockId} {P : Block → Prop}

/-- What every part of a walk keeps. New edges start at blocks that it meets. -/
structure Widens (p p' : Preparation) : Prop where
  graph : p.graph.Extends p'.graph
  visited : p.visited ⊆ p'.visited
  crossing : p.crossing ⊆ p'.crossing
  frame : ∀ x y, (x ∈ p.visited ∨ x ∉ p'.visited) → p'.graph.Upstream x y → p.graph.Upstream x y
  fault : p'.fault = none → p.fault = none
  ledger : p.ledger.SameButNames p'.ledger

namespace Widens

theorem refl (hp : p.graph.Proper) : Widens p p where
  graph := .refl hp
  visited := List.Subset.refl _
  crossing := List.Subset.refl _
  frame _ _ _ h := h
  fault h := h
  ledger := .refl _

theorem trans (h : Widens p p') (h' : Widens p' p'') : Widens p p'' where
  graph := h.graph.trans h'.graph
  visited := List.Subset.trans h.visited h'.visited
  crossing := List.Subset.trans h.crossing h'.crossing
  frame x y hx hxy := by
    rcases hx with hx | hx
    · exact h.frame x y (.inl hx) (h'.frame x y (.inl (h.visited hx)) hxy)
    · exact h.frame x y (.inr fun hx' => hx (h'.visited hx')) (h'.frame x y (.inr hx) hxy)
  fault hf := h.fault (h'.fault hf)
  ledger := h.ledger.trans h'.ledger

theorem mem_ids (w : Widens p p') (hx : x ∈ p.graph.ids) : x ∈ p'.graph.ids :=
  w.graph.mem_ids hx

end Widens

/-- The block is among those that cross over, if it belongs to both stages. -/
def Noted (p : Preparation) (x : BlockId) : Prop :=
  ∀ b, p.graph.get? x = some b → b.target = .vertexAndFragment → x ∈ p.crossing

theorem Noted.widens (h : p.Noted x) (w : Widens p p') (hx : x ∈ p.graph.ids) : p'.Noted x := by
  intro b' hb' htarget
  obtain ⟨b, hb⟩ := mem_ids_iff.mp hx
  obtain ⟨c, hc, same⟩ := w.graph.blocks x b hb
  cases hb'.symm.trans hc
  exact w.crossing (h b hb ((target_of_shape same).symm.trans htarget))

theorem andThen_of_clear {f : Preparation → Preparation} (h : p.fault = none) :
    p.andThen f = f p := by
  rw [andThen, h]
  rfl

theorem andThen_of_faulty {f : Preparation → Preparation} (h : p.fault ≠ none) :
    p.andThen f = p := by
  rw [andThen, if_pos (Option.isSome_iff_ne_none.mpr h)]

/-- A part of a walk that ends without a fault was carried out. -/
theorem andThen_of_fault {f : Preparation → Preparation} (h : (p.andThen f).fault = none) :
    p.andThen f = f p := by
  by_cases hf : p.fault = none
  · exact andThen_of_clear hf
  · rw [andThen_of_faulty hf] at h
    exact absurd h hf

/-- The blocks that a part of a walk meets are done when it ends: what feeds them was met, and noted
if it belongs to both stages, and they read no varyings. Blocks that cross over were met, and belong
to the other stage. -/
structure Covers (stage : Stage) (p p' : Preparation) : Prop where
  closed : ∀ x ∈ p'.visited, x ∉ p.visited → ∀ y, p'.graph.Upstream x y →
    y ∈ p'.visited ∧ p'.Noted y
  plain : ∀ x ∈ p'.visited, x ∉ p.visited → p'.graph.Plain x
  crossing : ∀ x ∈ p'.crossing, x ∈ p.crossing ∨ (x ∈ p'.visited ∧
    ∃ b, p'.graph.get? x = some b ∧
      (b.target = .vertexAndFragment ∨ stage = .fragment ∧ b.target = .vertex))

namespace Covers

theorem of_same (visited : p'.visited = p.visited) (crossing : p'.crossing = p.crossing) :
    Covers stage p p' where
  closed _ hx hn := absurd (visited ▸ hx) hn
  plain _ hx hn := absurd (visited ▸ hx) hn
  crossing _ hx := .inl (crossing ▸ hx)

theorem trans (h : Covers stage p p') (h' : Covers stage p' p'') (hp : p'.graph.Proper)
    (w : Widens p' p'') (lasts : ∀ x, p'.graph.Plain x → p''.graph.Plain x) :
    Covers stage p p'' where
  closed x hx hn y hxy := by
    by_cases hx' : x ∈ p'.visited
    · have old := w.frame x y (.inl hx') hxy
      obtain ⟨hy, noted⟩ := h.closed x hx' hn y old
      exact ⟨w.visited hy, noted.widens w (hp.coherent.mem_ids_of_upstream old)⟩
    · exact h'.closed x hx hx' y hxy
  plain x hx hn := by
    by_cases hx' : x ∈ p'.visited
    · exact lasts x (h.plain x hx' hn)
    · exact h'.plain x hx hx'
  crossing x hx := by
    rcases h'.crossing x hx with hx | hdone
    · rcases h.crossing x hx with hx | ⟨hx, b, hb, htarget⟩
      · exact .inl hx
      · obtain ⟨b', hb', same⟩ := w.graph.blocks x b hb
        exact .inr ⟨w.visited hx, b', hb', by rw [target_of_shape same]; exact htarget⟩
    · exact .inr hdone

theorem of_met (h : Covers stage p' p'') (visited : p'.visited = id :: p.visited)
    (crossing : p'.crossing = p.crossing)
    (closed : ∀ y, p''.graph.Upstream id y → y ∈ p''.visited ∧ p''.Noted y)
    (plain : p''.graph.Plain id) :
    Covers stage p p'' where
  closed x hx hn y hxy := by
    by_cases hid : x = id
    · subst hid
      exact closed y hxy
    · exact h.closed x hx (by rw [visited, mem_cons]; exact fun h => h.elim hid hn) y hxy
  plain x hx hn := by
    by_cases hid : x = id
    · subst hid
      exact plain
    · exact h.plain x hx (by rw [visited, mem_cons]; exact fun h => h.elim hid hn)
  crossing x hx := (h.crossing x hx).imp_left fun h => crossing ▸ h

end Covers

/-! ## 4. Meeting a block -/

/-- A block is met: its kind is started, its wishes are fulfilled, and it is attached. -/
def meet (p : Preparation) (block : Block) : Preparation :=
  (({ p with visited := block.id :: p.visited }.start block).fulfil block).attach block.id

theorem attach_eq (p : Preparation) (id : BlockId) :
    (p.attach id).graph = p.graph ∧ (p.attach id).visited = p.visited ∧
      (p.attach id).crossing = p.crossing ∧ (p.attach id).ledger = p.ledger ∧
      ((p.attach id).fault = none → p.fault = none) := by
  unfold attach
  split
  · exact ⟨rfl, rfl, rfl, rfl, fun h => h⟩
  · split
    · exact ⟨rfl, rfl, rfl, rfl, nofun⟩
    · split
      · exact ⟨rfl, rfl, rfl, rfl, nofun⟩
      · exact ⟨rfl, rfl, rfl, rfl, fun h => h⟩

theorem fulfil_eq (p : Preparation) (block : Block) :
    (p.fulfil block).visited = p.visited ∧ (p.fulfil block).crossing = p.crossing ∧
      (p.fulfil block).ledger = p.ledger ∧ (p.fulfil block).fault = p.fault := by
  unfold fulfil
  split <;> exact ⟨rfl, rfl, rfl, rfl⟩

theorem local_fulfil (hp : p.graph.Proper) (block : Block) :
    p.graph.Local block.id (p.fulfil block).graph := by
  unfold fulfil
  split
  · exact .fulfilAll hp block.id _
  · exact .refl hp

theorem local_start (hp : p.graph.Proper) (hb : p.graph.get? block.id = some block) :
    p.graph.Local block.id (p.start block).graph :=
  .modify hp hb (outline_of_alike (block.kind.start_alike p.ledger))

/-- A walk that has come to a block and started it. -/
abbrev entering (p : Preparation) (block : Block) : Preparation :=
  { p with visited := block.id :: p.visited }.start block

theorem local_wished (hp : p.graph.Proper) (hb : p.graph.get? block.id = some block) :
    p.graph.Local block.id ((p.entering block).fulfil block).graph :=
  have started := local_start (p := { p with visited := block.id :: p.visited }) hp hb
  started.trans (local_fulfil started.proper block)

theorem visited_meet (p : Preparation) (block : Block) :
    (p.meet block).visited = block.id :: p.visited :=
  (attach_eq _ _).2.1.trans (fulfil_eq _ _).1

theorem crossing_meet (p : Preparation) (block : Block) : (p.meet block).crossing = p.crossing :=
  (attach_eq _ _).2.2.1.trans (fulfil_eq _ _).2.1

theorem widens_meet (hp : p.graph.Proper) (hb : p.graph.get? block.id = some block)
    (hid : block.id ∉ p.visited) : Widens p (p.meet block) := by
  have visited := visited_meet p block
  obtain ⟨hgraph, -, -, hledger, hfault⟩ := attach_eq ((p.entering block).fulfil block) block.id
  obtain ⟨-, -, hledger', hfault'⟩ := fulfil_eq (p.entering block) block
  have change : p.graph.Local block.id (p.meet block).graph := by
    rw [meet, hgraph]
    exact local_wished hp hb
  constructor
  case graph => exact change.toExtends
  case visited =>
    rw [visited]
    exact subset_cons_self _ _
  case crossing =>
    rw [crossing_meet]
    exact List.Subset.refl _
  case frame =>
    intro x y hx hxy
    refine change.frame x y ?_ hxy
    rintro rfl
    rcases hx with hx | hx
    · exact hid hx
    · rw [visited] at hx
      exact hx mem_cons_self
  case fault =>
    intro h
    exact hfault'.symm.trans (hfault h)
  case ledger =>
    rw [meet, hledger, hledger']
    exact block.kind.ledger_start p.ledger

theorem widens_modify (hp : p.graph.Proper) {f : Block → Block}
    (same : ∀ b, (f b).outline = b.outline) : Widens p { p with graph := p.graph.modify id f } := by
  have outlines : (p.graph.modify id f).outlines = p.graph.outlines := by
    simp only [Graph.outlines, Graph.modify, List.map_map]
    refine List.map_congr_left fun c _ => ?_
    by_cases hc : c.id = id <;> simp [hc, same]
  constructor
  case graph => exact .of_outlines hp outlines rfl
  case visited => exact List.Subset.refl _
  case crossing => exact List.Subset.refl _
  case frame =>
    intro x y _ hxy
    rwa [Graph.upstream_of_outlines outlines] at hxy
  case fault => exact fun h => h
  case ledger => exact .refl _

theorem widens_resetInputs (hp : p.graph.Proper) (id : BlockId) : Widens p (p.resetInputs id) :=
  widens_modify hp fun b => by
    simp [Block.outline, Block.target, Function.comp_def, InputSocket.reset]

theorem plain_resetInputs (p : Preparation) (id : BlockId) : (p.resetInputs id).graph.Plain id :=
  at_modify_self (by intro; rfl) fun b p hp => by
    obtain ⟨p', -, rfl⟩ := mem_map.mp hp
    rfl

theorem widens_resetOutputs (hp : p.graph.Proper) (id : BlockId) :
    Widens p (p.resetOutputs id) :=
  widens_modify hp fun b => by
    simp [Block.outline, Block.target, Function.comp_def, OutputSocket.reset]

theorem covers_resetOutputs (p : Preparation) (id : BlockId) : Covers stage p (p.resetOutputs id) :=
  .of_same rfl rfl

theorem at_meet_of_start (hP : Block.Lasting P)
    (h : (p.graph.modify block.id ({ · with kind := (block.kind.start p.ledger).1 })).At P x) :
    (p.meet block).graph.At P x := by
  obtain ⟨graph, -⟩ := attach_eq ((p.entering block).fulfil block) block.id
  rw [meet, graph]
  unfold fulfil
  split
  · have wished : ∀ (wishes : List AutoConnect) (g : Graph), g.At P x →
        (wishes.foldl (·.fulfil block.id) g).At P x := by
      intro wishes
      induction wishes with
      | nil => exact fun _ h => h
      | cons wish rest ih => exact fun g h => ih _ (h.fulfil hP block.id wish)
    exact wished _ _ h
  · exact h

theorem at_meet (hP : Block.Lasting P) (hb : p.graph.get? block.id = some block)
    (h : p.graph.At P x) : (p.meet block).graph.At P x := by
  refine at_meet_of_start hP (h.modify block.id (by intro; rfl) fun b hb' hPb => ?_)
  cases hb.symm.trans hb'
  exact hP.start block _ hPb

/-! ## 5. Looking behind a block -/

/-- A visit, given what visits the blocks behind. -/
def visitBy (stage : Stage) (next : BlockId → Preparation → Preparation) (id : BlockId)
    (p : Preparation) : Preparation :=
  if p.visited.contains id then p
  else
    let p := { p with visited := id :: p.visited }
    match p.graph.get? id with
    | none => p
    | some block =>
      (((p.start block).fulfil block).attach id).andThen fun p =>
        let p := p.resetInputs id
        let p := (p.graph.feeders id).foldl (fun p producer =>
          p.andThen fun p => next producer (p.noteCrossing stage producer)) p
        p.andThen (·.resetOutputs id)

theorem visit_eq_iterate (stage : Stage) (steps : Nat) :
    visit stage steps = (visitBy stage)^[steps] fun _ p => p := by
  induction steps with
  | zero => rfl
  | succ steps ih =>
    rw [Function.iterate_succ_apply', ← ih]
    rfl

/-- A block is noted if it feeds the block that the walk has come from, and not if it is a root. -/
def note (stage : Stage) (feeds : Bool) (id : BlockId) (p : Preparation) : Preparation :=
  bif feeds then p.noteCrossing stage id else p

/-- One turn of the loop over the blocks that feed a block, or over the roots. -/
def turnBy (stage : Stage) (feeds : Bool) (next : BlockId → Preparation → Preparation)
    (p : Preparation) (id : BlockId) : Preparation :=
  p.andThen fun p => next id (p.note stage feeds id)

section Visit

variable {next : BlockId → Preparation → Preparation}

theorem visitBy_of_mem (h : id ∈ p.visited) : visitBy stage next id p = p := by
  rw [visitBy, if_pos (by simpa using h)]

theorem visitBy_of_missing (hid : id ∉ p.visited) (h : p.graph.get? id = none) :
    visitBy stage next id p = { p with visited := id :: p.visited } := by
  rw [visitBy, if_neg (by simpa using hid)]
  simp only [h]

theorem visitBy_of_get? (hid : id ∉ p.visited) (hb : p.graph.get? id = some block) :
    visitBy stage next id p = (p.meet block).andThen fun p =>
      (((p.resetInputs id).graph.feeders id).foldl (turnBy stage true next)
        (p.resetInputs id)).andThen (·.resetOutputs id) := by
  obtain rfl := id_of_get? hb
  rw [visitBy, if_neg (by simpa using hid)]
  simp only [hb]
  rfl

end Visit

/-- What a walk has to do: visit a block, or visit blocks one after the other. -/
inductive Task where
  | visit (id : BlockId)
  | all (feeds : Bool) (ids : List BlockId)

/-- A walk does its task, with no bound on its steps. -/
inductive Walks (stage : Stage) : Task → Preparation → Preparation → Prop
  | again {id : BlockId} {p : Preparation} : id ∈ p.visited → Walks stage (.visit id) p p
  | missing {id : BlockId} {p : Preparation} : id ∉ p.visited → p.graph.get? id = none →
      Walks stage (.visit id) p { p with visited := id :: p.visited }
  | blocked {id : BlockId} {p : Preparation} {block : Block} : id ∉ p.visited →
      p.graph.get? id = some block → (p.meet block).fault ≠ none →
      Walks stage (.visit id) p (p.meet block)
  | meet {id : BlockId} {p q : Preparation} {block : Block} : id ∉ p.visited →
      p.graph.get? id = some block → (p.meet block).fault = none →
      Walks stage (.all true (((p.meet block).resetInputs id).graph.feeders id))
        ((p.meet block).resetInputs id) q →
      Walks stage (.visit id) p (q.andThen (·.resetOutputs id))
  | nil {feeds : Bool} {p : Preparation} : Walks stage (.all feeds []) p p
  | halted {feeds : Bool} {ids : List BlockId} {p : Preparation} : p.fault ≠ none →
      Walks stage (.all feeds ids) p p
  | next {feeds : Bool} {id : BlockId} {rest : List BlockId} {p q r : Preparation} :
      p.fault = none → Walks stage (.visit id) (p.note stage feeds id) q →
      Walks stage (.all feeds rest) q r → Walks stage (.all feeds (id :: rest)) p r

/-- A task and a beginning have one end. -/
theorem Walks.unique {task : Task} {q' : Preparation} (w : Walks stage task p q)
    (w' : Walks stage task p q') : q' = q := by
  induction w generalizing q' with
  | again hid =>
    cases w' with
    | again => rfl
    | missing hn | blocked hn | meet hn => exact absurd hid hn
  | missing hid hb =>
    cases w' with
    | again h => exact absurd h hid
    | missing => rfl
    | blocked _ hb' | meet _ hb' => cases hb.symm.trans hb'
  | blocked hid hb hf =>
    cases w' with
    | again h => exact absurd h hid
    | missing _ hb' => cases hb.symm.trans hb'
    | blocked _ hb' =>
      cases hb.symm.trans hb'
      rfl
    | meet _ hb' hf' =>
      cases hb.symm.trans hb'
      exact absurd hf' hf
  | meet hid hb hf _ ih =>
    cases w' with
    | again h => exact absurd h hid
    | missing _ hb' => cases hb.symm.trans hb'
    | blocked _ hb' hf' =>
      cases hb.symm.trans hb'
      exact absurd hf hf'
    | meet _ hb' _ w' =>
      cases hb.symm.trans hb'
      rw [ih w']
  | nil => cases w' <;> rfl
  | halted hf =>
    cases w' with
    | nil | halted => rfl
    | next hf' => exact absurd hf' hf
  | next hf _ _ first rest =>
    cases w' with
    | halted hf' => exact absurd hf hf'
    | next _ w w' =>
      cases first w
      exact rest w'

theorem widens_noteCrossing (hp : p.graph.Proper) (stage : Stage) (producer : BlockId) :
    Widens p (p.noteCrossing stage producer) := by
  unfold noteCrossing
  split
  · exact ⟨.refl hp, List.Subset.refl _, subset_pushNew _ _, fun _ _ _ h => h, fun h => h, .refl _⟩
  · exact .refl hp

/-- A property that every step of a walk keeps. -/
structure Stable (stage : Stage) (P : Preparation → Prop) : Prop where
  mark : ∀ {p : Preparation} (id : BlockId), P p → P { p with visited := id :: p.visited }
  meet : ∀ {p : Preparation} {block : Block}, P p → p.graph.get? block.id = some block →
    block.id ∉ p.visited → P (p.meet block)
  resetInputs : ∀ {p : Preparation} (id : BlockId), P p → P (p.resetInputs id)
  resetOutputs : ∀ {p : Preparation} (id : BlockId), P p → P (p.resetOutputs id)
  noteCrossing : ∀ {p : Preparation} (producer : BlockId), P p → P (p.noteCrossing stage producer)

namespace Stable

variable {P : Preparation → Prop}

theorem andThen {f : Preparation → Preparation} (hp : P p) (hf : P (f p)) : P (p.andThen f) := by
  unfold Preparation.andThen
  split
  · exact hp
  · exact hf

theorem note (h : Stable stage P) (feeds : Bool) (id : BlockId) (hp : P p) :
    P (p.note stage feeds id) := by
  cases feeds with
  | true => exact h.noteCrossing id hp
  | false => exact hp

theorem walks {task : Task} (h : Stable stage P) (w : Walks stage task p q) (hp : P p) : P q := by
  induction w with
  | again | nil | halted => exact hp
  | missing => exact h.mark _ hp
  | blocked hid hb =>
    obtain rfl := id_of_get? hb
    exact h.meet hp hb hid
  | meet hid hb _ _ ih =>
    obtain rfl := id_of_get? hb
    have fed := ih (h.resetInputs _ (h.meet hp hb hid))
    exact andThen fed (h.resetOutputs _ fed)
  | next _ _ _ first rest => exact rest (first (h.note _ _ hp))

/-- The walk of a stage keeps the property, also if its bound is reached. -/
theorem walk (h : Stable stage P) (roots : List BlockId)
    (hp : P { p with visited := [], crossing := [] }) : P (p.walk stage roots) := by
  have visits : ∀ (steps : Nat) (id : BlockId) {p : Preparation}, P p →
      P (visit stage steps id p) := by
    intro steps
    induction steps with
    | zero => exact fun _ _ hp => hp
    | succ steps ih =>
      intro id p hp
      change P (visitBy stage (visit stage steps) id p)
      by_cases hid : id ∈ p.visited
      · rwa [visitBy_of_mem hid]
      · cases hb : p.graph.get? id with
        | none =>
          rw [visitBy_of_missing hid hb]
          exact h.mark id hp
        | some block =>
          rw [visitBy_of_get? hid hb]
          obtain rfl := id_of_get? hb
          have met := h.meet hp hb hid
          have fed := List.foldlRecOn (((p.meet block).resetInputs block.id).graph.feeders block.id)
            (turnBy stage true (visit stage steps)) (h.resetInputs block.id met)
            fun _ hq y _ => andThen hq (ih y (h.noteCrossing y hq))
          exact andThen met (andThen fed (h.resetOutputs block.id fed))
  exact List.foldlRecOn _ _ hp fun _ hq root _ => andThen hq (visits _ root hq)

end Stable

theorem stable_widens (stage : Stage) (p : Preparation) : Stable stage (Widens p) where
  mark _ h := h.trans ⟨.refl h.graph.proper, subset_cons_self _ _, List.Subset.refl _,
    fun _ _ _ h => h, fun h => h, .refl _⟩
  meet h hb hid := h.trans (widens_meet h.graph.proper hb hid)
  resetInputs id h := h.trans (widens_resetInputs h.graph.proper id)
  resetOutputs id h := h.trans (widens_resetOutputs h.graph.proper id)
  noteCrossing y h := h.trans (widens_noteCrossing h.graph.proper stage y)

theorem noteCrossing_eq (p : Preparation) (stage : Stage) (producer : BlockId) :
    ∃ crossing, p.noteCrossing stage producer = { p with crossing } := by
  unfold noteCrossing
  split <;> exact ⟨_, rfl⟩

theorem stable_at (hP : Block.Lasting P) (x : BlockId) :
    Stable stage fun p => p.graph.At P x where
  mark _ h := h
  meet h hb _ := at_meet hP hb h
  resetInputs _ h := h.modify _ (by intro; rfl) fun b _ => hP.resetInputs b
  resetOutputs _ h := h.modify _ (by intro; rfl) fun b _ => hP.resetOutputs b
  noteCrossing {p} y h := by
    obtain ⟨_, same⟩ := noteCrossing_eq p stage y
    rw [same]
    exact h

theorem at_walk (hP : Block.Lasting P) (stage : Stage) (roots : List BlockId)
    (h : p.graph.At P x) : (p.walk stage roots).graph.At P x :=
  (stable_at hP x).walk roots h

/-- Whatever becomes of a walk, it only adds leaves behind the blocks that it meets. -/
theorem Walks.widens {task : Task} (w : Walks stage task p q) (hp : p.graph.Proper) : Widens p q :=
  (stable_widens stage p).walks w (.refl hp)

/-- The steps that a visit may take are enough for the chains behind the block, counted in the graph
that a walk started with. The leaves that were added since take one more step. -/
structure Enough (g : Graph) (p : Preparation) (steps : Nat) (id : BlockId) : Prop where
  extension : g.Extends p.graph
  pos : 0 < steps
  depth : ∀ b, p.graph.get? id = some b → b.kind.isInput = false → g.depth id + 2 ≤ steps

/-- What feeds a block has enough steps left. An entry that is gone needs but one. -/
theorem Enough.behind (hg : g.Proper) (h : Enough g p (steps + 1) id) (w : Widens p p')
    (fed : producer ∈ p'.graph.feeders id) (w' : Widens p' p'') : Enough g p'' steps producer := by
  have extension := h.extension.trans w.graph
  obtain ⟨b', hb'⟩ := exists_get?_of_mem_feeders fed
  have hin : b'.kind.isInput = false := by
    by_contra hin
    simp [w.graph.proper.toRegular.feeders_of_isInput hb' (by simpa using hin)] at fed
  obtain ⟨b, hb, same⟩ := w.graph.back hb' hin
  have bound := h.depth b hb ((isInput_of_shape same).symm.trans hin)
  refine ⟨extension.trans w'.graph, by omega, fun c'' hc'' hleaf => ?_⟩
  obtain ⟨c', hc', same⟩ := w'.graph.back hc'' hleaf
  have hup := upstream_of_mem_feeders fed (mem_ids_iff.mpr ⟨c', hc'⟩)
  rcases extension.edges id producer hup with hold | ⟨d, hd, hd'⟩
  · have := depth_lt hg.coherent hg.acyclic hold
    omega
  · cases hc'.symm.trans hd
    rw [isInput_of_shape same, hd'] at hleaf
    cases hleaf

/-- Blocks are visited one after the other by whatever visits each of them. -/
theorem exists_walks_foldl {ι : Type} {next : ι → BlockId → Preparation → Preparation}
    {ids : List BlockId} (feeds : Bool) (hp : p.graph.Proper)
    (sub : ∀ y ∈ ids, ∀ q, Widens p q →
      ∃ r, (∀ n, next n y q = r) ∧ Walks stage (.visit y) q r) :
    ∃ r, (∀ n, ids.foldl (turnBy stage feeds (next n)) p = r) ∧
      Walks stage (.all feeds ids) p r := by
  induction ids generalizing p with
  | nil => exact ⟨p, fun _ => rfl, .nil⟩
  | cons y rest ih =>
    rw [forall_mem_cons] at sub
    by_cases hf : p.fault = none
    · have noted := (stable_widens stage p).note feeds y (.refl hp)
      obtain ⟨q, same, first⟩ := sub.1 _ noted
      have w := noted.trans (first.widens noted.graph.proper)
      obtain ⟨r, same', others⟩ := ih w.graph.proper fun z hz q hq => sub.2 z hz q (w.trans hq)
      refine ⟨r, fun n => ?_, .next hf first others⟩
      rw [foldl_cons, turnBy, andThen_of_clear hf, same]
      exact same' n
    · refine ⟨p, fun n => ?_, .halted hf⟩
      refine List.foldlRecOn (motive := (· = p)) _ _ rfl fun q same _ _ => ?_
      subst same
      exact andThen_of_faulty hf

/-- With enough steps a visit does its task, whatever stands beyond the bound. -/
theorem iterate_walks (hg : g.Proper) (hp : p.graph.Proper) (enough : Enough g p steps id) :
    ∃ q, (∀ beyond, (visitBy stage)^[steps] beyond id p = q) ∧ Walks stage (.visit id) p q := by
  induction steps generalizing id p with
  | zero => exact absurd enough.pos (Nat.lt_irrefl 0)
  | succ steps ih =>
    simp only [Function.iterate_succ_apply']
    by_cases hid : id ∈ p.visited
    · exact ⟨p, fun _ => visitBy_of_mem hid, .again hid⟩
    · cases hb : p.graph.get? id with
      | none => exact ⟨_, fun _ => visitBy_of_missing hid hb, .missing hid hb⟩
      | some block =>
        have met := widens_meet hp (id_of_get? hb ▸ hb) (id_of_get? hb ▸ hid)
        have reset := widens_resetInputs met.graph.proper id
        obtain ⟨q, same, behind⟩ := exists_walks_foldl true reset.graph.proper
          fun y hy q hq => ih hq.graph.proper
            (enough.behind hg (met.trans reset) hy hq)
        by_cases hf : (p.meet block).fault = none
        · refine ⟨_, fun beyond => ?_, .meet hid hb hf behind⟩
          rw [visitBy_of_get? hid hb, andThen_of_clear hf, same]
        · refine ⟨_, fun beyond => ?_, .blocked hid hb hf⟩
          rw [visitBy_of_get? hid hb, andThen_of_faulty hf]

/-- The walk of one stage, with something beyond the bound. -/
def walkBy (stage : Stage) (beyond : BlockId → Preparation → Preparation) (roots : List BlockId)
    (p : Preparation) : Preparation :=
  roots.foldl (fun p root =>
      p.andThen fun p => (visitBy stage)^[p.graph.blocks.length + 2] beyond root p)
    { p with visited := [], crossing := [] }

/-- The walk of a stage does its task and does not get beyond its bound: no chain of feeding blocks
is longer than the graph, one added leaf included. -/
theorem walks_walk (stage : Stage) (roots : List BlockId) (hp : p.graph.Proper) :
    Walks stage (.all false roots) { p with visited := [], crossing := [] } (p.walk stage roots) ∧
      ∀ beyond, p.walkBy stage beyond roots = p.walk stage roots := by
  have each : ∀ root ∈ roots, ∀ q : Preparation, Widens { p with visited := [], crossing := [] } q →
      ∃ r, (∀ beyond, (visitBy stage)^[q.graph.blocks.length + 2] beyond root q = r) ∧
        Walks stage (.visit root) q r := by
    intro root _ q hq
    refine iterate_walks hq.graph.proper hq.graph.proper
      ⟨.refl hq.graph.proper, by omega, fun b hb _ => ?_⟩
    have := depth_lt_length hq.graph.proper.acyclic (mem_ids_iff.mpr ⟨b, hb⟩)
    omega
  obtain ⟨q, same, walks⟩ :=
    exists_walks_foldl (p := { p with visited := [], crossing := [] }) false hp each
  have bounded : p.walk stage roots = q := by
    refine Eq.trans ?_ (same fun _ p => p)
    unfold walk
    simp only [visit_eq_iterate]
    rfl
  exact ⟨bounded ▸ walks, fun beyond => (same beyond).trans bounded.symm⟩

theorem mem_noteCrossing (h : x ∈ (p.noteCrossing stage producer).crossing) :
    x ∈ p.crossing ∨ (x = producer ∧ ∃ b, p.graph.get? x = some b ∧
      (b.target = .vertexAndFragment ∨ stage = .fragment ∧ b.target = .vertex)) := by
  unfold noteCrossing at h
  split at h
  · rename_i hcrossing
    rcases mem_pushNew.mp h with hold | rfl
    · exact .inl hold
    · refine .inr ⟨rfl, ?_⟩
      unfold isCrossing at hcrossing
      cases hb : p.graph.get? x with
      | none => simp [hb] at hcrossing
      | some b =>
        refine ⟨b, rfl, ?_⟩
        simp only [hb, Bool.or_eq_true, Bool.and_eq_true, beq_iff_eq] at hcrossing
        exact hcrossing.imp_right fun h => h.1
  · exact .inl h

theorem note_eq (p : Preparation) (stage : Stage) (feeds : Bool) (id : BlockId) :
    ∃ crossing, p.note stage feeds id = { p with crossing } := by
  cases feeds with
  | true => exact noteCrossing_eq p stage id
  | false => exact ⟨p.crossing, rfl⟩

theorem noted_noteCrossing (p : Preparation) (stage : Stage) (producer : BlockId) :
    (p.noteCrossing stage producer).Noted producer := by
  intro b hb htarget
  obtain ⟨_, same⟩ := noteCrossing_eq p stage producer
  rw [same] at hb
  have crosses : p.isCrossing stage producer = true := by
    simp [isCrossing, show p.graph.get? producer = some b from hb, htarget]
  rw [noteCrossing, if_pos crosses]
  exact mem_pushNew.mpr (.inr rfl)

theorem Covers.of_note {feeds : Bool} (h : Covers stage (p.note stage feeds id) q)
    (w : Widens p q) (hmem : id ∈ q.visited) : Covers stage p q := by
  obtain ⟨crossing, same⟩ := note_eq p stage feeds id
  have visited : (p.note stage feeds id).visited = p.visited := by rw [same]
  refine ⟨fun x hx hn => h.closed x hx (visited ▸ hn), fun x hx hn => h.plain x hx (visited ▸ hn),
    fun x hx => ?_⟩
  rcases h.crossing x hx with hx | hdone
  · cases feeds with
    | false => exact .inl hx
    | true =>
      rcases mem_noteCrossing hx with hold | ⟨rfl, b, hb, htarget⟩
      · exact .inl hold
      · obtain ⟨b', hb', hshape⟩ := w.graph.blocks x b hb
        exact .inr ⟨hmem, b', hb', by rw [target_of_shape hshape]; exact htarget⟩
  · exact .inr hdone

def Task.ids : Task → List BlockId
  | .visit id => [id]
  | .all _ ids => ids

def Task.feeds : Task → Bool
  | .visit _ => false
  | .all feeds _ => feeds

/-- A walk that does its task without a fault covers what it meets. -/
theorem Walks.covers {task : Task} (w : Walks stage task p q) (hp : p.graph.Proper)
    (hf : q.fault = none) : Covers stage p q ∧ ∀ y ∈ task.ids, y ∈ q.visited ∧
      (task.feeds = true → y ∈ p.graph.ids → q.Noted y) := by
  induction w with
  | again hid =>
    refine ⟨.of_same rfl rfl, fun y hy => ⟨?_, nofun⟩⟩
    rwa [mem_singleton.mp hy]
  | @missing id p hid hb =>
    have only : ∀ x ∈ id :: p.visited, x ∉ p.visited → x = id :=
      fun x hx hn => (mem_cons.mp hx).resolve_right hn
    refine ⟨⟨?_, ?_, fun x hx => .inl hx⟩, fun y hy => ⟨?_, nofun⟩⟩
    · intro x hx hn y hxy
      obtain rfl := only x hx hn
      exact absurd hxy.mem_ids (get?_eq_none_iff.mp hb)
    · intro x hx hn b hb'
      obtain rfl := only x hx hn
      cases hb.symm.trans hb'
    · exact mem_singleton.mp hy ▸ mem_cons_self
  | blocked _ _ blocked => exact absurd hf blocked
  | @meet id p q block hid hb _ w ih =>
    obtain rfl := id_of_get? hb
    have met := widens_meet hp hb hid
    have reset := widens_resetInputs met.graph.proper block.id
    have fed := w.widens reset.graph.proper
    have last := widens_resetOutputs fed.graph.proper block.id
    have after := fed.trans last
    -- without a fault the outputs were reset
    have carried := andThen_of_fault hf
    rw [carried] at hf ⊢
    obtain ⟨hcovers, hall⟩ := ih reset.graph.proper hf
    have here : block.id ∈ ((p.meet block).resetInputs block.id).visited := by
      change block.id ∈ (p.meet block).visited
      rw [visited_meet]
      exact mem_cons_self
    have plain (x) : Stable stage fun p => p.graph.Plain x := stable_at Block.lasting_plain x
    refine ⟨(hcovers.trans (covers_resetOutputs _ _) fed.graph.proper last
      fun x => (plain x).resetOutputs _).of_met (visited_meet p block) (crossing_meet p block)
      (fun y hy => ?_) ((plain _).resetOutputs _ ((plain _).walks w (plain_resetInputs _ _))),
      fun y hy => ⟨?_, nofun⟩⟩
    · have hup := after.frame block.id y (.inl here) hy
      have apart : y ≠ block.id := by
        rintro rfl
        exact reset.graph.proper.acyclic _ (.single hup)
      have there := reset.graph.proper.coherent.mem_ids_of_upstream hup
      obtain ⟨hmem, noted⟩ := hall y (mem_feeders_of_upstream hup apart)
      exact ⟨last.visited hmem, (noted rfl there).widens last (fed.mem_ids there)⟩
    · rw [mem_singleton.mp hy]
      exact after.visited here
  | nil => exact ⟨.of_same rfl rfl, nofun⟩
  | halted faulty => exact absurd hf faulty
  | @next feeds id rest p q r _ w w' first others =>
    have noted := (stable_widens stage p).note feeds id (.refl hp)
    have walked := w.widens noted.graph.proper
    have turned := noted.trans walked
    have onward := w'.widens turned.graph.proper
    obtain ⟨hcovers, here⟩ := first noted.graph.proper (onward.fault hf)
    obtain ⟨hrest, hall⟩ := others turned.graph.proper hf
    have hmem := (here id mem_cons_self).1
    refine ⟨(hcovers.of_note turned hmem).trans hrest turned.graph.proper onward
      fun x => (stable_at Block.lasting_plain x).walks w', fun y hy => ?_⟩
    rcases mem_cons.mp hy with rfl | hy
    · refine ⟨onward.visited hmem, fun feeds hid => ?_⟩
      cases feeds
      have crosses := (noted_noteCrossing p stage y).widens walked (noted.mem_ids hid)
      exact crosses.widens onward (turned.mem_ids hid)
    · exact (hall y hy).imp_right fun noted feeds hid => noted feeds (turned.mem_ids hid)

/-! ## 6. Walks -/

/-- What a walk leaves behind, whether or not it meets a fault. -/
theorem widens_walk (stage : Stage) (roots : List BlockId) (hp : p.graph.Proper) :
    Widens { p with visited := [], crossing := [] } (p.walk stage roots) :=
  (walks_walk stage roots hp).1.widens hp

/-- A walk without a fault meets everything behind its roots, notes what feeds a block and belongs
to both stages, and leaves no input reading a varying. -/
structure Covered (stage : Stage) (roots : List BlockId) (p : Preparation) : Prop where
  roots : ∀ root ∈ roots, root ∈ p.visited
  closed : ∀ x ∈ p.visited, ∀ y, p.graph.Upstream x y → y ∈ p.visited ∧ p.Noted y
  plain : ∀ x ∈ p.visited, p.graph.Plain x
  crossing : ∀ x ∈ p.crossing, x ∈ p.visited ∧
    ∃ b, p.graph.get? x = some b ∧
      (b.target = .vertexAndFragment ∨ stage = .fragment ∧ b.target = .vertex)

theorem covered_walk {roots : List BlockId} (hp : p.graph.Proper)
    (hf : (p.walk stage roots).fault = none) : Covered stage roots (p.walk stage roots) := by
  obtain ⟨hcovers, hall⟩ := (walks_walk stage roots hp).1.covers hp hf
  exact ⟨fun root hroot => (hall root hroot).1, fun x hx => hcovers.closed x hx not_mem_nil,
    fun x hx => hcovers.plain x hx not_mem_nil,
    fun x hx => (hcovers.crossing x hx).resolve_left not_mem_nil⟩

end Preparation

end ShaderGraph
