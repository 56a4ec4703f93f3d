import ShaderGraph.Proofs.Outline

/-!
# Graphs as the operations leave them

A graph is proper if it is regular and its counter is ahead of all its identities. Every operation
keeps this: what it does to links and teleports is known from `Coherent` and `Acyclic`, the sockets
of a block stay those of its kind because no operation touches the shape of a block.

`Declared` adds the types: outputs are declared as the kinds of their blocks declare them, and an
input takes what it is linked to. Operations keep this too, as long as nobody writes the settings
that decide the outputs of a kind.
-/

namespace ShaderGraph

open List Option Nat Block

/-! ## 1. Shapes -/

namespace Block

/-- What a block is made of, links and symbols aside. -/
structure Shape where
  traits : Kind.Traits
  /-- The outputs that the kind declares. -/
  declared : List SocketSpec
  target : Target
  inputs : List SocketSpec
  outputs : List SocketSpec

def shape (b : Block) : Shape where
  traits := b.kind.traits
  declared := b.kind.outputs
  target := b.target
  inputs := b.inputs.map InputSocket.spec
  outputs := b.outputs.map OutputSocket.spec

variable {b b' : Block}

theorem isInput_of_shape (h : b'.shape = b.shape) : b'.kind.isInput = b.kind.isInput :=
  congrArg (fun s => s.traits.isInput) h

theorem target_of_shape (h : b'.shape = b.shape) : b'.target = b.target :=
  congrArg Shape.target h

theorem isFog_of_shape (h : b'.shape = b.shape) : b'.kind.isFog = b.kind.isFog := by
  have target : b'.kind.target = b.kind.target := target_of_shape h
  rw [Bool.eq_iff_iff, Kind.isFog_iff, Kind.isFog_iff, isInput_of_shape h, target]

theorem shape_of_outline (h : b'.outline = b.outline) : b'.shape = b.shape := by
  have inputs : b'.inputs.map InputSocket.spec = b.inputs.map InputSocket.spec := by
    have same := congrArg (fun o => o.inputs.map Prod.fst) h
    simpa [outline, Function.comp_def] using same
  have outputs : b'.outputs.map OutputSocket.spec = b.outputs.map OutputSocket.spec := by
    have same := congrArg (fun o => o.outputs.map Prod.fst) h
    simpa [outline, Function.comp_def] using same
  have traits : b'.kind.traits = b.kind.traits := congrArg Outline.traits h
  have declared : b'.kind.outputs = b.kind.outputs := congrArg Outline.declared h
  simp only [shape, traits, declared, target_of_outline h, inputs, outputs]

theorem Fitted.of_shape (hb : b.Fitted) (h : b'.shape = b.shape) : b'.Fitted where
  inputs := by
    have declared : b'.kind.inputs = b.kind.inputs := congrArg (fun s => s.traits.inputs) h
    have specs : b'.inputs.map InputSocket.spec = b.inputs.map InputSocket.spec :=
      congrArg Shape.inputs h
    rw [declared, specs, hb.inputs]
  outputs := by
    have declared : b'.kind.outputs.map SocketSpec.name = b.kind.outputs.map SocketSpec.name :=
      congrArg (fun s => s.traits.outputs) h
    have specs : (b'.outputs.map fun p => p.spec.name) = b.outputs.map fun p => p.spec.name := by
      have same := congrArg (fun s => s.outputs.map SocketSpec.name) h
      simpa [shape, Function.comp_def] using same
    rw [declared, specs, hb.outputs]

theorem unjoined_shape : Unjoined shape where
  setLink b i _ :=
    congrArg (fun inputs => { b.shape with inputs })
      (map_modify_of_keeps b.inputs i (by intro; rfl))
  modifyOutput b i _ keeps :=
    congrArg (fun outputs => { b.shape with outputs }) (map_modify_of_keeps b.outputs i keeps)

theorem shape_setTeleportEntry (b : Block) (entry : Option BlockId) :
    ({ b with kind := b.kind.setTeleportEntry entry } : Block).shape = b.shape := by
  cases hk : b.kind with
  | teleportOut t =>
    simp only [shape, target, hk, Kind.setTeleportEntry]
    rfl
  | _ => simp only [shape, target, hk, Kind.setTeleportEntry]

end Block

namespace Graph

variable {g g' : Graph} {id out x : BlockId} {s t : SocketRef}

theorem map_shape_withEntry (g : Graph) (out : BlockId) (entry : Option BlockId) (x : BlockId) :
    ((g.withEntry out entry).get? x).map shape = (g.get? x).map shape :=
  map_get?_modify g out (by intro; rfl) (fun b => b.shape_setTeleportEntry entry) x

theorem map_shape_detach (g : Graph) (b : Block) (x : BlockId) :
    ((g.detach b).get? x).map shape = (g.get? x).map shape := by
  rw [detach_eq, map_get?_dropEntries _ _ _ fun b => b.shape_setTeleportEntry none,
    map_dropAll unjoined_shape]

theorem shapes_of_map (h : ∀ x, (g'.get? x).map shape = (g.get? x).map shape)
    (x : BlockId) (b' : Block) (hb' : g'.get? x = some b') :
    ∃ b, g.get? x = some b ∧ b'.shape = b.shape := by
  have same := h x
  rw [hb', map_some] at same
  obtain ⟨b, hb, heq⟩ := map_eq_some_iff.mp same.symm
  exact ⟨b, hb, heq.symm⟩

theorem fitted_of_shapes
    (h : ∀ x, (g'.get? x).map shape = (g.get? x).map shape)
    (hg : ∀ x b, g.get? x = some b → b.Fitted) (x : BlockId) (b' : Block)
    (hb' : g'.get? x = some b') : b'.Fitted := by
  obtain ⟨b, hb, same⟩ := shapes_of_map h x b' hb'
  exact (hg x b hb).of_shape same

/-! ## 2. Proper graphs -/

theorem forall_entry_of_free {kind : Kind} {A : BlockId → Prop} (free : kind.teleportEntry = none) :
    ∀ e ∈ kind.teleportEntry, A e := by
  simp [free]

/-- A regular graph whose counter is ahead of all its identities, and of the entries that its
teleports name, which may be gone. -/
structure Proper (g : Graph) : Prop extends Regular g where
  numbered : ∀ x ∈ g.ids, x.index < g.nextId
  handed : ∀ x e, g.origin? x = some e → e.index < g.nextId

/-- The identity has been handed out. -/
def Handed (g : Graph) (e : BlockId) : Prop := e.index < g.nextId

/-- The identity has been handed out, and is that of an entry unless the block is gone. -/
def Recalls (g : Graph) (e : BlockId) : Prop := g.Handed e ∧ (e ∈ g.ids → g.isEntry e = true)

namespace Proper

variable {kind : Kind}

theorem empty (n : Nat) : ({ nextId := n } : Graph).Proper where
  coherent := ⟨nodup_nil, nofun, nofun⟩
  acyclic := acyclic_empty.mono fun _ _ h => h
  fitted _ _ h := nomatch h
  numbered _ h := nomatch h
  handed _ _ h := nomatch h

section

variable (hg : g.Proper)
include hg

theorem fresh : g.freshId ∉ g.ids :=
  fun h => lt_irrefl _ (hg.numbered _ h)

theorem isFresh (known : ∀ e ∈ kind.teleportEntry, g.Handed e) : g.IsFresh g.freshId kind :=
  ⟨hg.fresh, fun x _ h => lt_irrefl _ (hg.handed x _ h), fun h => lt_irrefl _ (known _ h)⟩

/-- A change to what outlines leave out. The counter may run ahead. -/
theorem of_outlines (h : g'.outlines = g.outlines) (counter : g.nextId ≤ g'.nextId) :
    g'.Proper where
  toRegular := hg.toRegular.of_outlines h
  numbered x hx := by
    rw [ids_of_outlines h] at hx
    exact lt_of_lt_of_le (hg.numbered x hx) counter
  handed x e he := by
    rw [origin?_of_outlines h] at he
    exact lt_of_lt_of_le (hg.handed x e he) counter

theorem insert (name : String) (known : ∀ e ∈ kind.teleportEntry, g.Handed e) :
    (g.insert name kind).Proper where
  coherent := hg.coherent.insert hg.fresh name kind
  acyclic := hg.acyclic.insert hg.coherent (hg.isFresh known) name
  fitted x b hb := by
    rw [get?_insert] at hb
    cases hx : g.get? x with
    | some c =>
      rw [hx] at hb
      obtain rfl := Option.some.inj hb
      exact hg.fitted x c hx
    | none =>
      rw [hx] at hb
      split at hb
      · cases hb
        exact fitted_new _ _ _
      · cases hb
  numbered x hx := by
    rw [ids_insert, mem_append, mem_singleton] at hx
    rcases hx with hx | rfl
    · exact lt_succ_of_lt (hg.numbered x hx)
    · exact lt_succ_self _
  handed x e he := by
    rw [origin?_insert hg.fresh] at he
    split at he
    · exact lt_succ_of_lt (known e he)
    · exact lt_succ_of_lt (hg.handed x e he)

theorem entered_insert (entered : g.Entered) (name : String)
    (recalls : ∀ e ∈ kind.teleportEntry, g.Recalls e) : (g.insert name kind).Entered := by
  intro x e loose
  rw [ids_insert, mem_append, mem_singleton, not_or]
  rcases loose.of_insert hg.fresh with old | ⟨-, held⟩
  · exact ⟨entered x e old, fun same => lt_irrefl _ (same ▸ hg.handed x e old.1)⟩
  · refine ⟨fun there => ?_, fun same => lt_irrefl _ (same ▸ (recalls e held).1)⟩
    exact nomatch loose.2.symm.trans (isEntry_insert name kind ((recalls e held).2 there))

theorem connect (h : g.connect s t = .ok g') : g'.Proper := by
  obtain ⟨⟨output, input, hl⟩, -, rfl⟩ := connect_eq_ok_iff.mp h
  exact
    { coherent := hg.coherent.link hl
      acyclic := hg.acyclic.connect h
      fitted := fitted_of_shapes (map_link unjoined_shape g s t) hg.fitted
      numbered := by
        rw [ids_link]
        exact hg.numbered
      handed x e he := by
        rw [origin?_congr (map_link .of_kind g s t x)] at he
        exact hg.handed x e he }

theorem disconnect (h : g.disconnect t = .ok g') : g'.Proper := by
  rcases disconnect_eq_ok h with rfl | ⟨s, hs, rfl⟩
  · exact hg
  · exact
      { coherent := hg.coherent.cut hs
        acyclic := hg.acyclic.mono fun _ _ => upstream_of_cut
        fitted := fitted_of_shapes (map_cut unjoined_shape g s t) hg.fitted
        numbered := by
          rw [ids_cut]
          exact hg.numbered
        handed x e he := by
          rw [origin?_congr (map_cut .of_kind g s t x)] at he
          exact hg.handed x e he }

theorem setTeleportEntry {entry : Option BlockId} (h : g.setTeleportEntry out entry = .ok g') :
    g'.Proper := by
  have acyclic := hg.acyclic.setTeleportEntry h
  obtain ⟨⟨b, hb, hall⟩, rfl⟩ := setTeleportEntry_eq_ok_iff.mp h
  exact
    { coherent := hg.coherent.withEntry out entry
      acyclic := acyclic
      fitted := fitted_of_shapes (g.map_shape_withEntry out entry) hg.fitted
      numbered := by
        rw [ids_withEntry]
        exact hg.numbered
      handed x e he := by
        rcases origin?_withEntry_eq_some he with ⟨-, new⟩ | ⟨-, old⟩
        · obtain ⟨c, hc, -⟩ := isEntry_iff.mp (hall e new).2.1
          exact hg.numbered e (mem_ids_iff.mpr ⟨c, hc⟩)
        · exact hg.handed x e old }

end

theorem nextId_remove (g : Graph) (id : BlockId) : (g.remove id).1.nextId = g.nextId := by
  rcases g.remove_eq id with ⟨-, same⟩ | ⟨b, -, removed⟩
  · rw [same]
  · rw [removed, detach_eq]
    have links : ∀ (g : Graph) (e : SocketRef), (dropLink g e).nextId = g.nextId := fun _ _ => rfl
    have endpoints : ∀ (g : Graph) (at_ : InputSocket × Nat),
        (dropEndpoint b.id g at_).nextId = g.nextId := by
      intro g at_
      unfold dropEndpoint
      split <;> rfl
    exact (foldl_view Graph.nextId links _ _).trans (foldl_view Graph.nextId endpoints _ _)

theorem shapes_remove (g : Graph) (id x : BlockId) (b' : Block)
    (hb' : (g.remove id).1.get? x = some b') : ∃ b, g.get? x = some b ∧ b'.shape = b.shape := by
  rcases g.remove_eq id with ⟨-, same⟩ | ⟨b, -, removed⟩
  · rw [same] at hb'
    exact ⟨b', hb', rfl⟩
  · rw [removed] at hb'
    obtain ⟨c, hc, same⟩ := shapes_of_map (map_shape_detach _ b) x b' hb'
    rw [get?_without] at hc
    split at hc
    · cases hc
    · exact ⟨c, hc, same⟩

theorem remove (hg : g.Proper) (id : BlockId) : (g.remove id).1.Proper where
  coherent := hg.coherent.remove id
  acyclic := hg.acyclic.mono fun _ _ => hg.coherent.upstream_of_remove
  fitted x b' hb' := by
    obtain ⟨b, hb, same⟩ := shapes_remove g id x b' hb'
    exact (hg.fitted x b hb).of_shape same
  numbered x hx := by
    rw [Coherent.ids_remove] at hx
    rw [nextId_remove]
    exact hg.numbered x (mem_of_mem_filter hx)
  handed x e he := by
    rw [nextId_remove]
    exact hg.handed x e (Coherent.origin?_remove_eq_some he).2

end Proper

/-! ## 3. Sockets as declared -/

def outputSpec? (g : Graph) (s : SocketRef) : Option SocketSpec :=
  (g.output? s).map OutputSocket.spec

def inputSpec? (g : Graph) (r : SocketRef) : Option SocketSpec := (g.input? r).map InputSocket.spec

/-- Blocks have the outputs that their kinds declare, and links fit what their sockets declare. -/
structure Declared (g : Graph) : Prop where
  outputs : ∀ x b, g.get? x = some b → b.outputs.map OutputSocket.spec = b.kind.outputs
  fits : ∀ r s o i, g.source? r = some s → g.outputSpec? s = some o → g.inputSpec? r = some i →
    o.type.isConcrete = true → i.accepts o.type = true

section Declarations

variable {o i : SocketSpec}
  (shapes : ∀ x b', g'.get? x = some b' → ∃ b, g.get? x = some b ∧ b'.shape = b.shape)
include shapes

theorem outputSpec?_of_shapes (h : g'.outputSpec? s = some o) : g.outputSpec? s = some o := by
  obtain ⟨p', hp', rfl⟩ := map_eq_some_iff.mp h
  obtain ⟨b', hb', hi⟩ := output?_eq_some_iff.mp hp'
  obtain ⟨b, hb, same⟩ := shapes _ _ hb'
  have specs := congrArg (fun shape => shape.outputs[s.index]?) same
  simp only [shape, getElem?_map, hi, map_some] at specs
  obtain ⟨p, hp, hspec⟩ := map_eq_some_iff.mp specs.symm
  rw [outputSpec?, output?_eq_some_iff.mpr ⟨b, hb, hp⟩, map_some, hspec]

theorem inputSpec?_of_shapes (h : g'.inputSpec? r = some i) : g.inputSpec? r = some i := by
  obtain ⟨p', hp', rfl⟩ := map_eq_some_iff.mp h
  obtain ⟨b', hb', hi⟩ := input?_eq_some_iff.mp hp'
  obtain ⟨b, hb, same⟩ := shapes _ _ hb'
  have specs := congrArg (fun shape => shape.inputs[r.index]?) same
  simp only [shape, getElem?_map, hi, map_some] at specs
  obtain ⟨p, hp, hspec⟩ := map_eq_some_iff.mp specs.symm
  rw [inputSpec?, input?_eq_some_iff.mpr ⟨b, hb, hp⟩, map_some, hspec]

theorem Declared.of_shapes (hg : g.Declared)
    (sources : ∀ r s o i, g'.source? r = some s → g.outputSpec? s = some o →
      g.inputSpec? r = some i → g.source? r = some s ∨
        (o.type.isConcrete = true → i.accepts o.type = true)) : g'.Declared where
  outputs x b' hb' := by
    obtain ⟨b, hb, same⟩ := shapes x b' hb'
    have declared : b'.kind.outputs = b.kind.outputs := congrArg Block.Shape.declared same
    rw [declared, ← hg.outputs x b hb]
    exact congrArg Block.Shape.outputs same
  fits r s o i hr ho hi := by
    have ho' := outputSpec?_of_shapes shapes ho
    have hi' := inputSpec?_of_shapes shapes hi
    rcases sources r s o i hr ho' hi' with old | fits
    · exact hg.fits r s o i old ho' hi'
    · exact fits

end Declarations

namespace Declared

theorem empty (n : Nat) : ({ nextId := n } : Graph).Declared where
  outputs _ _ h := nomatch h
  fits _ _ _ _ h := nomatch h

variable (hg : g.Declared)
include hg

theorem of_outlines (h : g'.outlines = g.outlines) : g'.Declared := by
  refine hg.of_shapes (fun x b' hb' => ?_) fun r s _ _ hr _ _ => .inl ?_
  · obtain ⟨b, hb, same⟩ := exists_get?_of_outlines h.symm hb'
    exact ⟨b, hb, (shape_of_outline same).symm⟩
  · rw [← source?_of_outlines h]
    exact hr

theorem insert (hc : g.Coherent) (name : String) (kind : Kind) : (g.insert name kind).Declared where
  outputs x b hb := by
    rw [get?_insert] at hb
    cases hx : g.get? x with
    | some c =>
      rw [hx] at hb
      obtain rfl := Option.some.inj hb
      exact hg.outputs x c hx
    | none =>
      rw [hx] at hb
      split at hb
      · cases hb
        simp [new, Function.comp_def]
      · cases hb
  fits r s o i hr ho hi := by
    rw [source?_insert] at hr
    -- both ends of a link were there before
    obtain ⟨output, hout, -⟩ := hc.exists_output hr
    obtain ⟨input, hin, -⟩ := source?_eq_some_iff.mp hr
    obtain ⟨p, hp, -⟩ := output?_eq_some_iff.mp hout
    obtain ⟨c, hcon, -⟩ := input?_eq_some_iff.mp hin
    refine hg.fits r s o i hr ?_ ?_
    · rw [outputSpec?, output?, get?_insert, hp] at ho
      rw [outputSpec?, output?, hp]
      exact ho
    · rw [inputSpec?, input?, get?_insert, hcon] at hi
      rw [inputSpec?, input?, hcon]
      exact hi

theorem connect (h : g.connect s t = .ok g') : g'.Declared := by
  obtain ⟨⟨output, input, hl⟩, -, rfl⟩ := connect_eq_ok_iff.mp h
  refine hg.of_shapes (shapes_of_map (map_link unjoined_shape g s t)) fun r s' o i hr ho hi => ?_
  rw [source?_link hl.input_eq] at hr
  split at hr
  · rename_i same
    cases hr
    rw [same, inputSpec?, hl.input_eq] at hi
    rw [outputSpec?, hl.output_eq] at ho
    cases hi
    cases ho
    exact .inr hl.fits
  · exact .inl hr

theorem disconnect (h : g.disconnect t = .ok g') : g'.Declared := by
  rcases disconnect_eq_ok h with rfl | ⟨s, -, rfl⟩
  · exact hg
  · refine hg.of_shapes (shapes_of_map (map_cut unjoined_shape g s t))
      fun r s' _ _ hr _ _ => .inl ?_
    rw [source?_cut] at hr
    split at hr
    · cases hr
    · exact hr

theorem setTeleportEntry {entry : Option BlockId} (h : g.setTeleportEntry out entry = .ok g') :
    g'.Declared := by
  obtain ⟨-, rfl⟩ := setTeleportEntry_eq_ok_iff.mp h
  have shapes := shapes_of_map (g.map_shape_withEntry out entry)
  refine hg.of_shapes shapes fun r s _ _ hr _ _ => .inl ?_
  rw [source?_withEntry] at hr
  exact hr

theorem remove (hc : g.Coherent) (id : BlockId) : (g.remove id).1.Declared :=
  hg.of_shapes (Proper.shapes_remove g id) fun _ _ _ _ hr _ _ =>
    .inl ((hc.source?_remove_iff id).mp hr).2.2

end Declared

end Graph

end ShaderGraph
