import ShaderGraph.Proofs.Leftovers
import ShaderGraph.Proofs.Saving

/-!
# Wishes are fulfilled once

The walks of a pass add input blocks and link them, as the kinds of the blocks that they meet wish.
A graph that has grown in this way (`Graph.Grown`) keeps its blocks in their places, and its links.
So a wish that was refused is refused for good (`Graph.Denies`), and a block that was met has no
wish left that would still be granted (`Graph.Content`). From then on no walk changes its links
(`Preparation.Settles`).
-/

namespace ShaderGraph

open Relation List ShaderGraph.Graph Option Block Kind Bool

/-! ## 1. Graphs that have grown -/

namespace Block

variable {b b' : Block}

/-- A block without leftovers and without links. -/
def stem (b : Block) : Block :=
  { b with
    kind := b.kind.bare
    inputs := b.inputs.map fun p => { spec := p.spec }
    outputs := b.outputs.map fun p => { spec := p.spec }
    builtIn := none }

/-- The block is an input that satisfies the wish. -/
def serves (source : AutoSource) (b : Block) : Bool :=
  match b.kind with
  | .input i => i.satisfies b.name source
  | _ => false

theorem stem_of_bare (h : b'.bare = b.bare) : b'.stem = b.stem := by
  have view : ∀ b : Block, b.stem = { b.bare with
      inputs := b.bare.inputs.map fun p => { spec := p.spec }
      outputs := b.bare.outputs.map fun p => { spec := p.spec } } := by
    intro b
    simp only [stem, bare, List.map_map]
    rfl
  rw [view, view, h]

theorem stem_setLink (b : Block) (i : Nat) (link : Option SocketRef) :
    (b.setLink i link).stem = b.stem :=
  congrArg (fun inputs => ({ b.stem with inputs } : Block))
    (map_modify_of_keeps b.inputs i (by intro; rfl))

theorem stem_addEndpoint (b : Block) (i : Nat) (endpoint : SocketRef) :
    (b.addEndpoint i endpoint).stem = b.stem :=
  congrArg (fun outputs => ({ b.stem with outputs } : Block))
    (map_modify_of_keeps b.outputs i (by intro; rfl))

section

variable (h : b'.stem = b.stem)
include h

theorem bare_kind_of_stem : b'.kind.bare = b.kind.bare := congrArg Block.kind h

theorem inputs_of_stem : b'.inputs.map InputSocket.spec = b.inputs.map InputSocket.spec := by
  have same := congrArg (fun b : Block => b.inputs.map InputSocket.spec) h
  simp only [stem, List.map_map] at same
  exact same

theorem outputs_of_stem : b'.outputs.map OutputSocket.spec = b.outputs.map OutputSocket.spec := by
  have same := congrArg (fun b : Block => b.outputs.map OutputSocket.spec) h
  simp only [stem, List.map_map] at same
  exact same

theorem entry_of_stem : b'.kind.teleportEntry = b.kind.teleportEntry := by
  rw [← b'.kind.alike_bare.entry, bare_kind_of_stem h, b.kind.alike_bare.entry]

end

end Block

namespace Graph

variable {g g' g'' : Graph} {id x s : BlockId} {b : Block} {wish : AutoConnect}
  {source : AutoSource}

def stems (g : Graph) : List Block := g.blocks.map Block.stem

theorem stems_of_bare (h : g'.bare = g.bare) : g'.stems = g.stems := by
  have view : ∀ g : Graph, g.stems = g.bare.stems := by
    intro g
    simp only [stems, bare, List.map_map]
    exact List.map_congr_left fun b _ => (Block.stem_of_bare (by
      simp only [Block.bare, List.map_map]
      cases b.kind <;> rfl)).symm
  rw [view g', h, ← view g]

theorem stems_modify (g : Graph) (id : BlockId) {f : Block → Block}
    (keeps : ∀ b, (f b).stem = b.stem) : (g.modify id f).stems = g.stems := by
  simp only [stems, modify, List.map_map]
  refine List.map_congr_left fun c _ => ?_
  by_cases hc : c.id = id <;> simp [hc, keeps]

theorem exists_get?_of_stems (h : g.stems <+: g'.stems) (hb : g.get? x = some b) :
    ∃ b', g'.get? x = some b' ∧ b'.stem = b.stem := by
  have view : ∀ g : Graph, (g.get? x).map Block.stem = g.stems.find? fun b => b.id == x := by
    intro g
    simp only [get?, stems, find?_map]
    rfl
  have found := view g
  rw [hb, map_some] at found
  have found' := h.find?_eq_some found.symm
  rw [← view g'] at found'
  exact map_eq_some_iff.mp found'

/-- The block that serves a wish goes on to serve it: what is added comes behind it. -/
theorem serving?_of_stems (h : g.stems <+: g'.stems) (hs : g.serving? source = some s) :
    g'.serving? source = some s := by
  have view : ∀ g : Graph, g.serving? source =
      (g.stems.find? (Block.serves source)).map Block.id := by
    intro g
    rw [stems, List.find?_map, Option.map_map]
    refine congrArg (fun test => Option.map Block.id (List.find? test g.blocks)) ?_
    funext b
    cases hk : b.kind <;>
      simp [Block.serves, Block.stem, Kind.bare, hk, InputBlock.satisfies]
  rw [view] at hs ⊢
  obtain ⟨b, hb, rfl⟩ := Option.map_eq_some_iff.mp hs
  rw [h.find?_eq_some hb, Option.map_some]

/-- A graph to which blocks and links were added. -/
structure Grown (g g' : Graph) : Prop where
  stems : g.stems <+: g'.stems
  links : ∀ r s, g.source? r = some s → g'.source? r = some s
  counter : g.nextId ≤ g'.nextId
  /-- No identity that was given out before is used for a new block. -/
  numbers : ∀ x ∈ g'.ids, g.Handed x → x ∈ g.ids

namespace Grown

theorem refl (g : Graph) : g.Grown g :=
  ⟨prefix_rfl, fun _ _ h => h, Nat.le_refl _, fun _ h _ => h⟩

theorem trans (h : g.Grown g') (h' : g'.Grown g'') : g.Grown g'' where
  stems := h.stems.trans h'.stems
  links r s hr := h'.links r s (h.links r s hr)
  counter := h.counter.trans h'.counter
  numbers x hx handed := h.numbers x (h'.numbers x hx (Nat.lt_of_lt_of_le handed h.counter)) handed

theorem of_bare (h : g'.bare = g.bare) : g.Grown g' where
  stems := by rw [stems_of_bare h]
  links r s hr := by rwa [source?_of_outlines (outlines_of_bare h)]
  counter := (nextId_of_bare h).ge
  numbers x hx _ := by rwa [ids_of_outlines (outlines_of_bare h)] at hx

variable (h : g.Grown g')
include h

theorem mem_ids (there : x ∈ g.ids) : x ∈ g'.ids := by
  obtain ⟨b, hb⟩ := mem_ids_iff.mp there
  obtain ⟨b', hb', -⟩ := exists_get?_of_stems h.stems hb
  exact mem_ids_iff.mpr ⟨b', hb'⟩

theorem upstream {y : BlockId} (up : g.Upstream x y) : g'.Upstream x y := by
  rcases up with ⟨i, s, hs, rfl⟩ | ⟨origin, there⟩
  · exact upstream_of_source? (h.links _ _ hs)
  · obtain ⟨b, hb, entry⟩ := origin?_eq_some_iff.mp origin
    obtain ⟨b', hb', same⟩ := exists_get?_of_stems h.stems hb
    exact .inr ⟨origin?_eq_some_iff.mpr ⟨b', hb', (entry_of_stem same).trans entry⟩,
      h.mem_ids there⟩

theorem connect_back {source target : SocketRef} (hs : source.block ∈ g.ids)
    (ht : target.block ∈ g.ids) (ok : g'.connect source target = .ok g'') :
    ∃ g₁, g.connect source target = .ok g₁ := by
  obtain ⟨⟨output', input', linkable⟩, apart, -⟩ := connect_eq_ok_iff.mp ok
  obtain ⟨b, hb⟩ := mem_ids_iff.mp hs
  obtain ⟨c, hc⟩ := mem_ids_iff.mp ht
  obtain ⟨b', hb', sameb⟩ := exists_get?_of_stems h.stems hb
  obtain ⟨c', hc', samec⟩ := exists_get?_of_stems h.stems hc
  obtain ⟨d, hd, ho⟩ := output?_eq_some_iff.mp linkable.output_eq
  obtain ⟨d', hd', hi⟩ := input?_eq_some_iff.mp linkable.input_eq
  cases hb'.symm.trans hd
  cases hc'.symm.trans hd'
  have outputs := congrArg (fun specs => specs[source.index]?) (outputs_of_stem sameb)
  have inputs := congrArg (fun specs => specs[target.index]?) (inputs_of_stem samec)
  simp only [getElem?_map, ho, hi, map_some] at outputs inputs
  obtain ⟨output, houtput, ospec⟩ := map_eq_some_iff.mp outputs.symm
  obtain ⟨input, hinput, ispec⟩ := map_eq_some_iff.mp inputs.symm
  have found := input?_eq_some_iff.mpr ⟨c, hc, hinput⟩
  refine ⟨_, connect_eq_ok_iff.mpr ⟨⟨output, input, output?_eq_some_iff.mpr ⟨b, hb, houtput⟩, found,
    ?_, linkable.apart, ?_⟩, ?_, rfl⟩⟩
  · rw [eq_none_iff_forall_ne_some]
    intro r hr
    have kept := h.links _ _ (source?_eq_some_iff.mpr ⟨input, found, hr⟩)
    rw [source?, linkable.input_eq, bind_some, linkable.free] at kept
    cases kept
  · rw [Fits, ospec, ispec]
    exact linkable.fits
  · rw [eq_false_iff] at apart ⊢
    intro reaches
    have wider : g.Upstream ≤ g'.Upstream := fun _ _ => h.upstream
    exact apart ((reaches_iff (h.mem_ids ht)).mpr
      (ReflTransGen.mono wider _ _ ((reaches_iff ht).mp reaches)))

theorem placed_back {source target : BlockId} {output input : String} {i j : Nat}
    (hs : source ∈ g.ids) (ht : target ∈ g.ids)
    (placed : g'.Placed source output target input i j) :
    g.Placed source output target input i j := by
  obtain ⟨⟨b', hb', hi⟩, c', hc', hj⟩ := placed
  obtain ⟨b, hb⟩ := mem_ids_iff.mp hs
  obtain ⟨c, hc⟩ := mem_ids_iff.mp ht
  obtain ⟨d, hd, sameb⟩ := exists_get?_of_stems h.stems hb
  obtain ⟨d', hd', samec⟩ := exists_get?_of_stems h.stems hc
  cases hb'.symm.trans hd
  cases hc'.symm.trans hd'
  refine ⟨⟨b, hb, ?_⟩, c, hc, ?_⟩
  · rwa [← outputIndex?_of_specs (outputs_of_stem sameb)]
  · rwa [← inputIndex?_of_specs (inputs_of_stem samec)]

end Grown

/-! ## 2. Wishes that are refused -/

/-- There is a block that serves the wish, but its connection is refused. -/
def Denies (g : Graph) (x : BlockId) (wish : AutoConnect) : Prop :=
  ∃ s, g.serving? wish.source = some s ∧ ∀ g', g.connectNamed s "output" x wish.input ≠ .ok g'

theorem mem_ids_of_serving? (h : g.serving? source = some s) : s ∈ g.ids := by
  obtain ⟨b, hb, rfl⟩ := map_eq_some_iff.mp h
  exact mem_map_of_mem (mem_of_find?_eq_some hb)

/-- A wish that is refused is refused for good. -/
theorem Denies.grown (h : g.Denies x wish) (hx : x ∈ g.ids) (grown : g.Grown g') :
    g'.Denies x wish := by
  obtain ⟨s, hs, refused⟩ := h
  refine ⟨s, serving?_of_stems grown.stems hs, fun g'' ok => ?_⟩
  obtain ⟨i, j, placed, ok⟩ := connectNamed_eq_ok_iff.mp ok
  have within := mem_ids_of_serving? hs
  obtain ⟨g₁, made⟩ := grown.connect_back (show (⟨s, i⟩ : SocketRef).block ∈ g.ids from within)
    (show (⟨x, j⟩ : SocketRef).block ∈ g.ids from hx) ok
  exact refused g₁ (connectNamed_eq_ok_iff.mpr ⟨i, j, grown.placed_back within hx placed, made⟩)

theorem fulfil_of_denies (h : g.Denies x wish) : g.fulfil x wish = g := by
  obtain ⟨s, hs, refused⟩ := h
  have served : g.serve wish.source = (s, g) := by rw [serve, hs]
  rw [fulfil, served]
  dsimp only
  split
  · rename_i g' ok
    exact absurd ok (refused g')
  · rfl

/-- The block that serves a wish serves it from then on, and nothing is linked. -/
theorem serve_spec (g : Graph) (source : AutoSource) :
    g.Grown (g.serve source).2 ∧ (∀ r, (g.serve source).2.source? r = g.source? r) ∧
      (g.serve source).2.serving? source = some (g.serve source).1 := by
  unfold serve
  cases hs : g.serving? source with
  | some s => exact ⟨.refl g, fun _ => rfl, hs⟩
  | none =>
    have unlinked := g.source?_insert (InputBlock.ofAutoSource source).1
      (.input (InputBlock.ofAutoSource source).2)
    refine ⟨⟨?_, fun r s hr => (unlinked r).trans hr, Nat.le_succ _, ?_⟩, unlinked, ?_⟩
    · simp only [stems, insert, map_append]
      exact prefix_append _ _
    · intro x hx handed
      rw [ids_insert, mem_append, mem_singleton] at hx
      exact hx.resolve_right fun same => Nat.lt_irrefl _ (same ▸ handed)
    · have none := map_eq_none_iff.mp hs
      simp only [serving?, insert, find?_append, none, none_or]
      cases source <;> simp [InputBlock.ofAutoSource, Block.new, InputBlock.satisfies,
        InputBlock.ofAttribute, InputBlock.ofSystem, InputBlock.ofUniform]

theorem grown_link {source target : SocketRef} {output : OutputSocket} {input : InputSocket}
    (h : g.Linkable source target output input) : g.Grown (g.link source target) where
  stems := by
    rw [link, stems_modify _ _ fun b => b.stem_addEndpoint _ _,
      stems_modify _ _ fun b => b.stem_setLink _ _]
  links r s hr := by
    rw [source?_link h.input_eq, if_neg]
    · exact hr
    · rintro rfl
      rw [source?, h.input_eq, bind_some, h.free] at hr
      cases hr
  counter := Nat.le_refl _
  numbers x hx _ := by rwa [ids_link] at hx

/-- Nothing is left of a wish that was granted or refused. -/
def Answered (g : Graph) (x : BlockId) (wish : AutoConnect) : Prop :=
  g.Denies x wish ∨ ∀ b, g.get? x = some b → b.isFree wish.input = false

theorem isConnected_of_source? {i : Nat} {p : InputSocket} {s : SocketRef} (hb : g.get? x = some b)
    (hp : b.inputs[i]? = some p) (hs : g.source? ⟨x, i⟩ = some s) : p.isConnected = true := by
  rw [source?, input?_eq_some_iff.mpr ⟨b, hb, hp⟩] at hs
  rw [InputSocket.isConnected, show p.link = some s from hs]
  rfl

theorem isFree_of_grown (grown : g.Grown g') (hb : g.get? x = some b) {b' : Block}
    (hb' : g'.get? x = some b') {name : String} (free : b'.isFree name = true) :
    b.isFree name = true := by
  obtain ⟨c, hc, same⟩ := exists_get?_of_stems grown.stems hb
  cases hb'.symm.trans hc
  obtain ⟨p', hp', test⟩ := any_eq_true.mp free
  obtain ⟨i, hi⟩ := mem_iff_getElem?.mp hp'
  have specs := congrArg (fun specs => specs[i]?) (inputs_of_stem same)
  simp only [getElem?_map, hi, map_some] at specs
  obtain ⟨p, hp, spec⟩ := map_eq_some_iff.mp specs.symm
  refine any_eq_true.mpr ⟨p, mem_of_getElem? hp, ?_⟩
  rw [and_eq_true, ← spec] at test
  rw [and_eq_true]
  refine ⟨test.1, ?_⟩
  -- a link that was there would still be there
  cases hl : p.link with
  | none => simp [InputSocket.isConnected, hl]
  | some s =>
    have kept := grown.links ⟨x, i⟩ s (source?_eq_some_iff.mpr
      ⟨p, input?_eq_some_iff.mpr ⟨b, hb, hp⟩, hl⟩)
    rw [isConnected_of_source? hc hi kept] at test
    cases test.2

theorem Answered.grown (h : g.Answered x wish) (hx : x ∈ g.ids) (grown : g.Grown g') :
    g'.Answered x wish := by
  rcases h with denied | taken
  · exact .inl (denied.grown hx grown)
  · obtain ⟨b, hb⟩ := mem_ids_iff.mp hx
    refine .inr fun b' hb' => ?_
    rw [eq_false_iff]
    intro free
    cases (taken b hb).symm.trans (isFree_of_grown grown hb hb' free)

/-- What an attempt to fulfil a wish does. -/
theorem fulfil_spec (hg : g.Proper) (x : BlockId) (wish : AutoConnect) :
    g.Grown (g.fulfil x wish) ∧
      (∀ r : SocketRef, r.block ≠ x → (g.fulfil x wish).source? r = g.source? r) ∧
      (g.fulfil x wish).Answered x wish := by
  have proper := (Local.fulfil hg x wish).proper
  obtain ⟨grown, unlinked, serving⟩ := g.serve_spec wish.source
  revert proper
  unfold fulfil
  dsimp only
  cases h : (g.serve wish.source).2.connectNamed (g.serve wish.source).1 "output" x wish.input with
  | error fault =>
    refine fun _ => ⟨grown, fun r _ => unlinked r, .inl ⟨_, serving, ?_⟩⟩
    intro g' ok
    cases h.symm.trans ok
  | ok g' =>
    intro proper
    obtain ⟨i, j, placed, ok⟩ := connectNamed_eq_ok_iff.mp h
    obtain ⟨⟨output, input, linkable⟩, -, rfl⟩ := connect_eq_ok_iff.mp ok
    refine ⟨grown.trans (grown_link linkable), fun r hr => ?_, .inr fun b hb => ?_⟩
    · rw [source?_link linkable.input_eq, if_neg, unlinked]
      rintro rfl
      exact hr rfl
    · -- the input of the name is linked, and there is no other one of the name
      rw [eq_false_iff]
      intro free
      obtain ⟨p, hp, test⟩ := any_eq_true.mp free
      obtain ⟨k, hk⟩ := mem_iff_getElem?.mp hp
      rw [and_eq_true, beq_iff_eq] at test
      obtain ⟨-, c, hc, hj⟩ := placed
      obtain ⟨b', hb', same⟩ := exists_get?_of_stems (grown_link linkable).stems hc
      cases hb.symm.trans hb'
      rw [← inputIndex?_of_specs (inputs_of_stem same),
        (proper.fitted x b hb).inputIndex?_eq_some_iff.mpr ⟨p, hk, test.1⟩] at hj
      obtain rfl := Option.some.inj hj
      have linked := source?_link (s := ⟨(g.serve wish.source).1, i⟩) linkable.input_eq ⟨x, k⟩
      rw [if_pos rfl] at linked
      rw [isConnected_of_source? hb hk linked] at test
      cases test.2

theorem fulfilAll_spec (hg : g.Proper) (hx : x ∈ g.ids) (wishes : List AutoConnect) :
    g.Grown (wishes.foldl (·.fulfil x) g) ∧
      (∀ r : SocketRef, r.block ≠ x → (wishes.foldl (·.fulfil x) g).source? r = g.source? r) ∧
      ∀ wish ∈ wishes, (wishes.foldl (·.fulfil x) g).Answered x wish := by
  induction wishes generalizing g with
  | nil => exact ⟨.refl g, fun _ _ => rfl, nofun⟩
  | cons wish rest ih =>
    obtain ⟨grown, frame, answered⟩ := fulfil_spec hg x wish
    have proper := (Local.fulfil hg x wish).proper
    obtain ⟨b, hb⟩ := mem_ids_iff.mp hx
    obtain ⟨b', hb', -⟩ := exists_get?_of_stems grown.stems hb
    have within := mem_ids_iff.mpr ⟨b', hb'⟩
    obtain ⟨grown', frame', answered'⟩ := ih proper within
    refine ⟨grown.trans grown', fun r hr => (frame' r hr).trans (frame r hr), ?_⟩
    intro w hw
    rcases mem_cons.mp hw with rfl | hw
    · exact answered.grown within grown'
    · exact answered' w hw

end Graph

/-! ## 3. Blocks without open wishes -/

theorem Kind.autoConfigure_bare (free : String → Bool) (k : Kind) :
    k.bare.autoConfigure free = k.autoConfigure free := by
  cases k <;> rfl

/-- A kind wishes for free inputs only, and for fewer where fewer are free. -/
theorem Kind.mem_autoConfigure {free : String → Bool} (free' : String → Bool) {k : Kind}
    {wish : AutoConnect} (h : wish ∈ k.autoConfigure free) :
    free wish.input = true ∧ (free' wish.input = true → wish ∈ k.autoConfigure free') := by
  cases k with
  | morphTargets m =>
    simp only [autoConfigure, MorphBlock.autoConfigure, List.mem_map, List.mem_filter] at h ⊢
    obtain ⟨a, ⟨ha, hf⟩, rfl⟩ := h
    exact ⟨hf, fun hf' => ⟨a, ⟨ha, hf'⟩, rfl⟩⟩
  | bones b =>
    simp only [autoConfigure, BonesBlock.autoConfigure, List.mem_append, List.mem_map,
      List.mem_filter] at h ⊢
    rcases h with ⟨a, ⟨ha, hf⟩, rfl⟩ | h
    · exact ⟨hf, fun hf' => .inl ⟨a, ⟨ha, hf'⟩, rfl⟩⟩
    · split at h
      · rename_i hf
        obtain rfl := List.mem_singleton.mp h
        exact ⟨hf, fun hf' => .inr (by rw [if_pos hf']; exact List.mem_singleton_self _)⟩
      · cases h
  | fog f =>
    simp only [autoConfigure, FogBlock.autoConfigure, List.mem_append] at h ⊢
    rcases h with h | h
    · split at h
      · rename_i hf
        obtain rfl := List.mem_singleton.mp h
        exact ⟨hf, fun hf' => .inl (by rw [if_pos hf']; exact List.mem_singleton_self _)⟩
      · cases h
    · split at h
      · rename_i hf
        obtain rfl := List.mem_singleton.mp h
        exact ⟨hf, fun hf' => .inr (by rw [if_pos hf']; exact List.mem_singleton_self _)⟩
      · cases h
  | _ => cases h

namespace Graph

variable {g g' : Graph} {x : BlockId} {b : Block}

/-- Every wish that the block still has is refused. -/
def Content (g : Graph) (x : BlockId) : Prop :=
  ∀ b, g.get? x = some b → ∀ wish ∈ b.autoConfigure, g.Denies x wish

/-- What a block wishes in a grown graph it wished before. -/
theorem mem_autoConfigure_of_grown (grown : g.Grown g') (hb : g.get? x = some b) {b' : Block}
    (hb' : g'.get? x = some b') {wish : AutoConnect} (h : wish ∈ b'.autoConfigure) :
    wish ∈ b.autoConfigure := by
  obtain ⟨c, hc, same⟩ := exists_get?_of_stems grown.stems hb
  cases hb'.symm.trans hc
  rw [Block.autoConfigure, ← autoConfigure_bare, bare_kind_of_stem same,
    autoConfigure_bare] at h
  obtain ⟨free, keeps⟩ := mem_autoConfigure b.isFree h
  exact keeps (isFree_of_grown grown hb hb' free)

theorem Content.grown (h : g.Content x) (hx : x ∈ g.ids) (grown : g.Grown g') : g'.Content x := by
  obtain ⟨b, hb⟩ := mem_ids_iff.mp hx
  intro b' hb' wish hw
  exact (h b hb wish (mem_autoConfigure_of_grown grown hb hb' hw)).grown hx grown

theorem content_of_answered (grown : g.Grown g') (hb : g.get? x = some b)
    (answered : ∀ wish ∈ b.autoConfigure, g'.Answered x wish) : g'.Content x := by
  intro b' hb' wish hw
  refine (answered wish (mem_autoConfigure_of_grown grown hb hb' hw)).resolve_right fun taken => ?_
  have free := (mem_autoConfigure b'.isFree hw).1
  rw [taken b' hb'] at free
  cases free

/-- A content block gets nothing more. -/
theorem foldl_fulfil_of_denies {wishes : List AutoConnect} (h : ∀ wish ∈ wishes, g.Denies x wish) :
    wishes.foldl (·.fulfil x) g = g := by
  induction wishes with
  | nil => rfl
  | cons wish rest ih =>
    rw [forall_mem_cons] at h
    rw [foldl_cons, fulfil_of_denies h.1]
    exact ih h.2

end Graph

/-! ## 4. Walks -/

namespace Preparation

variable {p p' p'' q : Preparation} {stage : Stage} {id : BlockId} {block : Block}

/-- Blocks that a walk has met are there, and content if wishes are fulfilled. -/
structure Quiet (p : Preparation) : Prop where
  proper : p.graph.Proper
  met : ∀ x ∈ p.prepared, x ∈ p.graph.ids
  content : p.autoConfigure = true → ∀ x ∈ p.prepared, p.graph.Content x

/-- What a part of a walk leaves alone: blocks, links, and all about the links of the blocks that
were met before. -/
structure Settles (p q : Preparation) : Prop where
  quiet : q.Quiet
  grown : p.graph.Grown q.graph
  prepared : p.prepared ⊆ q.prepared
  auto : q.autoConfigure = p.autoConfigure
  frame : ∀ r : SocketRef, r.block ∈ p.prepared → q.graph.source? r = p.graph.source? r
  /-- Only wishes change more than leftovers. -/
  still : p.autoConfigure = false → q.graph.bare = p.graph.bare

namespace Settles

theorem trans (h : Settles p p') (h' : Settles p' p'') : Settles p p'' where
  quiet := h'.quiet
  grown := h.grown.trans h'.grown
  prepared := List.Subset.trans h.prepared h'.prepared
  auto := h'.auto.trans h.auto
  frame r hr := (h'.frame r (h.prepared hr)).trans (h.frame r hr)
  still off := (h'.still (h.auto.trans off)).trans (h.still off)

theorem of_bare (hp : p.Quiet) (bare : q.graph.bare = p.graph.bare)
    (prepared : q.prepared = p.prepared) (auto : q.autoConfigure = p.autoConfigure) :
    Settles p q := by
  have grown := Graph.Grown.of_bare bare
  have outlines := outlines_of_bare bare
  have counter := nextId_of_bare bare
  constructor
  case quiet =>
    refine ⟨hp.proper.of_outlines outlines counter.ge, ?_, ?_⟩
    · rw [prepared, ids_of_outlines outlines]
      exact hp.met
    · rw [auto, prepared]
      exact fun on x hx => (hp.content on x hx).grown (hp.met x hx) grown
  case grown => exact grown
  case prepared => exact fun x hx => prepared ▸ hx
  case auto => exact auto
  case frame => exact fun r _ => source?_of_outlines outlines r
  case still => exact fun _ => bare

theorem refl (hp : p.Quiet) : Settles p p := of_bare hp rfl rfl rfl

theorem andThen {f : Preparation → Preparation} (h : Settles p q) (hf : Settles q (f q)) :
    Settles p (q.andThen f) := by
  unfold Preparation.andThen
  split
  · exact h
  · exact h.trans hf

theorem mem_ids {x : BlockId} (h : Settles p q) (hx : x ∈ p.graph.ids) : x ∈ q.graph.ids := by
  obtain ⟨b, hb⟩ := mem_ids_iff.mp hx
  obtain ⟨b', hb', -⟩ := exists_get?_of_stems h.grown.stems hb
  exact mem_ids_iff.mpr ⟨b', hb'⟩

/-- What feeds a block and is not there is an entry, and no new block gets its identity. -/
theorem feeders_there (h : Settles p q) (hp : p.Quiet) {x y : BlockId}
    (hy : y ∈ p.graph.feeders x) : y ∈ p.graph.ids ∨ y ∉ q.graph.ids := by
  refine Classical.or_iff_not_imp_left.mpr fun gone later => gone ?_
  have origin := hp.proper.coherent.origin?_of_mem_feeders hy gone
  exact h.grown.numbers y later (hp.proper.handed x y origin)

end Settles

theorem bare_start (hp : p.graph.Proper) (hb : p.graph.get? block.id = some block) :
    (p.start block).graph.bare = p.graph.bare :=
  bare_modify hp.coherent.distinct hb
    (congrArg (fun kind => ({ block.bare with kind } : Block)) (block.kind.bare_start p.ledger))

theorem bare_modify_of_keeps {f : Block → Block} (keeps : ∀ b, (f b).bare = b.bare)
    (g : Graph) (id : BlockId) : (g.modify id f).bare = g.bare := by
  have same : (g.modify id f).blocks.map Block.bare = g.blocks.map Block.bare := by
    simp only [Graph.modify, List.map_map]
    refine List.map_congr_left fun c _ => ?_
    by_cases hc : c.id = id <;> simp [hc, keeps]
  exact congrArg (fun blocks => (⟨blocks, g.nextId⟩ : Graph)) same

theorem bare_resetInputs (p : Preparation) (id : BlockId) :
    (p.resetInputs id).graph.bare = p.graph.bare :=
  bare_modify_of_keeps (by simp [Block.bare, InputSocket.reset, Function.comp_def]) _ _

theorem bare_resetOutputs (p : Preparation) (id : BlockId) :
    (p.resetOutputs id).graph.bare = p.graph.bare :=
  bare_modify_of_keeps (by simp [Block.bare, OutputSocket.reset, Function.comp_def]) _ _

/-- A block that is met anew gets what it wishes; one that was met before gets nothing more. -/
theorem settles_fulfil (hp : p.Quiet) (hb : p.graph.get? block.id = some block)
    {s : Preparation} (bare : s.graph.bare = p.graph.bare)
    (prepared : s.prepared = pushNew block.id p.prepared)
    (auto : s.autoConfigure = p.autoConfigure) : Settles p (s.fulfil block) := by
  have grown := Graph.Grown.of_bare bare
  have outlines := outlines_of_bare bare
  have counter := nextId_of_bare bare
  have proper := hp.proper.of_outlines outlines counter.ge
  have here : block.id ∈ s.graph.ids := by
    rw [ids_of_outlines outlines]
    exact mem_ids_iff.mpr ⟨block, hb⟩
  have subset : p.prepared ⊆ s.prepared := by
    rw [prepared]
    exact subset_pushNew _ _
  have met : ∀ x ∈ s.prepared, x ∈ p.graph.ids := by
    intro x hx
    rw [prepared] at hx
    rcases mem_pushNew.mp hx with hx | rfl
    · exact hp.met x hx
    · exact mem_ids_iff.mpr ⟨block, hb⟩
  unfold fulfil
  split
  · rename_i on
    obtain ⟨grown', frame, answered⟩ := fulfilAll_spec proper here block.autoConfigure
    have whole := grown.trans grown'
    have stays : ∀ x ∈ p.graph.ids,
        x ∈ (block.autoConfigure.foldl (·.fulfil block.id) s.graph).ids := by
      intro x hx
      obtain ⟨b, hb⟩ := mem_ids_iff.mp hx
      obtain ⟨b', hb', -⟩ := exists_get?_of_stems whole.stems hb
      exact mem_ids_iff.mpr ⟨b', hb'⟩
    refine ⟨⟨(Graph.Local.fulfilAll proper block.id _).proper, fun x hx => stays x (met x hx), ?_⟩,
      whole, subset, auto, fun r hr => ?_, fun off => nomatch on.symm.trans (auto.trans off)⟩
    · intro _ x hx
      change x ∈ s.prepared at hx
      rw [prepared] at hx
      rcases mem_pushNew.mp hx with hx | rfl
      · exact (hp.content (auto ▸ on) x hx).grown (hp.met x hx) whole
      · exact content_of_answered whole hb answered
    · change (block.autoConfigure.foldl (·.fulfil block.id) s.graph).source? r = _
      by_cases hid : r.block = block.id
      · -- it was content when it was met before
        have denied : ∀ wish ∈ block.autoConfigure, s.graph.Denies block.id wish := by
          intro wish hw
          have within := hid ▸ hr
          exact (hp.content (auto ▸ on) _ within block hb wish hw).grown (hp.met _ within) grown
        rw [foldl_fulfil_of_denies denied]
        exact source?_of_outlines outlines r
      · exact (frame r hid).trans (source?_of_outlines outlines r)
  · rename_i off
    refine ⟨⟨proper, ?_, fun on => absurd on off⟩, grown, subset, auto,
      fun r _ => source?_of_outlines outlines r, fun _ => bare⟩
    exact fun x hx => by rw [ids_of_outlines outlines]; exact met x hx

theorem prepared_attach (p : Preparation) (id : BlockId) :
    (p.attach id).prepared = p.prepared ∧ (p.attach id).autoConfigure = p.autoConfigure := by
  unfold attach
  split
  · exact ⟨rfl, rfl⟩
  · split
    · exact ⟨rfl, rfl⟩
    · split <;> exact ⟨rfl, rfl⟩

theorem settles_meet (hp : p.Quiet) (hb : p.graph.get? block.id = some block) :
    Settles p (p.meet block) := by
  let s := { p with visited := block.id :: p.visited }.start block
  have bare : s.graph.bare = p.graph.bare :=
    bare_start (p := { p with visited := block.id :: p.visited }) hp.proper hb
  have wished : Settles p (s.fulfil block) := settles_fulfil hp hb bare rfl rfl
  obtain ⟨graph, -⟩ := attach_eq (s.fulfil block) block.id
  obtain ⟨prepared, auto⟩ := prepared_attach (s.fulfil block) block.id
  exact wished.trans (.of_bare wished.quiet (congrArg Graph.bare graph) prepared auto)

theorem settles_resetInputs (hp : p.Quiet) (x : BlockId) : Settles p (p.resetInputs x) :=
  .of_bare hp (bare_resetInputs p x) rfl rfl

theorem settles_resetOutputs (hp : p.Quiet) (x : BlockId) : Settles p (p.resetOutputs x) :=
  .of_bare hp (bare_resetOutputs p x) rfl rfl

theorem stable_settles (stage : Stage) (p : Preparation) : Stable stage p.Settles where
  mark _ h := h.trans (.of_bare h.quiet rfl rfl rfl)
  meet h hb _ := h.trans (settles_meet h.quiet hb)
  resetInputs x h := h.trans (settles_resetInputs h.quiet x)
  resetOutputs x h := h.trans (settles_resetOutputs h.quiet x)
  noteCrossing {p'} y h := by
    obtain ⟨_, same⟩ := noteCrossing_eq p' stage y
    rw [same]
    exact h.trans (.of_bare h.quiet rfl rfl rfl)

/-- Whatever becomes of a walk, what it has met it leaves alone from then on. -/
theorem Walks.settles {task : Task} {q : Preparation} (w : Walks stage task p q) (hp : p.Quiet) :
    Settles p q := (stable_settles stage p).walks w (.refl hp)

theorem settles_walk (stage : Stage) (roots : List BlockId) (hp : p.Quiet) :
    Settles p (p.walk stage roots) :=
  (stable_settles stage p).walk roots (.of_bare hp rfl rfl rfl)

end Preparation

end ShaderGraph
