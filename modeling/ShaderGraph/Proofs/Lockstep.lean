import ShaderGraph.Proofs.Replaying
import ShaderGraph.Proofs.Stages

/-!
# Emissions that run in lockstep

Two emissions whose graphs mirror each other write the same code (`Emission.Mirrors.run`): each
step of one is matched by a step of the other, from the names of outputs to the calls of blocks.

The stage in which a block was built is left over by earlier passes and never taken away. It does
no harm, since it is read only of blocks that this pass has built: the producers of an input, after
they are built, and the producer behind a teleport, which was built when the entry was
(`Emission.Supplied`).
-/

namespace ShaderGraph

open List ShaderGraph.Graph Option Block

variable {f : BlockId → BlockId} {S : BlockId → Prop}

/-! ## 1. Blocks and graphs -/

theorem Block.Mirrors.symbolOf {b b' : Block} (h : b.Mirrors f b') (i : Nat) :
    Emission.symbolOf b' i = Emission.symbolOf b i := by
  have outputs := congrArg (fun views => (views[i]?).elim "" fun v => v.2.1) h.outputs
  simp only [getElem?_map] at outputs
  unfold Emission.symbolOf
  cases ho : b.outputs[i]? <;> cases ho' : b'.outputs[i]? <;>
    rw [ho, ho'] at outputs <;> exact outputs

theorem Block.Mirrors.isProcessed {b b' : Block} (h : b.Mirrors f b') (stage : Stage)
    (socket : SocketSpec) :
    Emission.isProcessed b' stage socket = Emission.isProcessed b stage socket := by
  rw [Emission.isProcessed, Emission.isProcessed, h.target]

theorem Block.Mirrors.zipIdx_inputs {b b' : Block} (h : b.Mirrors f b') :
    b'.inputs.zipIdx = b.inputs.zipIdx.map fun a => (a.1.relabel f, a.2) := by
  rw [h.inputs, zipIdx_map]
  rfl

theorem Graph.Mirrors.modify {g g' : Graph} (h : g.Mirrors f S g') (hf : f.Injective) {x : BlockId}
    {b b' : Block} {change change' : Block → Block} (keeps : ∀ b, (change b).id = b.id)
    (keeps' : ∀ b, (change' b).id = b.id) (hb : g.get? x = some b) (hb' : g'.get? (f x) = some b')
    (same : (change b).Mirrors f (change' b')) :
    (g.modify x change).Mirrors f S (g'.modify (f x) change') where
  blocks y hy := by
    rw [get?_modify _ _ keeps, get?_modify _ _ keeps']
    by_cases hyx : y = x
    · rw [hyx, if_pos rfl, if_pos rfl, hb, hb']
      exact .some same
    · rw [if_neg hyx, if_neg fun heq => hyx (hf heq)]
      exact h.blocks y hy
  length := by
    rw [Graph.modify, Graph.modify, length_map, length_map, h.length]
  absent y hy := h.absent y (by rwa [ids_modify _ _ _ keeps] at hy)

namespace Emission

open Relation

variable {e e' r : Emission} {stage : Stage} {id : BlockId} {g : Graph} {l : Language}

/-! ## 2. What a pass has built -/

theorem Step.built_cases {T : BlockId → Prop} (hs : Ongoing g l e)
    (h : Step l stage T e e') :
    e'.built = e.built ∨ ∃ id, T id ∧ e'.built = id :: e.built ∧ ∀ i, Fed stage e ⟨id, i⟩ := by
  rcases h.quiet_or_calling hs with quiet | ⟨id, _, _, _, _, calling⟩
  · exact .inl quiet.built
  · exact .inr ⟨id, calling.member, calling.built, calling.fed⟩

/-- What feeds a neutral block that is built is built too, or was, if it belongs to both stages. -/
def Supplied (g : Graph) (e : Emission) : Prop :=
  ∀ r s b, r.block ∈ e.built → g.get? r.block = some b → b.target = .neutral →
    g.source? r = some s → s.block ∈ e.built ∨
      ∃ p, g.get? s.block = some p ∧ p.target = .vertexAndFragment

namespace Supplied

variable {T : BlockId → Prop}

theorem step (hs : Ongoing g l e) (h : Step l stage T e e')
    (supplied : Supplied g e) : Supplied g e' := by
  intro r s b hr hb neutral hsource
  rcases h.built_cases hs with same | ⟨id, -, added, fed⟩
  · rw [same] at hr ⊢
    exact supplied r s b hr hb neutral hsource
  · rw [added] at hr ⊢
    rcases mem_cons.mp hr with rfl | hr
    · obtain ⟨c, hc, same⟩ := exists_get?_of_outlines hs.outlines hb
      rw [← source?_of_outlines hs.outlines] at hsource
      obtain ⟨p, hp, hl⟩ := source?_eq_some_iff.mp hsource
      obtain ⟨c', hc', hp⟩ := input?_eq_some_iff.mp hp
      cases hc.symm.trans hc'
      have processed : isProcessed c stage p.spec = true := by
        simp [isProcessed, target_of_outline same, neutral]
      exact .inl (mem_cons_of_mem _ (fed r.index c p s hc hp hl processed).1)
    · exact (supplied r s b hr hb neutral hsource).imp_left (mem_cons_of_mem _)

theorem steps (hs : Ongoing g l e) (h : Steps l stage T e e')
    (supplied : Supplied g e) : Supplied g e' :=
  Steps.lasts (P := Supplied g) (fun _ _ hs hstep supplied => supplied.step hs hstep) hs h
    supplied

/-- Only blocks that belong to both stages are opened again. -/
theorem between (hs : Ongoing g l e) (supplied : Supplied g e) (nodes : List BlockId) :
    Supplied g (e.shareDeclarations.reopenDual nodes) := by
  intro r s b hr hb neutral hsource
  rcases supplied r s b (mem_of_mem_filter hr) hb neutral hsource with hbuilt | dual
  · cases hd : isDual e.graph (e.graph.gather nodes) s.block with
    | false => exact .inl (mem_filter.mpr ⟨hbuilt, congrArg not hd⟩)
    | true =>
      obtain ⟨p, hp, target⟩ := (any_eq_true _ _).mp (Bool.and_eq_true_iff.mp hd).1
      obtain ⟨q, hq, same⟩ := exists_get?_of_outlines hs.outlines.symm hp
      exact .inr ⟨q, hq, (target_of_outline same).trans (beq_iff_eq.mp target)⟩
  · exact .inr dual

end Supplied

/-! ## 3. Emissions that mirror each other -/

/-- What a call leaves, given what became of the build. -/
def leave (e : Emission) (stage : Stage) (b : Block) (inputs : List Slot)
    (ran : Except BuildFault Unit × Site Kind) : Emission where
  graph := e.graph.modify b.id (close stage ran.2.kind ran.2.outputs)
  vertex := match stage with
    | .vertex => ran.2.draft
    | .fragment => ran.2.vertexDraft.getD e.vertex
  fragment := match stage with
    | .vertex => e.fragment
    | .fragment => ran.2.draft
  ledger := noteFault ran.2.ledger
    (fun fault => b.name ++ "[" ++ b.className ++ "]: " ++ fault.message) ran.1
  built := b.id :: e.built
  calls := e.calls ++ [⟨b.id, stage, inputs, ran.2.outputs⟩]

theorem leave_of_slots {b : Block} (hb : e.graph.get? id = some b) {slots : List Slot}
    {ledger : Ledger} (hslots : inputSlots e.graph b b.inputs.zipIdx e.ledger = .ok (slots, ledger))
    (teleported : List Slot) :
    e.call stage id teleported = .ok (e.leave stage b (slots ++ teleported)
      (Kind.build.run.run (e.site stage b (slots ++ teleported) ledger))) := by
  obtain rfl := id_of_get? hb
  unfold call
  rw [find_of_get? hb]
  simp only [bind, Except.bind, hslots]
  cases stage <;> rfl

theorem call_eq_leave {teleported : List Slot} (h : e.call stage id teleported = .ok r) :
    ∃ b slots ledger, e.graph.get? id = some b ∧
      inputSlots e.graph b b.inputs.zipIdx e.ledger = .ok (slots, ledger) ∧
      r = e.leave stage b (slots ++ teleported)
        (Kind.build.run.run (e.site stage b (slots ++ teleported) ledger)) := by
  obtain ⟨b, hb, h'⟩ := bind_eq_ok_iff.mp h
  obtain ⟨⟨slots, ledger⟩, hslots, -⟩ := bind_eq_ok_iff.mp h'
  rw [find_eq_ok_iff] at hb
  rw [leave_of_slots hb hslots] at h
  exact ⟨b, slots, ledger, hb, hslots, (Except.ok.inj h).symm⟩

theorem nameOutputs_mirrors (l : Ledger) {ps ps' : List OutputSocket}
    (same : ps'.map OutputSocket.view = ps.map OutputSocket.view) :
    (nameOutputs (l.relabel f) ps').1.map OutputSocket.view =
        (nameOutputs l ps).1.map OutputSocket.view ∧
      (nameOutputs (l.relabel f) ps').2 = (nameOutputs l ps).2.relabel f := by
  induction ps generalizing l ps' with
  | nil =>
    obtain rfl := map_eq_nil_iff.mp same
    exact ⟨rfl, rfl⟩
  | cons p rest ih =>
    obtain ⟨p', rest', rfl, first, others⟩ := map_eq_cons_iff.mp same
    obtain ⟨spec, symbol, connected⟩ :
        p'.spec = p.spec ∧ p'.symbol = p.symbol ∧ p'.isConnected = p.isConnected := by
      simpa [OutputSocket.view] using first
    cases empty : p.symbol.isEmpty with
    | true =>
      obtain ⟨views, ledgers⟩ := ih (l.freshVariable p.spec.name).2 others
      have fresh : (l.relabel f).freshVariable p.spec.name =
        ((l.freshVariable p.spec.name).1, (l.freshVariable p.spec.name).2.relabel f) := rfl
      simp only [nameOutputs, symbol, spec, empty, if_true, fresh, map_cons, views, ledgers]
      exact ⟨congrArg (fun c => (p.spec, (l.freshVariable p.spec.name).1, c) :: _) connected,
        trivial⟩
    | false =>
      obtain ⟨views, ledgers⟩ := ih l others
      simp only [nameOutputs, symbol, empty, Bool.false_eq_true, if_false, map_cons, views,
        ledgers, first]
      exact ⟨trivial, trivial⟩

/-- Two emissions at the same point, over graphs that mirror each other. -/
structure Mirrors (f : BlockId → BlockId) (S : BlockId → Prop) (e e' : Emission) : Prop where
  graph : e.graph.Mirrors f S e'.graph
  vertex : e'.vertex = e.vertex
  fragment : e'.fragment = e.fragment
  ledger : e'.ledger = e.ledger.relabel f
  built : e'.built = e.built.map f
  within : ∀ x ∈ e.built, S x
  builtIn : ∀ x ∈ e.built, ∀ b b', e.graph.get? x = some b → e'.graph.get? (f x) = some b' →
    b'.builtIn = b.builtIn

namespace Mirrors

variable {x : BlockId} {b' : Block} {k : Kind}

theorem mem_built_iff (h : e.Mirrors f S e') (hf : f.Injective) (x : BlockId) :
    f x ∈ e'.built ↔ x ∈ e.built := by
  rw [h.built, List.mem_map_of_injective hf]

theorem builtIn_modify (h : e.Mirrors f S e') (hf : f.Injective) {y : BlockId} {p q : Block → Block}
    (keeps : ∀ b, (p b).id = b.id) (keeps' : ∀ b, (q b).id = b.id)
    (here : y = x → ∀ b b', e.graph.get? x = some b → e'.graph.get? (f x) = some b' →
      (q b').builtIn = (p b).builtIn) (away : y ≠ x → y ∈ e.built) {c c' : Block}
    (hc : (e.graph.modify x p).get? y = some c)
    (hc' : (e'.graph.modify (f x) q).get? (f y) = some c') : c'.builtIn = c.builtIn := by
  rw [get?_modify _ _ keeps] at hc
  rw [get?_modify _ _ keeps'] at hc'
  by_cases hyx : y = x
  · rw [hyx, if_pos rfl] at hc hc'
    obtain ⟨b, hb, rfl⟩ := map_eq_some_iff.mp hc
    obtain ⟨b', hb', rfl⟩ := map_eq_some_iff.mp hc'
    exact here hyx b b' hb hb'
  · rw [if_neg hyx] at hc
    rw [if_neg fun heq => hyx (hf heq)] at hc'
    exact h.builtIn y (away hyx) c c' hc hc'

theorem modify (h : e.Mirrors f S e') (hf : f.Injective) {b : Block} {p q : Block → Block}
    (keeps : ∀ b, (p b).id = b.id) (keeps' : ∀ b, (q b).id = b.id)
    (stays : ∀ b, (p b).builtIn = b.builtIn) (stays' : ∀ b, (q b).builtIn = b.builtIn)
    (hb : e.graph.get? x = some b) (hb' : e'.graph.get? (f x) = some b')
    (same : (p b).Mirrors f (q b')) : Mirrors f S { e with graph := e.graph.modify x p }
      { e' with graph := e'.graph.modify (f x) q } where
  graph := h.graph.modify hf keeps keeps' hb hb' same
  vertex := h.vertex
  fragment := h.fragment
  ledger := h.ledger
  built := h.built
  within := h.within
  builtIn y hy c c' hc hc' := by
    refine h.builtIn_modify hf keeps keeps' (fun heq b b' hb hb' => ?_) (fun _ => hy) hc hc'
    rw [stays, stays']
    exact h.builtIn x (heq ▸ hy) b b' hb hb'

theorem nameBlock (h : e.Mirrors f S e') (hf : f.Injective) {b : Block}
    (hb : e.graph.get? id = some b) (hb' : e'.graph.get? (f id) = some b') (same : b.Mirrors f b') :
    (e.nameBlock b).Mirrors f S (e'.nameBlock b') := by
  rcases nameBlock_eq hb with ⟨hin, unchanged⟩ | ⟨hin, changed⟩
  · rcases nameBlock_eq hb' with ⟨-, unchanged'⟩ | ⟨hin', -⟩
    · rwa [unchanged, unchanged']
    · rw [same.kind.isInput, hin] at hin'
      cases hin'
  · rcases nameBlock_eq hb' with ⟨hin', -⟩ | ⟨-, changed'⟩
    · rw [same.kind.isInput, hin] at hin'
      cases hin'
    · obtain ⟨views, ledgers⟩ := nameOutputs_mirrors (f := f) e.ledger same.outputs
      rw [← h.ledger] at views ledgers
      have renamed : (named e.ledger b b).Mirrors f (named e'.ledger b' b') :=
        ⟨same.id, same.name, same.kind, same.inputs, views⟩
      have graphs := h.modify hf (p := named e.ledger b) (q := named e'.ledger b')
        (fun _ => rfl) (fun _ => rfl) (fun _ => rfl) (fun _ => rfl) hb hb' renamed
      rw [changed, changed']
      exact ⟨graphs.graph, h.vertex, h.fragment, ledgers, h.built, h.within, graphs.builtIn⟩

section Closed

variable (closed : ∀ x y, S x → e.graph.Upstream x y → S y) {i : Nat}
include closed

theorem carry (h : e.Mirrors f S e') {source : SocketRef} (hS : S source.block) {symbol : String}
    (hc : e.carry source = .ok (symbol, r)) :
    ∃ r', e'.carry (source.relabel f) = .ok (symbol, r') ∧ r.Mirrors f S r' := by
  obtain ⟨p, hp, hc⟩ := bind_eq_ok_iff.mp hc
  obtain ⟨p', hp', same⟩ := h.graph.get? hS (find_eq_ok_iff.mp hp)
  have type := h.graph.outputType closed hS
  have hasVarying : ∀ name, (e.ledger.relabel f).hasVarying name = e.ledger.hasVarying name :=
    fun _ => rfl
  unfold Emission.carry
  rw [show e'.graph.find (source.relabel f).block = .ok p' from find_of_get? hp']
  simp only [bind, Except.bind, SocketRef.relabel, same.symbolOf, h.fragment, h.vertex, h.ledger,
    hasVarying]
  simp only [SocketRef.relabel] at type
  dsimp only at hc
  split at hc
  · rename_i known
    cases hc
    rw [if_pos known]
    exact ⟨e', rfl, h⟩
  · rename_i fresh
    cases hc
    rw [if_neg fresh, type]
    exact ⟨_, rfl, h.graph, rfl, rfl, rfl, h.built, h.within, h.builtIn⟩

omit closed in
theorem enforced {b b' : Block} (h : b.Mirrors f b') (i : Nat) (symbol : String) :
    (Emission.enforced i symbol b).Mirrors f (Emission.enforced i symbol b') := by
  refine ⟨h.id, h.name, h.kind, ?_, h.outputs⟩
  simp only [Emission.enforced, Block.modifyInput, h.inputs]
  exact (map_modify _ (by intro; rfl) b.inputs i).symm

theorem route (h : e.Mirrors f S e') (hf : f.Injective) {consumer producer : BlockId}
    (hconsumer : S consumer) (hproducer : producer ∈ e.built)
    (hr : e.route consumer i producer = .ok r) :
    ∃ r', e'.route (f consumer) i (f producer) = .ok r' ∧ r.Mirrors f S r' := by
  obtain ⟨p, hp, hr⟩ := bind_eq_ok_iff.mp hr
  obtain ⟨c, hc, hr⟩ := bind_eq_ok_iff.mp hr
  rw [find_eq_ok_iff] at hp hc
  obtain ⟨p', hp', sameP⟩ := h.graph.get? (h.within _ hproducer) hp
  obtain ⟨c', hc', sameC⟩ := h.graph.get? hconsumer hc
  have builtIn := h.builtIn producer hproducer p p' hp hp'
  have switches : ∀ socket, switchesStage p' c' socket = switchesStage p c socket := by
    intro socket
    simp only [switchesStage, staysInVertex, sameP.target, sameC.target, builtIn]
  have needs : needsVarying p' = needsVarying p := by
    simp only [needsVarying, sameP.kind.isInput, sameP.kind.isAttribute, builtIn]
  unfold Emission.route
  simp only [find_of_get? hp', find_of_get? hc', bind, Except.bind, sameC.inputs,
    getElem?_map, needs]
  cases hi : c.inputs[i]? with
  | none =>
    simp only [hi] at hr
    cases hr
    exact ⟨e', rfl, h⟩
  | some socket =>
    simp only [hi] at hr
    simp only [map_some, InputSocket.relabel, switches]
    cases hl : socket.link with
    | none =>
      simp only [hl] at hr
      cases hr
      exact ⟨e', rfl, h⟩
    | some source =>
      simp only [hl] at hr
      simp only [map_some]
      split at hr
      · rename_i crosses
        rw [if_pos crosses]
        obtain ⟨⟨symbol, e₁⟩, hcarry, hr⟩ := bind_eq_ok_iff.mp hr
        cases hr
        obtain rfl := id_of_get? hc
        have up := upstream_of_link hc rfl hi hl
        obtain ⟨e₁', hcarry', h₁⟩ := h.carry closed (closed _ _ hconsumer up) hcarry
        have unchanged := (carry_spec hcarry).graph
        have unchanged' := (carry_spec hcarry').graph
        rw [hcarry']
        exact ⟨_, rfl, h₁.modify hf (p := Emission.enforced i symbol)
          (q := Emission.enforced i symbol) (fun _ => rfl) (fun _ => rfl) (fun _ => rfl)
          (fun _ => rfl) (unchanged ▸ hc) (unchanged' ▸ hc') (enforced sameC i symbol)⟩
      · rename_i stays
        cases hr
        rw [if_neg stays]
        exact ⟨e', rfl, h⟩

/-! ### Slots -/

theorem inputSlot (h : e.Mirrors f S e') {b b' : Block} (hS : S b.id) (same : b.Mirrors f b')
    {socket : InputSocket} (there : ∀ s, socket.link = some s → S s.block)
    {slot : Slot × Option String} (hslot : inputSlot e.graph b socket i = .ok slot) :
    Emission.inputSlot e'.graph b' (socket.relabel f) i = .ok slot := by
  have type : e'.graph.inputType ⟨f b.id, i⟩ = e.graph.inputType ⟨b.id, i⟩ :=
    h.graph.inputType closed (r := ⟨b.id, i⟩) hS
  unfold Emission.inputSlot at hslot ⊢
  cases hl : socket.link with
  | none =>
    simp only [InputSocket.relabel, InputSocket.isConnected, hl, map_none, same.id, type]
      at hslot ⊢
    exact hslot
  | some source =>
    have found := h.graph.outputType closed (there source hl)
    simp only [InputSocket.relabel, InputSocket.isConnected, hl, map_some,
      isSome_some, same.id, type, found, same.name, same.className] at hslot ⊢
    split at hslot
    · rename_i enforced
      rw [if_pos enforced]
      exact hslot
    · rename_i direct
      rw [if_neg direct]
      obtain ⟨q, hq, hslot⟩ := bind_eq_ok_iff.mp hslot
      obtain ⟨q', hq', sameQ⟩ := h.graph.get? (there source hl) (find_eq_ok_iff.mp hq)
      rw [show e'.graph.find (source.relabel f).block = .ok q' from find_of_get? hq']
      simp only [bind, Except.bind, SocketRef.relabel, sameQ.symbolOf]
      exact hslot

theorem inputSlots (h : e.Mirrors f S e') {b b' : Block} (hS : S b.id) (same : b.Mirrors f b')
    {items : List (InputSocket × Nat)} (there : ∀ a ∈ items, ∀ s, a.1.link = some s → S s.block)
    {l l' : Ledger} {slots : List Slot} (hslots : inputSlots e.graph b items l = .ok (slots, l')) :
    Emission.inputSlots e'.graph b' (items.map fun a => (a.1.relabel f, a.2)) (l.relabel f) =
      .ok (slots, l'.relabel f) := by
  induction items generalizing l slots with
  | nil =>
    cases hslots
    rfl
  | cons a rest ih =>
    rw [forall_mem_cons] at there
    obtain ⟨⟨slot, problem⟩, hslot, hslots⟩ := bind_eq_ok_iff.mp hslots
    obtain ⟨⟨others, l₁⟩, hothers, hslots⟩ := bind_eq_ok_iff.mp hslots
    cases hslots
    have first := h.inputSlot closed hS same there.1 hslot
    have noted : problem.elim (l.relabel f) (l.relabel f).addError =
        (problem.elim l l.addError).relabel f := by
      cases problem <;> rfl
    simp only [map_cons, Emission.inputSlots, first, bind, Except.bind, noted,
      ih there.2 hothers]
    rfl

theorem outputSlots (h : e.Mirrors f S e') {b b' : Block} (hS : S b.id) (same : b.Mirrors f b') :
    outputSlots e'.graph b' = outputSlots e.graph b := by
  refine List.ext_getElem? fun i => ?_
  have outputs := congrArg (fun views => views[i]?) same.outputs
  have type : e'.graph.outputType ⟨f b.id, i⟩ = e.graph.outputType ⟨b.id, i⟩ :=
    h.graph.outputType closed (r := ⟨b.id, i⟩) hS
  simp only [List.getElem?_map] at outputs
  simp only [Emission.outputSlots, List.getElem?_map, List.getElem?_zipIdx, same.id, Nat.zero_add,
    Option.map_map]
  cases ho : b.outputs[i]? with
  | none =>
    rw [ho, Option.map_none, Option.map_eq_none_iff] at outputs
    rw [outputs]
    rfl
  | some o =>
    rw [ho, Option.map_some] at outputs
    obtain ⟨o', ho', view⟩ := Option.map_eq_some_iff.mp outputs
    obtain ⟨spec, symbol, connected⟩ :
        o'.spec = o.spec ∧ o'.symbol = o.symbol ∧ o'.isConnected = o.isConnected := by
      simpa [OutputSocket.view] using view
    rw [ho']
    simp [spec, symbol, connected, type]

theorem teleportSlot (h : e.Mirrors f S e') {entry : BlockId} (hS : S entry)
    (ready : ∀ s p, e.graph.source? ⟨entry, 0⟩ = some s → e.graph.get? s.block = some p →
      s.block ∈ e.built ∨ p.target = .vertexAndFragment)
    {slot : Slot} (ht : e.teleportSlot stage entry = .ok (slot, r)) :
    ∃ r', e'.teleportSlot stage (f entry) = .ok (slot, r') ∧ r.Mirrors f S r' := by
  obtain ⟨b, hb, ht⟩ := bind_eq_ok_iff.mp ht
  rw [find_eq_ok_iff] at hb
  obtain ⟨b', hb', same⟩ := h.graph.get? hS hb
  have type : e'.graph.inputType ⟨f entry, 0⟩ = e.graph.inputType ⟨entry, 0⟩ :=
    h.graph.inputType closed (r := ⟨entry, 0⟩) hS
  unfold Emission.teleportSlot
  simp only [find_of_get? hb', bind, Except.bind, same.inputs, type]
  cases hin : b.inputs with
  | nil =>
    simp only [hin] at ht
    cases ht
    exact ⟨e', rfl, h⟩
  | cons socket others =>
    simp only [hin] at ht
    simp only [map_cons, InputSocket.relabel]
    cases hl : socket.link with
    | none =>
      simp only [hl] at ht
      cases ht
      exact ⟨e', rfl, h⟩
    | some source =>
      simp only [hl] at ht
      simp only [map_some]
      obtain ⟨q, hq, ht⟩ := bind_eq_ok_iff.mp ht
      rw [find_eq_ok_iff] at hq
      have hsource : e.graph.source? ⟨entry, 0⟩ = some source :=
        source?_eq_some_iff.mpr
          ⟨socket, input?_eq_some_iff.mpr ⟨b, hb, by rw [hin]; rfl⟩, hl⟩
      have hS' : S source.block := closed _ _ hS (upstream_of_source? hsource)
      obtain ⟨q', hq', sameQ⟩ := h.graph.get? hS' hq
      have stays : staysInVertex q' = staysInVertex q := by
        unfold staysInVertex
        rcases ready source q hsource hq with hbuilt | dual
        · rw [h.builtIn source.block hbuilt q q' hq hq', sameQ.target]
        · simp [sameQ.target, dual]
      rw [show e'.graph.find (source.relabel f).block = .ok q' from find_of_get? hq']
      dsimp only at ht ⊢
      rw [stays, sameQ.kind.isInput, sameQ.kind.isAttribute]
      split at ht
      · rename_i crosses
        rw [if_pos crosses]
        obtain ⟨⟨symbol, e₁⟩, hcarry, ht⟩ := bind_eq_ok_iff.mp ht
        cases ht
        obtain ⟨e₁', hcarry', h₁⟩ := h.carry closed hS' hcarry
        rw [hcarry']
        exact ⟨e₁', rfl, h₁⟩
      · rename_i direct
        rw [if_neg direct]
        cases ht
        refine ⟨e', ?_, h⟩
        rw [show symbolOf q' (source.relabel f).index = symbolOf q source.index from
          sameQ.symbolOf source.index]
        rfl

end Closed

/-! ### Calls -/

theorem close {b : Block} (h : b.Mirrors f b') {k' : Kind} (kinds : k.Mirrors f k') (stage : Stage)
    (slots : List Slot) :
    (Emission.close stage k slots b).Mirrors f (Emission.close stage k' slots b') := by
  have views : ∀ ps : List OutputSocket,
      (ps.zipWith (fun socket slot => { socket with symbol := slot.symbol }) slots).map
        OutputSocket.view =
        (ps.map OutputSocket.view).zipWith (fun v slot => (v.1, slot.symbol, v.2.2)) slots := by
    intro ps
    rw [map_zipWith, zipWith_map_left]
    rfl
  refine ⟨h.id, h.name, kinds, h.inputs, ?_⟩
  rw [Emission.close, Emission.close, views, views, h.outputs]

theorem site (h : e.Mirrors f S e') (closed : ∀ x y, S x → e.graph.Upstream x y → S y) {b : Block}
    (hS : S b.id) (same : b.Mirrors f b') (inputs : List Slot) (ledger : Ledger) :
    e'.site stage b' inputs (ledger.relabel f) = (e.site stage b inputs ledger).copy f b'.kind := by
  have noted : noteResult b' stage (ledger.relabel f) = (noteResult b stage ledger).relabel f := by
    unfold noteResult
    rw [same.kind.isFinal]
    split
    · cases stage <;> rfl
    · rfl
  have drafts : e'.draftFor b' stage = e.draftFor b stage := by
    unfold draftFor
    rw [h.vertex, h.fragment, same.kind.isInput, same.name]
  simp only [Emission.site, Site.copy, same.id, same.name, same.className,
    h.outputSlots closed hS same, noted, drafts, h.vertex]

theorem leave (h : e.Mirrors f S e') (hf : f.Injective) {b : Block} (hS : S b.id)
    (hb : e.graph.get? b.id = some b) (hb' : e'.graph.get? b'.id = some b') (same : b.Mirrors f b')
    (inputs : List Slot) {result : Except BuildFault Unit} {t : Site Kind}
    (kinds : t.kind.Mirrors f k) : (e.leave stage b inputs (result, t)).Mirrors f S
      (e'.leave stage b' inputs (result, t.copy f k)) := by
  have id := same.id
  constructor
  case graph =>
    rw [id] at hb'
    simp only [Emission.leave, id]
    exact h.graph.modify hf (fun _ => rfl) (fun _ => rfl) hb hb' (close same kinds stage t.outputs)
  case vertex => cases stage <;> simp [Emission.leave, Site.copy, h.vertex]
  case fragment => cases stage <;> simp [Emission.leave, Site.copy, h.fragment]
  case ledger =>
    simp only [Emission.leave, Site.copy, same.name, same.className]
    cases result <;> rfl
  case built => simp only [Emission.leave, id, h.built, map_cons]
  case within => exact forall_mem_cons.mpr ⟨hS, h.within⟩
  case builtIn =>
    intro x hx c c' hc hc'
    simp only [Emission.leave, id] at hc hc'
    refine h.builtIn_modify hf ?_ ?_ ?_ ?_ hc hc'
    · exact fun _ => rfl
    · exact fun _ => rfl
    · exact fun _ _ _ _ _ => rfl
    · exact fun apart => (mem_cons.mp hx).resolve_left apart

theorem call (h : e.Mirrors f S e') (hf : f.Injective)
    (closed : ∀ x y, S x → e.graph.Upstream x y → S y) (hS : S id) {teleported : List Slot}
    (hc : e.call stage id teleported = .ok r) :
    ∃ r', e'.call stage (f id) teleported = .ok r' ∧ r.Mirrors f S r' := by
  obtain ⟨b, slots, ledger, hb, hslots, rfl⟩ := call_eq_leave hc
  obtain rfl := id_of_get? hb
  obtain ⟨b', hb', same⟩ := h.graph.get? hS hb
  have there : ∀ a ∈ b.inputs.zipIdx, ∀ s, a.1.link = some s → S s.block := fun a ha s hl =>
    closed _ _ hS (upstream_of_link hb rfl (mem_zipIdx_iff_getElem?.mp ha) hl)
  have hslots' := h.inputSlots closed hS same there hslots
  rw [← same.zipIdx_inputs, ← h.ledger] at hslots'
  obtain ⟨k, kinds, ran⟩ := Kind.agrees_build hf (e.site stage b (slots ++ teleported) ledger)
    b'.kind same.kind
  rw [← h.site closed hS same] at ran
  refine ⟨_, leave_of_slots hb' hslots' teleported, ?_⟩
  rw [ran]
  exact h.leave hf hS hb (same.id ▸ hb') same _ kinds

/-! ### Builds -/

section Build

variable (hf : f.Injective) (closed : ∀ x y, S x → g.Upstream x y → S y)
  {nodes : List BlockId}
include hf closed

section Block

variable {block block' b₀ : Block} (hb₀ : g.get? block.id = some b₀)
  (hblock : block.outline = b₀.outline) (hS : S block.id) (same : block.Mirrors f block')
  {build build' : BlockId → Emission → Except Halt Emission}
  (sub : ∀ x e e' r, Ongoing g l e → Supplied g e → e.Mirrors f S e' → g.Upstream block.id x →
    build x e = .ok r →
      Steps l stage S e r ∧ x ∈ r.built ∧ ∃ r', build' (f x) e' = .ok r' ∧ r.Mirrors f S r')
include hb₀ hblock hS same sub

theorem feed {items : List (InputSocket × Nat)}
    (hitems : ∀ a ∈ items, block.inputs[a.2]? = some a.1) (hs : Ongoing g l e)
    (supplied : Supplied g e) (h : e.Mirrors f S e')
    (hfeed : feed build stage block items e = .ok r) :
    ∃ r', Emission.feed build' stage block' (items.map fun a => (a.1.relabel f, a.2)) e' = .ok r' ∧
      r.Mirrors f S r' := by
  induction items generalizing e e' with
  | nil =>
    cases hfeed
    exact ⟨e', rfl, h⟩
  | cons a rest ih =>
    obtain ⟨socket, i⟩ := a
    rw [List.forall_mem_cons] at hitems
    obtain ⟨hi, hrest⟩ := hitems
    cases hl : socket.link with
    | none =>
      unfold Emission.feed at hfeed ⊢
      simp only [hl] at hfeed
      simp only [List.map_cons, InputSocket.relabel, hl, Option.map_none, same.name, same.className]
      split at hfeed
      · rename_i optional
        rw [if_pos optional]
        exact ih hrest hs supplied h hfeed
      · rename_i required
        rw [if_neg required]
        have hstep : Step l stage S e _ := report_free hb₀ hblock hS hs hi hl required
        refine ih hrest (hstep.steady hs) (supplied.step hs hstep) ?_ hfeed
        exact ⟨h.graph, h.vertex, h.fragment, by rw [h.ledger]; rfl, h.built, h.within, h.builtIn⟩
    | some source =>
      have hl' : (socket.relabel f).link = some (source.relabel f) := by
        rw [InputSocket.relabel, hl]
        rfl
      have test : (isProcessed block' stage socket.spec && (source.relabel f).block != block'.id) =
          (isProcessed block stage socket.spec && source.block != block.id) := by
        have apart : (f source.block != f block.id) = (source.block != block.id) := by
          rw [Bool.eq_iff_iff]
          simp [hf.eq_iff]
        rw [same.isProcessed, same.id]
        exact congrArg _ apart
      rw [List.map_cons]
      cases looked : isProcessed block stage socket.spec && source.block != block.id with
      | false =>
        rw [feed_of_skipped hl looked] at hfeed
        rw [feed_of_skipped hl' (test.trans looked)]
        exact ih hrest hs supplied h hfeed
      | true =>
        rw [feed_of_looked hl looked] at hfeed
        obtain ⟨e₁, hbuild, hfeed⟩ := bind_eq_ok_iff.mp hfeed
        obtain ⟨e₂, hroute, hfeed⟩ := bind_eq_ok_iff.mp hfeed
        have linked := upstream_of_link hb₀ hblock hi hl
        obtain ⟨steps₁, hbuilt, e₁', hbuild', h₁⟩ := sub _ _ _ _ hs supplied h linked hbuild
        have hs₁ := steps₁.steady hs
        have supplied₁ := supplied.steps hs steps₁
        obtain ⟨_, again, steps₂, -⟩ := fed_of_route hb₀ hblock stage hS hs₁ hi hl hbuilt
        cases hroute.symm.trans again
        have closed₁ := hs₁.closed closed
        -- the value is brought to the fragment stage on both sides, or on neither
        obtain ⟨e₂', hroute', h₂⟩ : ∃ e₂',
            e₁'.routeIn stage block'.id i (source.relabel f).block = .ok e₂' ∧
              e₂.Mirrors f S e₂' := by
          rw [same.id]
          cases stage with
          | fragment =>
            obtain ⟨e₂', routed, h₂⟩ := h₁.route closed₁ hf hS hbuilt (orHalt_eq_ok_iff.mp hroute)
            exact ⟨e₂', orHalt_eq_ok_iff.mpr routed, h₂⟩
          | vertex =>
            cases hroute
            exact ⟨e₁', rfl, h₁⟩
        obtain ⟨r', hfeed', hr⟩ :=
          ih hrest (steps₂.steady hs₁) (supplied₁.steps hs₁ steps₂) h₂ hfeed
        refine ⟨r', ?_, hr⟩
        rw [feed_of_looked hl' (test.trans looked)]
        exact bind_eq_ok_iff.mpr ⟨e₁', hbuild', bind_eq_ok_iff.mpr ⟨e₂', hroute', hfeed'⟩⟩

omit hf in
theorem teleport (entered : g.Entered) (hs : Ongoing g l e) (supplied : Supplied g e)
    (h : e.Mirrors f S e') (gone : ∀ x, x ∉ g.ids → build x e = .ok e) {slots : List Slot}
    (ht : teleport build stage block e = .ok (slots, r)) :
    ∃ r', Emission.teleport build' stage block' e' = .ok (slots, r') ∧ r.Mirrors f S r' := by
  unfold Emission.teleport at ht ⊢
  rw [same.kind.teleportEntry]
  cases hentry : block.kind.teleportEntry with
  | none =>
    simp only [hentry] at ht
    cases ht
    exact ⟨e', rfl, h⟩
  | some entry =>
    simp only [hentry] at ht
    obtain ⟨e₁, hbuild, ht⟩ := bind_eq_ok_iff.mp ht
    obtain ⟨⟨slot, e₂⟩, hslot, ht⟩ := bind_eq_ok_iff.mp ht
    cases ht
    rw [orHalt_eq_ok_iff] at hslot
    have origin : g.origin? block.id = some entry :=
      origin?_eq_some_iff.mpr ⟨b₀, hb₀, (entry_of_outline hblock).symm.trans hentry⟩
    -- the emission has found the entry
    have there : entry ∈ g.ids := by
      by_contra away
      cases (gone entry away).symm.trans hbuild
      obtain ⟨b, hb, -⟩ := bind_eq_ok_iff.mp hslot
      rw [find_eq_ok_iff] at hb
      exact away (ids_of_outlines hs.outlines ▸ Graph.mem_ids_iff.mpr ⟨b, hb⟩)
    have behind : g.Upstream block.id entry := .inr ⟨origin, there⟩
    obtain ⟨steps, hbuilt, e₁', hbuild', h₁⟩ := sub _ _ _ _ hs supplied h behind hbuild
    have hs₁ := steps.steady hs
    have closed₁ := hs₁.closed closed
    -- an entry is neutral, so that what feeds it was built before it
    have ready : ∀ s p, e₁.graph.source? ⟨entry, 0⟩ = some s → e₁.graph.get? s.block = some p →
        s.block ∈ e₁.built ∨ p.target = .vertexAndFragment := by
      intro s p hsource hp
      obtain ⟨c, hc, isIn⟩ := isEntry_iff.mp (entered.isEntry origin there)
      have neutral : c.target = .neutral := by
        unfold Block.target
        cases hk : c.kind <;> rw [hk] at isIn <;> first | rfl | cases isIn
      rw [source?_of_outlines hs₁.outlines] at hsource
      refine (supplied.steps hs steps ⟨entry, 0⟩ s c hbuilt hc neutral hsource).imp_right ?_
      rintro ⟨q, hq, dual⟩
      obtain ⟨q', hq', alike⟩ := exists_get?_of_outlines hs₁.outlines hq
      cases hp.symm.trans hq'
      rw [target_of_outline alike, dual]
    obtain ⟨e₂', hslot', h₂⟩ := h₁.teleportSlot closed₁ (closed _ _ hS behind) ready hslot
    simp only [map_some, hbuild', bind, Except.bind, orHalt_eq_ok_iff.mpr hslot']
    exact ⟨e₂', rfl, h₂⟩

end Block

variable (entered : g.Entered)
include entered

theorem build {steps : Nat} (hS : S id) (hid : id ∈ g.ids) (enough : g.depth id + 1 < steps)
    (hs : Ongoing g l e) (supplied : Supplied g e) (h : e.Mirrors f S e')
    (hbuild : build stage steps id e = .ok r) :
    ∃ r', Emission.build stage steps (f id) e' = .ok r' ∧ r.Mirrors f S r' := by
  -- the bound stays above the depth of the block, so that it is never reached
  induction steps generalizing id e e' r with
  | zero => omega
  | succ steps ih =>
    obtain ⟨b₀, hb₀⟩ := Graph.mem_ids_iff.mp hid
    obtain ⟨block, hb, hblock⟩ := Graph.exists_get?_of_outlines hs.outlines hb₀
    obtain rfl := Graph.id_of_get? hb
    obtain ⟨block', hb', same⟩ := h.graph.get? hS hb
    have fewer : ∀ x, g.Upstream block.id x → S x ∧ x ∈ g.ids ∧ g.depth x + 1 < steps := by
      intro x hx
      have lower := Graph.depth_lt hs.outset.coherent hs.outset.acyclic hx
      exact ⟨closed _ _ hS hx, hs.outset.coherent.mem_ids_of_upstream hx, by omega⟩
    have onward : ∀ x e, Ongoing g l e → g.Upstream block.id x → Course g l stage S e
        (fun beyond => (buildBy stage)^[steps] beyond x e) fun r =>
          Steps l stage S e r ∧ x ∈ r.built := by
      intro x e hs hx
      obtain ⟨hS, hid, enough⟩ := fewer x hx
      exact iterate_steps closed hS hid enough hs
    have sub : ∀ x e e' r, Ongoing g l e → Supplied g e → e.Mirrors f S e' →
        g.Upstream block.id x → Emission.build stage steps x e = .ok r →
        Steps l stage S e r ∧ x ∈ r.built ∧
          ∃ r', Emission.build stage steps (f x) e' = .ok r' ∧ r.Mirrors f S r' := by
      intro x e e' r hs supplied h hx hbuild
      obtain ⟨hS, hid, enough⟩ := fewer x hx
      obtain ⟨path, hbuilt⟩ := build_steps closed hS hid enough hs hbuild
      exact ⟨path, hbuilt, ih hS hid enough hs supplied h hbuild⟩
    have built : ∀ {e e' : Emission}, e.Mirrors f S e' →
        e'.built.contains (f block.id) = e.built.contains block.id := by
      intro e e' h
      rw [Bool.eq_iff_iff, List.contains_iff_mem, List.contains_iff_mem, h.mem_built_iff hf]
    simp only [Emission.build, hb, hb', built h] at hbuild ⊢
    split at hbuild
    · rename_i done
      cases hbuild
      rw [if_pos done]
      exact ⟨e', rfl, h⟩
    · rename_i unbuilt
      rw [if_neg unbuilt]
      obtain ⟨e₁, hfeed, hbuild⟩ := bind_eq_ok_iff.mp hbuild
      obtain ⟨⟨slots, e₂⟩, htele, hbuild⟩ := bind_eq_ok_iff.mp hbuild
      have hname : Step l stage S e (e.nameBlock block) := .name hb
      have hs₀ := hname.steady hs
      have supplied₀ := supplied.step hs hname
      have hitems : ∀ a ∈ block.inputs.zipIdx, block.inputs[a.2]? = some a.1 :=
        fun a ha => List.mem_zipIdx_iff_getElem?.mp ha
      have iterated := build_eq_iterate stage steps
      have steps₁ := ((feed_steps hb₀ hblock onward hS hitems hs₀).of_ok (iterated ▸ hfeed)).1
      have hs₁ := steps₁.steady hs₀
      have supplied₁ := supplied₀.steps hs₀ steps₁
      have gone : ∀ x, x ∉ g.ids → ∀ beyond, (buildBy stage)^[steps] beyond x e₁ = .ok e₁ := by
        intro x away beyond
        obtain ⟨steps, rfl⟩ : ∃ n, steps = n + 1 := ⟨steps - 1, by omega⟩
        rw [Function.iterate_succ_apply', buildBy_of_missing hs₁ away]
      have steps₂ := ((teleport_steps hb₀ hblock onward hS hs₁ gone).of_ok (iterated ▸ htele)).1
      have hs₂ := steps₂.steady hs₁
      have closed₂ := hs₂.closed closed
      obtain ⟨e₁', hfeed', h₁⟩ := Mirrors.feed hf closed hb₀ hblock hS same sub hitems hs₀
        supplied₀ (h.nameBlock hf hb hb' same) hfeed
      obtain ⟨e₂', htele', h₂⟩ := Mirrors.teleport closed hb₀ hblock hS same sub entered hs₁
        supplied₁ h₁ (fun x away => iterated ▸ gone x away _) htele
      rw [same.zipIdx_inputs, hfeed']
      simp only [bind, Except.bind, htele', built h₂] at hbuild ⊢
      split at hbuild
      · rename_i done
        cases hbuild
        rw [if_pos done]
        exact ⟨e₂', rfl, h₂⟩
      · rename_i unbuilt
        rw [if_neg unbuilt]
        rw [orHalt_eq_ok_iff] at hbuild
        obtain ⟨r', called, h₃⟩ := h₂.call hf closed₂ hS hbuild
        exact ⟨r', orHalt_eq_ok_iff.mpr called, h₃⟩

theorem buildAll (hnodes : ∀ n ∈ nodes, S n) (hs : Ongoing g l e) (supplied : Supplied g e)
    (h : e.Mirrors f S e') (hbuild : e.buildAll stage nodes = .ok r) :
    ∃ r', e'.buildAll stage (nodes.map f) = .ok r' ∧ r.Mirrors f S r' := by
  induction nodes generalizing e e' with
  | nil =>
    cases hbuild
    exact ⟨e', rfl, h⟩
  | cons n rest ih =>
    obtain ⟨e₁, first, others⟩ := bind_eq_ok_iff.mp hbuild
    rw [forall_mem_cons] at hnodes
    rw [map_cons, Emission.buildAll, foldlM_cons, h.graph.length]
    by_cases hn : n ∈ g.ids
    · have enough := hs.enough hn
      obtain ⟨path, -⟩ := build_steps closed hnodes.1 hn enough hs first
      obtain ⟨e₁', first', h₁⟩ :=
        Mirrors.build hf closed entered hnodes.1 hn enough hs supplied h first
      simp only [first', bind, Except.bind]
      exact ih hnodes.2 (path.steady hs) (supplied.steps hs path) h₁ others
    · rw [← ids_of_outlines hs.outlines, ← get?_eq_none_iff] at hn
      simp only [Emission.build, hn] at first
      cases first
      have missing := h.graph.get?_eq_none hnodes.1 hn
      simp only [Emission.build, missing, bind, Except.bind]
      exact ih hnodes.2 hs supplied h others

omit closed entered in
theorem between (closed : ∀ x y, S x → e.graph.Upstream x y → S y) (hnodes : ∀ n ∈ nodes, S n)
    (h : e.Mirrors f S e') : (e.shareDeclarations.reopenDual nodes).Mirrors f S
      (e'.shareDeclarations.reopenDual (nodes.map f)) := by
  have dual : ∀ x, S x → isDual e'.graph (e'.graph.gather (nodes.map f)) (f x) =
      isDual e.graph (e.graph.gather nodes) x := by
    intro x hx
    have reached : (e'.graph.gather (nodes.map f)).contains (f x) =
        (e.graph.gather nodes).contains x := by
      rw [Bool.eq_iff_iff, List.contains_iff_mem, List.contains_iff_mem,
        h.graph.mem_gather_iff closed hf hnodes]
    unfold isDual
    rw [reached]
    cases hb : e.graph.get? x with
    | none => rw [h.graph.get?_eq_none hx hb]
    | some b =>
      obtain ⟨b', hb', same⟩ := h.graph.get? hx hb
      rw [hb', Option.any_some, Option.any_some, same.target]
  constructor
  case graph => exact h.graph
  case vertex => exact h.vertex
  case fragment => simp only [reopenDual, shareDeclarations, h.vertex, h.fragment]
  case ledger => exact h.ledger
  case built =>
    change e'.built.filter (fun x => !isDual e'.graph (e'.graph.gather (nodes.map f)) x) =
      (e.built.filter fun x => !isDual e.graph (e.graph.gather nodes) x).map f
    rw [h.built, List.filter_map]
    refine congrArg (List.map f) (List.filter_congr fun x hx => ?_)
    exact congrArg not (dual x (h.within x hx))
  case within => exact fun x hx => h.within x (List.mem_of_mem_filter hx)
  case builtIn => exact fun x hx => h.builtIn x (List.mem_of_mem_filter hx)

/-- Emissions over graphs that mirror each other write the same. -/
theorem run {vertexNodes fragmentNodes : List BlockId} (hvertex : ∀ n ∈ vertexNodes, S n)
    (hfragment : ∀ n ∈ fragmentNodes, S n) (hs : Ongoing g l e) (supplied : Supplied g e)
    (h : e.Mirrors f S e') (hrun : e.run vertexNodes fragmentNodes = .ok r) :
    ∃ r', e'.run (vertexNodes.map f) (fragmentNodes.map f) = .ok r' ∧ r.Mirrors f S r' := by
  obtain ⟨e₁, first, second⟩ := bind_eq_ok_iff.mp hrun
  obtain ⟨path, -⟩ := buildAll_steps closed (fun n hn _ => hvertex n hn) hs first
  have hs₁ := path.steady hs
  have closed₁ := hs₁.closed closed
  obtain ⟨e₁', first', h₁⟩ := buildAll hf closed entered hvertex hs supplied h first
  obtain ⟨r', second', h₂⟩ := buildAll hf closed entered hfragment (hs₁.between fragmentNodes)
    ((supplied.steps hs path).between hs₁ fragmentNodes) (h₁.between hf closed₁ hfragment) second
  refine ⟨r', ?_, h₂⟩
  unfold Emission.run
  rw [first']
  exact second'

end Build

end Mirrors

end Emission

end ShaderGraph
