import ShaderGraph.Proofs.Rooting
import ShaderGraph.Proofs.Standing
import ShaderGraph.Proofs.Typing

/-!
# What the fragment stage reads through varyings

Varyings come from three places: from a socket that reads across the stages, from a teleport and
from a fog. Whatever a block is handed stands for the output that feeds it: it is the symbol of the
output or it names the varying that carries it (`Emission.Handing`). With the log of the vertex
stage this gives one declaration and one assignment for each varying, and no reference to one that
is not declared (`Material.build_varyings`). A fog reads its distance without being handed it, so
that for fogs the optimizers have to leave the roots of the vertex stage alone
(`Material.hazy_distance_undeclared`).

All fogs share one distance, and the first one that is called for the vertex stage fills it
(`Material.build_fog_distance`), so that a fog may use the distance of another
(`Material.misty_near_distance`).

Materials with fog are computed by `Material.emissionWithin`, where the search between the stages
has a bound.
-/

namespace ShaderGraph

open Relation List ShaderGraph.Graph Option Block Emission

/-! ## 1. What blocks are handed -/

/-- What feeds a slot of a call: the output that is linked to the input at its place or, behind the
inputs, the output that feeds the entry of the teleport. -/
def Graph.FeedsSlot (g : Graph) (x : BlockId) (i : Nat) (s : SocketRef) : Prop :=
  g.source? ⟨x, i⟩ = some s ∨ ∃ b entry, g.get? x = some b ∧ i = b.inputs.length ∧
    g.origin? x = some entry ∧ g.source? ⟨entry, 0⟩ = some s

theorem Graph.FeedsSlot.of_outlines {g g' : Graph} (h : g'.outlines = g.outlines) {x : BlockId}
    {i : Nat} {s : SocketRef} (feeds : g.FeedsSlot x i s) : g'.FeedsSlot x i s := by
  have source := source?_of_outlines h
  rcases feeds with direct | ⟨b, entry, hb, hi, horigin, hsource⟩
  · exact .inl ((source _).trans direct)
  · obtain ⟨b', hb', same⟩ := exists_get?_of_outlines h hb
    have lengths := congrArg (fun o => o.inputs.length) same
    refine .inr ⟨b', entry, hb', hi.trans ?_, (origin?_of_outlines h x).trans horigin,
      (source _).trans hsource⟩
    simpa [Block.outline] using lengths.symm

namespace Emission

variable {e e' : Emission} {stage : Stage} {g : Graph} {l : Language} {S T : BlockId → Prop}
  {x : BlockId}

/-- A symbol that stands for an output: its own, which does not change any more, or a reference to
the varying that carries it. -/
def Handed (l : Language) (e : Emission) (s : SocketRef) (symbol : String) : Prop :=
  (symbol = e.graph.symbolAt s ∧ ∀ b, e.graph.get? s.block = some b → b.Settled l) ∨
    ReadsVarying l e s symbol

theorem Handed.step (hs : Ongoing g l e) (hstep : Step l stage T e e')
    (hall : AllSettled l e) {s : SocketRef} {symbol : String} (h : Handed l e s symbol) :
    Handed l e' s symbol := by
  rcases h with ⟨own, settled⟩ | varying
  · refine .inl ⟨own.trans (hstep.symbolAt_of_settled hs settled).symm, fun b' hb' => ?_⟩
    obtain ⟨b, hb, hadv, -⟩ := hstep.advances_back hs hb'
    exact (hadv.settled (settled b hb)).1
  · exact .inr (varying.step hs hstep hall)

/-- A step settles the outputs of a block or leaves them alone. -/
theorem Step.outputs (hs : Ongoing g l e) (h : Step l stage T e e') {c c' : Block}
    (hc : e.graph.get? x = some c) (hc' : e'.graph.get? x = some c') :
    c'.outputs = c.outputs ∨ c'.Settled l := by
  have unchanged : e'.graph.get? x = e.graph.get? x → c'.outputs = c.outputs ∨ c'.Settled l := by
    intro same
    rw [same, hc] at hc'
    rw [Option.some.inj hc']
    exact .inl rfl
  cases h with
  | report u => exact unchanged rfl
  | @name id b hb =>
    rcases nameBlock_eq hb with ⟨-, same⟩ | ⟨hin, changed⟩
    · exact unchanged (by rw [same])
    · rw [changed] at hc'
      change (e.graph.modify id (named e.ledger b)).get? x = some c' at hc'
      rw [get?_modify, hc] at hc'
      split at hc'
      · rename_i here
        cases hc.symm.trans (here ▸ hb)
        rw [← Option.some.inj hc']
        exact .inr (settled_named e.ledger hin)
      · rw [Option.some.inj hc']
        exact .inl rfl
  | @route e₁ consumer _ _ i _ _ symbol _ _ _ _ _ _ _ _ carried =>
    change (e₁.graph.modify consumer (enforced i symbol)).get? x = some c' at hc'
    rw [get?_modify, carried.graph, hc] at hc'
    split at hc' <;> obtain rfl := Option.some.inj hc' <;> exact .inl rfl
  | carry _ carried => exact unchanged (by rw [carried.graph])
  | call _ _ _ labelled _ hcall =>
    obtain ⟨b, b', made, called⟩ := hs.called hcall
    by_cases here : x = made.block
    · obtain rfl := called.eq_of_get? (called.made_block ▸ here ▸ hc')
      rw [← hs.language stage]
      refine .inr (called.settled fun hin => ?_)
      exact (settled_iff hin).mp (labelled b called.before hin)
    · exact unchanged (by rw [called.get?, if_neg (called.made_block ▸ here)])

/-- The blocks of `S` have settled symbols or none, and what calls were handed stands for what feeds
them. -/
structure Handing (g : Graph) (l : Language) (S : BlockId → Prop) (e : Emission) : Prop where
  tidy : ∀ x b, S x → e.graph.get? x = some b → (∀ p ∈ b.outputs, p.symbol = "") ∨ b.Settled l
  linked : ∀ x b, S x → e.graph.get? x = some b → ∀ p ∈ b.inputs, p.enforced = true →
    p.link.isSome = true
  handed : ∀ q ∈ e.calls, ∀ (i : Nat) (slot : Slot), q.inputs[i]? = some slot → slot.symbol ≠ "" →
    ∃ s, g.FeedsSlot q.block i s ∧ Handed l e s slot.symbol

namespace Handing

variable {c : Block} {i : Nat} {slot : Slot}

theorem start (hcalls : e.calls = []) (plain : Unrouted S e)
    (blank : ∀ x b, S x → e.graph.get? x = some b → ∀ p ∈ b.outputs, p.symbol = "") :
    Handing g l S e where
  tidy x b hx hb := .inl (blank x b hx hb)
  linked x b hx hb p hp enforced := by
    rw [plain x b hx hb p hp] at enforced
    cases enforced
  handed q hq := by
    rw [hcalls] at hq
    cases hq

theorem handed_read (h : Handing g l S e) (htyped : Typed l S e) (hx : S x)
    (hc : e.graph.get? x = some c) {p : InputSocket} (hp : c.inputs[i]? = some p)
    (closed : ∀ s, p.link = some s → S s.block) (symbol : readSymbol e.graph p ≠ "") :
    ∃ s, p.link = some s ∧ Handed l e s (readSymbol e.graph p) := by
  unfold readSymbol at symbol ⊢
  cases enforced : p.enforced with
  | true =>
    have some := h.linked x c hx hc p (List.mem_of_getElem? hp) enforced
    obtain ⟨s, hl⟩ := Option.isSome_iff_exists.mp some
    exact ⟨s, hl, .inr (htyped.carried x c i p s hx hc hp hl enforced)⟩
  | false =>
    rw [enforced, if_neg Bool.false_ne_true] at symbol
    cases hl : p.link with
    | none =>
      rw [hl] at symbol
      exact absurd rfl symbol
    | some s =>
      rw [hl] at symbol
      refine ⟨s, rfl, .inl ⟨rfl, fun b hb => (h.tidy s.block b (closed s hl) hb).resolve_left ?_⟩⟩
      -- an output without a symbol would have been read as nothing
      intro blank
      change e.graph.symbolAt s ≠ "" at symbol
      rw [symbolAt_of_get? hb, symbolOf] at symbol
      cases ho : b.outputs[s.index]? with
      | none => rw [ho] at symbol; exact symbol rfl
      | some o => rw [ho] at symbol; exact symbol (blank o (List.mem_of_getElem? ho))

theorem handed_arrived (h : Handing g l S e) (htyped : Typed l S e)
    (hsched : Scheduled g l stage T e) {entry : BlockId} (hentry : S entry)
    (hc : e.graph.get? entry = some c) (neutral : c.target = .neutral)
    (closed : ∀ y, e.graph.Upstream entry y → S y) (built : entry ∈ e.built)
    (arrived : Arrived stage e entry slot) (symbol : slot.symbol ≠ "") :
    ∃ s, e.graph.source? ⟨entry, 0⟩ = some s ∧ Handed l e s slot.symbol := by
  cases arrived with
  | free _ blank => exact absurd blank symbol
  | @crossing source producer hsource hp _ hsymbol hvarying =>
    have language : e.fragment.language = l := hsched.steady.language .fragment
    rw [language] at hsymbol
    refine ⟨source, hsource, .inr ⟨?_, hsymbol, hvarying⟩⟩
    -- the entry was called, so what feeds it was called before
    obtain ⟨q, hq, rfl, -⟩ := hsched.built entry built
    obtain ⟨before, after, heq⟩ := append_of_mem hq
    obtain ⟨socket, hsocket, hl⟩ := source?_eq_some_iff.mp hsource
    obtain ⟨c', hc', hi⟩ := input?_eq_some_iff.mp hsocket
    have timely := (hsched.timely before q after heq).of_outlines hsched.steady.outlines
    cases hc.symm.trans hc'
    obtain ⟨q', hq', block, -⟩ :=
      timely.fed c 0 socket source hc hi hl (by simp [isProcessed, neutral])
    exact ⟨q', heq ▸ mem_append_left _ hq', block⟩
  | @reading socket source producer hsocket hl hp stays hsymbol =>
    obtain ⟨c', hc', hi⟩ := input?_eq_some_iff.mp hsocket
    cases hc.symm.trans hc'
    have up : ∀ s, socket.link = some s → e.graph.source? ⟨entry, 0⟩ = some s := fun s hl =>
      source?_eq_some_iff.mpr ⟨socket, hsocket, hl⟩
    rw [hsymbol] at symbol ⊢
    obtain ⟨s, hs, handed⟩ := h.handed_read htyped hentry hc hi
      (fun s hl => closed s.block (upstream_of_source? (up s hl))) symbol
    exact ⟨s, up s hs, handed⟩

theorem handed_last (entered : g.Entered) (sub : ∀ x, T x → S x)
    (closed : ∀ x y, T x → g.Upstream x y → T y) (hsched : Scheduled g l stage T e)
    (htyped : Typed l S e) (h : Handing g l S e) {id : BlockId} {brought : List Slot} {b b' : Block}
    {made : BuildCall} (calling : Calling l stage T id brought e e' b b' made)
    (hslot : made.inputs[i]? = some slot) (symbol : slot.symbol ≠ "") :
    ∃ s, g.FeedsSlot id i s ∧ Handed l e s slot.symbol := by
  have hs := hsched.steady
  have above : ∀ x y, T x → e.graph.Upstream x y → T y := hs.closed closed
  have source : ∀ {r s}, e.graph.source? r = some s → g.source? r = some s := fun hr =>
    (source?_of_outlines hs.outlines _).symm.trans hr
  by_cases inside : i < b.inputs.length
  · have hp := List.getElem?_eq_getElem inside
    obtain ⟨slot', hslot', -, hsymbol⟩ := calling.slots i _ hp
    cases hslot.symm.trans hslot'
    have up : ∀ s, b.inputs[i].link = some s → e.graph.source? ⟨id, i⟩ = some s := fun s hl =>
      source?_eq_some_iff.mpr ⟨_, input?_eq_some_iff.mpr ⟨b, calling.before, hp⟩, hl⟩
    rw [hsymbol] at symbol ⊢
    obtain ⟨s, hl, handed⟩ := h.handed_read htyped (sub id calling.member) calling.before hp
      (fun s hl => sub _ (above id _ calling.member (upstream_of_source? (up s hl)))) symbol
    exact ⟨s, .inl (source (up s hl)), handed⟩
  · obtain ⟨j, rfl⟩ := Nat.exists_eq_add_of_le (Nat.le_of_not_lt inside)
    have brings := calling.teleported j
    rw [hslot] at brings
    have arrived := calling.arrived
    unfold Teleported at arrived
    cases hentry : b.kind.teleportEntry with
    | none =>
      simp only [hentry] at arrived
      rw [arrived] at brings
      cases brings
    | some entry =>
      simp only [hentry] at arrived
      obtain ⟨built, only, rfl, -, harrived⟩ := arrived
      obtain ⟨here, rfl⟩ : j = 0 ∧ only = slot := by
        cases j with
        | zero => exact ⟨rfl, (Option.some.inj brings).symm⟩
        | succ j => cases brings
      obtain ⟨q, hq, rfl, -⟩ := hsched.built entry built
      obtain ⟨up, c, hc, neutral⟩ := exists_entry entered hs calling.before hentry
        (ids_of_outlines hs.outlines ▸ hsched.known q hq)
      have member : T q.block := above id q.block calling.member up
      obtain ⟨s, hsource, handed⟩ := h.handed_arrived htyped hsched (sub q.block member) hc neutral
        (fun y hy => sub y (above q.block y member hy)) built harrived symbol
      obtain ⟨b₀, hb₀, outline⟩ := exists_get?_of_outlines hs.outlines.symm calling.before
      refine ⟨s, .inr ⟨b₀, q.block, hb₀, ?_, ?_, source hsource⟩, handed⟩
      · rw [here, Nat.add_zero]
        have lengths := congrArg (fun o => o.inputs.length) outline
        simpa [Block.outline] using lengths.symm
      · exact origin?_eq_some_iff.mpr
          ⟨b₀, hb₀, (Block.entry_of_outline outline).trans hentry⟩

theorem step (entered : g.Entered) (sub : ∀ x, T x → S x)
    (closed : ∀ x y, T x → g.Upstream x y → T y) (hsched : Scheduled g l stage T e)
    (htyped : Typed l S e) (hstep : Step l stage T e e') (h : Handing g l S e) :
    Handing g l S e' := by
  have hs := hsched.steady
  constructor
  case tidy =>
    intro x b' hx hb'
    obtain ⟨b, hb, hadv, -⟩ := hstep.advances_back hs hb'
    rcases h.tidy x b hx hb with blank | settled
    · rcases hstep.outputs hs hb hb' with same | settled
      · exact .inl (same ▸ blank)
      · exact .inr settled
    · exact .inr (hadv.settled settled).1
  case linked =>
    intro x b' hx hb' p' hp' enforced
    obtain ⟨i, hi⟩ := getElem?_of_mem hp'
    obtain ⟨b, hb, -, -⟩ := hstep.advances_back hs hb'
    rcases hstep.socket hs hb hb' hi with same | ⟨source, _, -, -, link, -⟩
    · exact h.linked x b hx hb p' (mem_of_getElem? same) enforced
    · rw [link]
      rfl
  case handed =>
    intro q hq i slot hslot symbol
    rcases hstep.mem_calls hs hq with hq | ⟨_, _, _, calling⟩
    · obtain ⟨s, feeds, handed⟩ := h.handed q hq i slot hslot symbol
      exact ⟨s, feeds, handed.step hs hstep hsched.settled⟩
    · obtain ⟨s, feeds, handed⟩ :=
        h.handed_last entered sub closed hsched htyped calling hslot symbol
      exact ⟨s, feeds, handed.step hs hstep hsched.settled⟩

end Handing

/-- In an emission from blocks without symbols, calls are handed what stands for what feeds them. -/
theorem run_handing (hs : Ongoing g l e) (entered : g.Entered) (hcalls : e.calls = [])
    (hbuilt : e.built = []) {vertexNodes fragmentNodes : List BlockId}
    (subV : ∀ x ∈ g.gather vertexNodes, S x) (subF : ∀ x ∈ g.gather fragmentNodes, S x)
    (plain : Unrouted S e)
    (blank : ∀ x b, S x → e.graph.get? x = some b → ∀ p ∈ b.outputs, p.symbol = "")
    (h : e.run vertexNodes fragmentNodes = .ok e') : Handing g l S e' := by
  have steps : ∀ {stage : Stage} {T : BlockId → Prop} {e e' : Emission}, (∀ x, T x → S x) →
      (∀ x y, T x → g.Upstream x y → T y) → Scheduled g l stage T e → Typed l S e →
      Handing g l S e → Steps l stage T e e' →
      Scheduled g l stage T e' ∧ Typed l S e' ∧ Handing g l S e' := by
    intro stage T e e' sub closed hsched htyped handing hsteps
    exact Steps.lasts
      (P := fun e => Scheduled g l stage T e ∧ Typed l S e ∧ Handing g l S e)
      (fun _ _ _ hstep h => ⟨h.1.step closed hstep, h.2.1.step sub h.1 hstep,
        h.2.2.step entered sub closed h.1 h.2.1 hstep⟩)
      hsched.steady hsteps ⟨hsched, htyped, handing⟩
  obtain ⟨e₁, steps₁, steps₂, -⟩ := run_steps hs h
  obtain ⟨vertex, typed, handing⟩ := steps subV (hs.outset.closed_gather vertexNodes)
    (Scheduled.start hs hcalls hbuilt) (Typed.start hcalls plain) (.start hcalls plain blank) steps₁
  have reopened := vertex.reopen fragmentNodes
  rw [gather_of_outlines vertex.steady.outlines] at reopened
  exact (steps subF (hs.outset.closed_gather fragmentNodes) reopened ⟨typed.carried, typed.checked⟩
    ⟨handing.tidy, handing.linked, handing.handed⟩ steps₂).2.2

end Emission

/-! ## 2. Builds -/

/-- The code of the fragment stage has the lines by which the call of a fog asks for the distance
and computes its output, if there is fog. -/
def CompiledGraph.ReadsDistance (c : CompiledGraph) (q : BuildCall) : Prop :=
  ∃ factor rgb output, q.outputs.find? (fun slot => slot.name == "output") = some output ∧
    ∀ defines fills, defines.isDefined "FOG" = true → ∃ before after,
      Segment.renders defines fills c.fragment.body =
        before ++ c.language.fogged factor rgb (q.symbol "fogColor") output ++ after

namespace Material

variable {m m' : Material} {c : CompiledGraph} {e : Emission}

theorem emission_handing (hm : m.Reachable) (hf : m.prepare.state.fault = none)
    (he : m.emission = .ok e) :
    ∃ S, Emission.Handing m.prepare.state.graph m.options.language S e := by
  have hw := hm.wellFormed
  have hscope := scope_prepare hw.graph hf
  obtain ⟨vertex, fragment⟩ := hscope.gathered hw.modest
  have entered := (extends_prepare hw.graph).1.entered hm.entered
  refine ⟨_, run_handing (steady_unwritten hw.graph) entered
    rfl rfl vertex fragment (fun x b hx hb => hscope.plain x hx b hb) ?_ he⟩
  intro x b hx hb p hp
  have fresh := (fresh_prepare hw.graph hf hx b hb).outputs
  rw [← fresh] at hp
  obtain ⟨p₀, -, rfl⟩ := mem_map.mp hp
  rfl

theorem readsDistance (hm : m.WellFormed) (he : m.emission = .ok e)
    (hc : finish { m with pass := m.pass.next } e = .ok c) {q : BuildCall} (hq : q ∈ e.calls)
    (stage : q.stage = .fragment) {b : Block} (hb : e.graph.get? q.block = some b)
    (isFog : b.kind.isFog = true) : c.ReadsDistance q := by
  have hs := steady_emission hm.graph he
  obtain ⟨b₀, hb₀, same⟩ := exists_get?_of_outlines hs.outlines.symm hb
  obtain ⟨factor, rgb, output, ho, stands⟩ :=
    ((emission_lined hm.graph he).left q hq b₀ hb₀).fog ((isFog_of_outline same).trans isFog)
      stage
  rw [stage] at stands
  obtain ⟨-, -, -, language, -⟩ := finish_eq_ok hc
  refine ⟨factor, rgb, output, ho, ?_⟩
  rw [language, show c.fragment.body = e.fragment.code.root from body_finish hc .fragment]
  exact stands

/-- Every varying is declared once, and filled once, outside all regions. What a block is handed is
the symbol of what feeds it or names a varying that is declared; so does what a fog reads, as long
as the optimizers keep the roots of the vertex stage that have a fog behind them. -/
theorem build_varyings (hm : m.Reachable) (h : m.build = (.ok c, m')) :
    (c.varyings.map VaryingDecl.name).Nodup ∧
    ∃ e ops, m.emission = .ok e ∧ m'.graph = e.graph ∧
      ({} : CodeBuffer).applyAll ops = .ok { root := c.vertex.body } ∧
      (e.Legible → ∀ op ∈ ops, op.IsWhole) ∧
      (∀ v ∈ c.varyings, ∃ value, (v.name = "v_" ++ value ∨ v.name = "vFogDistance") ∧
        FilledOnce ops (c.language.varyingRef .vertex v.name) value) ∧
      (∀ q ∈ e.calls, ∀ (i : Nat) (slot : Slot), q.inputs[i]? = some slot → slot.symbol ≠ "" →
        ∃ s, m'.graph.FeedsSlot q.block i s ∧ (slot.symbol = m'.graph.symbolAt s ∨
          slot.symbol = c.language.varyingRef .fragment ("v_" ++ m'.graph.symbolAt s) ∧
            ∃ v ∈ c.varyings, v.name = "v_" ++ m'.graph.symbolAt s)) ∧
      (m.KeepsFogs → ∀ q ∈ e.calls, q.stage = .fragment → ∀ b, m'.graph.get? q.block = some b →
        b.kind.isFog = true → c.ReadsDistance q ∧ ∃ v ∈ c.varyings, v.name = "vFogDistance") := by
  obtain ⟨hf, e, he, hc, hgraph⟩ := build_eq_ok h
  have hw := hm.wellFormed
  obtain ⟨level, body, -, language, varyings, -⟩ := finish_eq_ok hc
  obtain ⟨ops, log⟩ := emission_log hw.graph he
  obtain ⟨S, handing⟩ := emission_handing hm hf he
  have outlines : e.graph.outlines = m.prepare.state.graph.outlines :=
    (steady_emission hw.graph he).outlines
  have listed : ∀ {name}, e.ledger.hasVarying name = true →
      ∃ v ∈ e.ledger.varyings, v.name = name := by
    intro name known
    obtain ⟨v, hv, hname⟩ := List.any_eq_true.mp known
    exact ⟨v, hv, beq_iff_eq.mp hname⟩
  rw [varyings, hgraph, language]
  refine ⟨log.distinct, e, ops, he, rfl, ?_, log.whole, log.filled, ?_, ?_⟩
  · rw [body, log.replay, ← level]
  · intro q hq i slot hslot symbol
    obtain ⟨s, feeds, handed⟩ := handing.handed q hq i slot hslot symbol
    refine ⟨s, feeds.of_outlines outlines, handed.imp And.left fun varying => ?_⟩
    exact ⟨varying.2.1, listed varying.2.2⟩
  · intro keeps q hq stage b hb isFog
    obtain ⟨b₀, hb₀, same⟩ := exists_get?_of_outlines outlines.symm hb
    have isFog₀ : b₀.kind.isFog = true := (Block.isFog_of_outline same).trans isFog
    refine ⟨readsDistance hw he hc hq stage hb isFog, ?_⟩
    obtain ⟨q', hq', fogCall⟩ := exists_fogCall hm keeps hf he ⟨q, hq, rfl, stage⟩ hb₀ isFog₀
    have found : (e.calls.find? m.prepare.state.graph.isFogCall).isSome = true :=
      List.find?_isSome.mpr ⟨q', hq', fogCall⟩
    obtain ⟨first, hfirst⟩ := Option.isSome_iff_exists.mp found
    exact listed (log.distance first hfirst).1

end Material

/-! ## 3. Fogs -/

/-- What a fog should take for the distance, by the symbols of what feeds its first two inputs: the
position and the view. -/
def Graph.fogDistance (g : Graph) (x : BlockId) : Option String := do
  let position ← g.source? ⟨x, 0⟩
  let view ← g.source? ⟨x, 1⟩
  return FogBlock.distanceValue (g.symbolAt view) (g.symbolAt position)

namespace Emission

variable {e e' : Emission} {g : Graph} {l : Language} {S : BlockId → Prop}

/-- The calls for the vertex stage have read right symbols, whatever is built for the other stage.
-/
theorem run_vertexSound (hs : Ongoing g l e) (entered : g.Entered) (hbuilt : e.built = [])
    (hcalls : e.calls = []) (hvaryings : e.ledger.varyings = [])
    {vertexNodes fragmentNodes : List BlockId} (subV : ∀ x ∈ g.gather vertexNodes, S x)
    (plain : Unrouted S e) (h : e.run vertexNodes fragmentNodes = .ok e') :
    AllSettled l e' ∧ ∀ before q after, e'.calls = before ++ q :: after → q.stage = .vertex →
      CallSound l e' before q := by
  obtain ⟨e₁, steps₁, steps₂, -⟩ := run_steps hs h
  have vertex : VertexStage g l (fun x => x ∈ g.gather vertexNodes) S e₁ :=
    (VertexStage.start hs entered hbuilt hcalls hvaryings plain).steps
      (hs.outset.closed_gather vertexNodes) subV steps₁
  refine Steps.lasts (P := fun e => AllSettled l e ∧ ∀ before q after,
    e.calls = before ++ q :: after → q.stage = .vertex → CallSound l e before q) ?_
    (vertex.steady.between fragmentNodes) steps₂ ⟨vertex.settled, ?_⟩
  · rintro e e' hs hstep ⟨settled, sound⟩
    refine ⟨settled.step hs hstep, fun before q after heq stage => ?_⟩
    have old : ∀ after, e.calls = before ++ q :: after → CallSound l e' before q := fun after heq =>
      (sound before q after heq stage).step hs hstep settled
        (heq ▸ subset_append_left _ _) nofun
    rcases hstep.quiet_or_calling hs with quiet | ⟨_, _, _, _, _, calling⟩
    · exact old after (quiet.calls ▸ heq)
    · rw [calling.calls] at heq
      rcases split_append_singleton heq with ⟨-, rfl⟩ | ⟨init, heq⟩
      · rw [calling.made_stage] at stage
        cases stage
      · exact old init heq
  · intro before q after heq stage
    exact (vertex.sound before q after heq).reopen fragmentNodes stage

end Emission

namespace Graph

variable {g g' : Graph}

theorem isFogCall_of_outlines (h : g'.outlines = g.outlines) (q : BuildCall) :
    g'.isFogCall q = g.isFogCall q := by
  unfold isFogCall
  cases hb : g.get? q.block with
  | none =>
    have none : g'.get? q.block = none := by
      rw [get?_eq_none_iff, ids_of_outlines h, ← get?_eq_none_iff]
      exact hb
    rw [none]
  | some b =>
    obtain ⟨b', hb', same⟩ := exists_get?_of_outlines h hb
    rw [hb', any_some, any_some, isFog_of_outline same]

end Graph

namespace Material

variable {m m' : Material} {c : CompiledGraph} {e : Emission} {q : BuildCall}

theorem emission_vertexSound (hm : m.WellFormed) (entered : m.graph.Entered)
    (hf : m.prepare.state.fault = none) (he : m.emission = .ok e) {before after : List BuildCall}
    (heq : e.calls = before ++ q :: after) (stage : q.stage = .vertex) :
    Emission.CallSound m.options.language e before q := by
  obtain ⟨extension, names, ledger⟩ := extends_prepare hm.graph
  have hscope := scope_prepare hm.graph hf
  refine (run_vertexSound (steady_unwritten hm.graph) (extension.entered entered) rfl rfl ?_
    (hscope.gathered hm.modest).1 (fun x b hx hb => hscope.plain x hx b hb) he).2 before q after heq
    stage
  change m.prepare.state.ledger.varyings = []
  rw [ledger]
  rfl

/-- In a pass without problems a fog that was called has a distance of its own. If it was called for
the vertex stage, this is what it takes for the distance. -/
theorem exists_fogDistance (hm : m.Reachable) (hf : m.prepare.state.fault = none)
    (he : m.emission = .ok e) (clean : e.ledger.errors = []) (hq : q ∈ e.calls) {b : Block}
    (hb : e.graph.get? q.block = some b) (isFog : b.kind.isFog = true) :
    ∃ own, e.graph.fogDistance q.block = some own ∧ (q.stage = .vertex → q.distance = own) := by
  obtain ⟨f, hk⟩ : ∃ f, b.kind = .fog f := by
    cases hk : b.kind <;> rw [hk] at isFog <;> first | exact ⟨_, rfl⟩ | cases isFog
  have inputs : b.kind.inputs = FogBlock.inputs := by rw [hk]; rfl
  have linked : ∀ {i spec}, FogBlock.inputs[i]? = some spec → spec.optional = false →
      ∃ (p : InputSocket) (s : SocketRef), b.inputs[i]? = some p ∧ p.spec = spec ∧
        p.link = some s :=
    fun hspec required => emission_linked hm hf he clean hq hb (inputs ▸ hspec) required
  obtain ⟨p₀, position, hp₀, spec₀, link₀⟩ := linked (i := 0) rfl rfl
  obtain ⟨p₁, view, hp₁, spec₁, link₁⟩ := linked (i := 1) rfl rfl
  have source : ∀ {i p s}, b.inputs[i]? = some p → p.link = some s →
      e.graph.source? ⟨q.block, i⟩ = some s := fun hp hl =>
    source?_eq_some_iff.mpr ⟨_, input?_eq_some_iff.mpr ⟨b, hb, hp⟩, hl⟩
  refine ⟨FogBlock.distanceValue (e.graph.symbolAt view) (e.graph.symbolAt position), ?_, ?_⟩
  · rw [fogDistance, source hp₀ link₀, source hp₁ link₁]
    rfl
  intro stage
  obtain ⟨before, after, heq⟩ := append_of_mem hq
  have sound := emission_vertexSound hm.wellFormed hm.entered hf he heq stage
  have reads : ∀ {i : Nat} {p : InputSocket} {s : SocketRef}, b.inputs[i]? = some p →
      p.link = some s → p.spec.target = .vertex →
      ∃ slot : Slot, q.inputs[i]? = some slot ∧ slot.name = p.spec.name ∧
        slot.symbol = e.graph.symbolAt s := by
    intro i p s hp hl target
    have processed : Emission.isProcessed b q.stage p.spec = true := by
      rw [Emission.isProcessed, Block.target, (Kind.isFog_iff.mp isFog).2, stage, target]
      decide
    obtain ⟨slot, hslot, name, hreads⟩ := sound.inputs b i p s hb hp hl processed
    rw [stage] at hreads
    cases hreads with
    | direct _ _ _ _ _ symbol => exact ⟨slot, hslot, name, symbol⟩
    | declared _ _ other => cases other
    | varying _ other => cases other
  obtain ⟨slot₀, hslot₀, name₀, symbol₀⟩ := reads hp₀ link₀ (by rw [spec₀])
  obtain ⟨slot₁, hslot₁, name₁, symbol₁⟩ := reads hp₁ link₁ (by rw [spec₁])
  rw [spec₀] at name₀
  rw [spec₁] at name₁
  have slots : ∃ rest, q.inputs = slot₀ :: slot₁ :: rest := by
    cases hi : q.inputs with
    | nil => rw [hi] at hslot₀; cases hslot₀
    | cons a tail =>
      rw [hi] at hslot₀ hslot₁
      cases tail with
      | nil => cases hslot₁
      | cons a' rest =>
        rw [Option.some.inj hslot₀, Option.some.inj hslot₁]
        exact ⟨rest, rfl⟩
  obtain ⟨rest, slots⟩ := slots
  have atPosition : q.symbol "worldPosition" = slot₀.symbol := by
    rw [BuildCall.symbol, slots, find?_cons_of_pos (by rw [name₀]; rfl)]
    rfl
  have atView : q.symbol "view" = slot₁.symbol := by
    rw [BuildCall.symbol, slots, find?_cons_of_neg (by rw [name₀]; decide),
      find?_cons_of_pos (by rw [name₁]; rfl)]
    rfl
  rw [BuildCall.distance, atPosition, atView, symbol₀, symbol₁]

/-- Each fog that is built for the fragment stage reads the distance under one name. In a build
without problems the vertex stage fills it from the view and the position of the fog exactly if the
first fog that is called for that stage takes the same. -/
theorem build_fog_distance (hm : m.Reachable) (h : m.build = (.ok c, m')) (clean : c.errors = []) :
    ∃ e ops, m.emission = .ok e ∧ m'.graph = e.graph ∧
      ({} : CodeBuffer).applyAll ops = .ok { root := c.vertex.body } ∧
      (e.Legible → ∀ op ∈ ops, op.IsWhole) ∧
      ∀ q ∈ e.calls, q.stage = .fragment → ∀ b, m'.graph.get? q.block = some b →
        b.kind.isFog = true → c.ReadsDistance q ∧
        ∃ own, m'.graph.fogDistance q.block = some own ∧
          (FilledOnce ops (c.language.varyingRef .vertex "vFogDistance") own ↔
            ∃ first, e.calls.find? m'.graph.isFogCall = some first ∧
              m'.graph.fogDistance first.block = some own) := by
  obtain ⟨hf, e, he, hc, hgraph⟩ := build_eq_ok h
  have hw := hm.wellFormed
  obtain ⟨level, body, -, language, -, errors⟩ := finish_eq_ok hc
  rw [errors] at clean
  obtain ⟨ops, log⟩ := emission_log hw.graph he
  have outlines : e.graph.outlines = m.prepare.state.graph.outlines :=
    (steady_emission hw.graph he).outlines
  have fogCall : e.graph.isFogCall = m.prepare.state.graph.isFogCall :=
    funext (isFogCall_of_outlines outlines)
  rw [hgraph, language, fogCall]
  refine ⟨e, ops, he, rfl, by rw [body, log.replay, ← level], log.whole, ?_⟩
  intro q hq stage b hb isFog
  refine ⟨readsDistance hw he hc hq stage hb isFog, ?_⟩
  obtain ⟨own, hown, -⟩ := exists_fogDistance hm hf he clean hq hb isFog
  -- the first fog that is called fills the distance with its own
  have first : ∀ first, e.calls.find? m.prepare.state.graph.isFogCall = some first →
      ∃ value, e.graph.fogDistance first.block = some value ∧
        FilledOnce ops (m.options.language.varyingRef .vertex "vFogDistance") value := by
    intro first hfirst
    have isFirst := List.find?_some hfirst
    rw [← fogCall, isFogCall, Bool.and_eq_true, Option.any_eq_true] at isFirst
    obtain ⟨stage, b, hb, isFog⟩ := isFirst
    obtain ⟨value, hvalue, same⟩ := exists_fogDistance hm hf he clean
      (List.mem_of_find?_eq_some hfirst) hb isFog
    exact ⟨value, hvalue, same (beq_iff_eq.mp stage) ▸ (log.distance first hfirst).2⟩
  refine ⟨own, hown, fun filled => ?_, fun found => ?_⟩
  · cases hfirst : e.calls.find? m.prepare.state.graph.isFogCall with
    | none =>
      obtain ⟨before, after, -, hops, -⟩ := filled
      refine absurd rfl (log.free _ (.inl rfl) (log.noFog hfirst) (.assign _ own) ?_)
      rw [hops]
      exact List.mem_append_right _ List.mem_cons_self
    | some q' =>
      obtain ⟨value, hvalue, filled'⟩ := first q' hfirst
      exact ⟨q', rfl, hvalue.trans (congrArg some (filled'.unique filled))⟩
  · obtain ⟨q', hfirst, same⟩ := found
    obtain ⟨value, hvalue, filled⟩ := first q' hfirst
    rw [hvalue] at same
    exact Option.some.inj same ▸ filled

end Material

/-! ## 4. Materials with fog -/

namespace Search

variable {α : Type} [DecidableEq α] {all : List α} {next : α → List α}

/-- The same search in a number of turns that is given beforehand, so that it can be computed. -/
def preorderWithin (all : List α) (next : α → List α) : Nat → List α → List α → Option (List α)
  | _, seen, [] => some seen.reverse
  | 0, _, _ :: _ => none
  | turns + 1, seen, n :: rest =>
    if n ∈ all ∧ n ∉ seen then preorderWithin all next turns (n :: seen) (next n ++ rest)
    else preorderWithin all next turns seen rest

theorem preorder_of_within {turns : Nat} {seen todo found : List α}
    (h : preorderWithin all next turns seen todo = some found) :
    preorder all next seen todo = found := by
  fun_induction preorderWithin all next turns seen todo with
  | case1 turns seen => rw [preorder, Option.some.inj h]
  | case2 seen n rest => cases h
  | case3 seen n rest turns here ih => rw [preorder, dif_pos here, ih h]
  | case4 seen n rest turns there ih => rw [preorder, dif_neg there, ih h]

end Search

namespace Material

variable {m : Material} {e : Emission} {turns : Nat}

/-- The emission of a pass, if the search in between takes no more turns. -/
def emissionWithin (m : Material) (turns : Nat) : Option Emission := do
  let later := mergeNodes m.prepare.fromVertex m.keptRoots.fragment
  let e ← (m.unwritten.buildAll .vertex
    (mergeNodes m.keptRoots.vertex m.prepare.fromFragment)).toOption
  let reached ← Search.preorderWithin e.graph.ids e.graph.feeders turns [] later
  let reopened : Emission :=
    { e.shareDeclarations with
      built := e.built.filter fun id => !Emission.isDual e.graph reached id }
  (reopened.buildAll .fragment later).toOption

theorem emission_of_within (h : m.emissionWithin turns = some e) : m.emission = .ok e := by
  have ok : ∀ {x : Except Emission.Halt Emission} {e}, x.toOption = some e → x = .ok e := by
    rintro (_ | _) _ ⟨⟩
    rfl
  obtain ⟨e₁, h₁, h⟩ := bind_eq_some_iff.mp h
  obtain ⟨reached, hreached, h⟩ := bind_eq_some_iff.mp h
  rw [emission_eq_run, Emission.run, ok h₁]
  change (e₁.shareDeclarations.reopenDual _).buildAll .fragment _ = _
  rw [← ok h, Emission.reopenDual]
  change Emission.buildAll _ _ { e₁.shareDeclarations with
    built := e₁.built.filter fun id => !Emission.isDual e₁.graph (e₁.graph.gather _) id } = _
  rw [gather, Search.preorder_of_within hreached]

theorem exists_build_within {p : Emission → Bool} (turns : Nat) (rooted : m.build = m.runPass)
    (clear : m.prepare.state.fault.isNone = true)
    (h : ((m.emissionWithin turns).any fun e => p e &&
      (finish { m with pass := m.pass.next } e).toOption.any fun c => c.errors.isEmpty) = true) :
    ∃ c m' e, m.build = (.ok c, m') ∧ c.errors = [] ∧ m.emission = .ok e ∧
      finish { m with pass := m.pass.next } e = .ok c ∧ m'.graph = e.graph ∧ p e = true := by
  obtain ⟨e, within, found⟩ := (any_eq_true _ _).mp h
  obtain ⟨hp, ended⟩ := Bool.and_eq_true_iff.mp found
  obtain ⟨c, hc, clean⟩ := exists_ok_of_any ended
  have he := emission_of_within within
  have pass := runPass_eq_ok (isNone_iff_eq_none.mp clear) he hc
  have built : m.build = (.ok c, m.runPass.2) := rooted.trans (Prod.ext pass rfl)
  obtain ⟨-, e', he', -, graph⟩ := build_eq_ok built
  cases he.symm.trans he'
  exact ⟨c, _, e, built, isEmpty_iff.mp clean, he, hc, graph, hp⟩

def unfogged : Material :=
  ((((loose.addBlock "fog" (.fog {})).addBlock "position"
    (.input (.ofAttribute "position" .vector4))).addBlock "view"
    (.input (.ofSystem .view))).addBlock "fogColor" (.input (.ofSystem .fogColor)))

def fogged : Material :=
  let fed := (unfogged.graph.link ⟨⟨1⟩, 0⟩ ⟨⟨3⟩, 2⟩).link ⟨⟨4⟩, 0⟩ ⟨⟨3⟩, 0⟩
  { unfogged with graph := (fed.link ⟨⟨5⟩, 0⟩ ⟨⟨3⟩, 1⟩).link ⟨⟨6⟩, 0⟩ ⟨⟨3⟩, 3⟩ }

/-- A particle that does not use its fog, which is a root of its own. -/
def foggy : Material :=
  { fogged with graph := fogged.graph.link ⟨⟨1⟩, 0⟩ ⟨⟨2⟩, 0⟩, roots := ⟨[⟨3⟩], [⟨2⟩, ⟨3⟩]⟩ }

def hazy : Material := { foggy with optimizers := [dropVertex] }

/-- A second fog, at another position, not connected yet. -/
def layered : Material :=
  (fogged.addBlock "far" (.fog {})).addBlock "offset" (.input (.ofAttribute "offset" .vector4))

/-- A particle in two fogs. -/
def misty : Material :=
  let fed := (layered.graph.link ⟨⟨3⟩, 0⟩ ⟨⟨7⟩, 2⟩).link ⟨⟨8⟩, 0⟩ ⟨⟨7⟩, 0⟩
  let seen := (fed.link ⟨⟨5⟩, 0⟩ ⟨⟨7⟩, 1⟩).link ⟨⟨6⟩, 0⟩ ⟨⟨7⟩, 3⟩
  { layered with graph := seen.link ⟨⟨7⟩, 0⟩ ⟨⟨2⟩, 1⟩ }

theorem reachable_fogged : fogged.Reachable := by
  have blocks : unfogged.Reachable := reachable_loose.addBlock "fog" (.fog {}) nofun
    |>.addBlock "position" (.input (.ofAttribute "position" .vector4)) nofun
    |>.addBlock "view" (.input (.ofSystem .view)) nofun
    |>.addBlock "fogColor" (.input (.ofSystem .fogColor)) nofun
  exact blocks.connectAll [(⟨⟨1⟩, 0⟩, ⟨⟨3⟩, 2⟩), (⟨⟨4⟩, 0⟩, ⟨⟨3⟩, 0⟩), (⟨⟨5⟩, 0⟩, ⟨⟨3⟩, 1⟩),
    (⟨⟨6⟩, 0⟩, ⟨⟨3⟩, 3⟩)] fogged.graph (by cbv)

theorem reachable_foggy : foggy.Reachable := by
  have output := reachable_fogged.connectAll [(⟨⟨1⟩, 0⟩, ⟨⟨2⟩, 0⟩)]
    foggy.graph (by cbv)
  exact output.addRoot (show addRoot _ ⟨3⟩ = .ok foggy from rfl)

theorem reachable_misty : misty.Reachable := by
  have blocks : layered.Reachable := reachable_fogged.addBlock "far" (.fog {}) nofun
    |>.addBlock "offset" (.input (.ofAttribute "offset" .vector4)) nofun
  exact blocks.connectAll [(⟨⟨3⟩, 0⟩, ⟨⟨7⟩, 2⟩), (⟨⟨8⟩, 0⟩, ⟨⟨7⟩, 0⟩), (⟨⟨5⟩, 0⟩, ⟨⟨7⟩, 1⟩),
    (⟨⟨6⟩, 0⟩, ⟨⟨7⟩, 3⟩), (⟨⟨7⟩, 0⟩, ⟨⟨2⟩, 1⟩)] misty.graph (by cbv)

/-- The calls of a fog for the fragment stage. -/
def asks (e : Emission) (x : BlockId) (q : BuildCall) : Bool :=
  q.stage == .fragment && q.block == x && (e.graph.get? x).any fun b => b.kind.isFog

theorem asks_iff {x : BlockId} {q : BuildCall} : asks e x q = true ↔
    q.stage = .fragment ∧ q.block = x ∧ ∃ b, e.graph.get? x = some b ∧ b.kind.isFog = true := by
  rw [asks, Bool.and_eq_true, Bool.and_eq_true, beq_iff_eq, beq_iff_eq, and_assoc,
    Option.any_eq_true]

theorem foggy_varyings :
    foggy.Reachable ∧ foggy.KeepsFogs ∧ ∃ c m', foggy.build = (.ok c, m') ∧
      (c.varyings.map VaryingDecl.name).Nodup ∧
      ∃ e ops, foggy.emission = .ok e ∧
        ({} : CodeBuffer).applyAll ops = .ok { root := c.vertex.body } ∧
        (∃ v ∈ c.varyings, v.name = "v_color" ∧ ∃ value,
          FilledOnce ops (c.language.varyingRef .vertex "v_color") value) ∧
        ∃ q ∈ e.calls, q.stage = .fragment ∧ q.block = ⟨3⟩ ∧ c.ReadsDistance q ∧
          ∃ v ∈ c.varyings, v.name = "vFogDistance" := by
  have keeps : foggy.KeepsFogs := fun n hn _ _ _ _ _ => hn
  obtain ⟨c, m', e, h, -, he, hc, -, found⟩ := exists_build_within (m := foggy) 12 rfl
    (p := fun e => (e.ledger.varyings.any fun v => v.name == "v_color") && e.calls.any (asks e ⟨3⟩))
    (by decide +kernel) (by decide +kernel)
  obtain ⟨carried, called⟩ := Bool.and_eq_true_iff.mp found
  obtain ⟨v, hv, name⟩ := List.any_eq_true.mp carried
  obtain ⟨q, hq, asked⟩ := List.any_eq_true.mp called
  obtain ⟨stage, block, b, hb, isFog⟩ := asks_iff.mp asked
  rw [← block] at hb
  obtain ⟨distinct, e', ops, he', hgraph, replay, -, filled, -, fogs⟩ :=
    build_varyings reachable_foggy h
  cases he.symm.trans he'
  obtain ⟨-, -, -, -, varyings, -⟩ := finish_eq_ok hc
  rw [← varyings] at hv
  obtain ⟨value, -, once⟩ := filled v hv
  rw [beq_iff_eq.mp name] at once
  exact ⟨reachable_foggy, keeps, c, m', h, distinct, e, ops, he, replay,
    ⟨v, hv, beq_iff_eq.mp name, value, once⟩, q, hq, stage, block,
    fogs keeps q hq stage b (hgraph ▸ hb) isFog⟩

/-- If an optimizer drops the root that has a fog, the fog reads a distance that is not declared. -/
theorem hazy_distance_undeclared :
    hazy.Reachable ∧ ∃ c m' e, hazy.build = (.ok c, m') ∧ c.errors = [] ∧ hazy.emission = .ok e ∧
      (∃ q ∈ e.calls, q.stage = .fragment ∧ q.block = ⟨3⟩ ∧ c.ReadsDistance q) ∧
      ∀ v ∈ c.varyings, v.name ≠ "vFogDistance" := by
  have hm : hazy.Reachable :=
    .addOptimizer dropVertex reachable_foggy fun _ _ => ⟨nofun, fun _ hx => .inl hx⟩
  obtain ⟨c, m', e, h, clean, he, hc, -, found⟩ := exists_build_within (m := hazy) 12 rfl
    (p := fun e => (e.ledger.varyings.all fun v => v.name != "vFogDistance") &&
      e.calls.any (asks e ⟨3⟩))
    (by decide +kernel) (by decide +kernel)
  obtain ⟨missing, called⟩ := Bool.and_eq_true_iff.mp found
  obtain ⟨q, hq, asked⟩ := List.any_eq_true.mp called
  obtain ⟨stage, block, b, hb, isFog⟩ := asks_iff.mp asked
  rw [← block] at hb
  obtain ⟨-, -, -, -, varyings, -⟩ := finish_eq_ok hc
  rw [← varyings] at missing
  exact ⟨hm, c, m', e, h, clean, he,
    ⟨q, hq, stage, block, readsDistance hm.wellFormed he hc hq stage hb isFog⟩,
    fun v hv => bne_iff_ne.mp (List.all_eq_true.mp missing v hv)⟩

theorem misty_far_distance :
    misty.Reachable ∧ ∃ c m', misty.build = (.ok c, m') ∧ c.errors = [] ∧
      ∃ e ops, misty.emission = .ok e ∧
        ({} : CodeBuffer).applyAll ops = .ok { root := c.vertex.body } ∧
        ∃ q ∈ e.calls, q.stage = .fragment ∧ q.block = ⟨7⟩ ∧ c.ReadsDistance q ∧
          ∃ own, m'.graph.fogDistance ⟨7⟩ = some own ∧
            FilledOnce ops (c.language.varyingRef .vertex "vFogDistance") own := by
  obtain ⟨c, m', e, h, clean, he, -, -, found⟩ := exists_build_within (m := misty) 20 rfl
    (p := fun e => e.calls.any (asks e ⟨7⟩) &&
      (e.calls.find? e.graph.isFogCall).any fun q => q.block == ⟨7⟩)
    (by decide +kernel) (by decide +kernel)
  obtain ⟨called, first⟩ := Bool.and_eq_true_iff.mp found
  obtain ⟨q, hq, asked⟩ := List.any_eq_true.mp called
  obtain ⟨stage, block, b, hb, isFog⟩ := asks_iff.mp asked
  obtain ⟨q', hq', same⟩ := (Option.any_eq_true _ _).mp first
  obtain ⟨e', ops, he', hgraph, replay, -, fogs⟩ := build_fog_distance reachable_misty h clean
  cases he.symm.trans he'
  rw [← hgraph] at hb hq'
  obtain ⟨reads, own, hown, filled⟩ := fogs q hq stage b (block ▸ hb) isFog
  rw [block] at hown
  refine ⟨reachable_misty, c, m', h, clean, e, ops, he, replay, q, hq, stage, block, reads, own,
    hown, filled.mpr ⟨q', hq', ?_⟩⟩
  rw [beq_iff_eq.mp same]
  exact hown

/-- The code is one text. -/
def isText (code : String) : List Segment → Bool
  | [.text s] => s == code
  | _ => false

theorem eq_of_isText {code : String} {body : List Segment} (h : isText code body = true) :
    body = [.text code] := by
  unfold isText at h
  split at h
  · rw [beq_iff_eq.mp h]
  · cases h

/-- Of two fogs at different positions, one uses the distance of the other. -/
theorem misty_near_distance :
    misty.Reachable ∧ ∃ c m' e, misty.build = (.ok c, m') ∧ c.errors = [] ∧
      misty.emission = .ok e ∧
      (∃ q ∈ e.calls, q.stage = .fragment ∧ q.block = ⟨3⟩ ∧ c.ReadsDistance q) ∧
      m'.graph.fogDistance ⟨3⟩ = some "(uniforms.u_View * position).xyz" ∧
      ∀ defines fills, Segment.renders defines fills c.vertex.body =
        "vertexOutputs.vFogDistance = (uniforms.u_View * offset).xyz;\n" ++
          "vertexOutputs.v_color = color;\n" := by
  obtain ⟨c, m', e, h, clean, he, hc, hgraph, found⟩ := exists_build_within (m := misty) 20 rfl
    (p := fun e => e.calls.any (asks e ⟨3⟩) &&
      (e.graph.fogDistance ⟨3⟩ == some "(uniforms.u_View * position).xyz" &&
        isText ("vertexOutputs.vFogDistance = (uniforms.u_View * offset).xyz;\n" ++
          "vertexOutputs.v_color = color;\n") e.vertex.code.root))
    (by decide +kernel) (by decide +kernel)
  obtain ⟨called, found⟩ := Bool.and_eq_true_iff.mp found
  obtain ⟨own, code⟩ := Bool.and_eq_true_iff.mp found
  obtain ⟨q, hq, asked⟩ := List.any_eq_true.mp called
  obtain ⟨stage, block, b, hb, isFog⟩ := asks_iff.mp asked
  rw [← block] at hb
  refine ⟨reachable_misty, c, m', e, h, clean, he,
    ⟨q, hq, stage, block, readsDistance reachable_misty.wellFormed he hc hq stage hb isFog⟩,
    hgraph ▸ beq_iff_eq.mp own, fun defines fills => ?_⟩
  rw [show c.vertex.body = e.vertex.code.root from body_finish hc .vertex, eq_of_isText code]
  exact String.append_empty

end Material

end ShaderGraph
