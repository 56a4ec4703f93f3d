import ShaderGraph.Proofs.Reading

/-!
# The two stages of an emission

The vertex stage keeps `VertexStage`, the fragment stage `FragmentStage`. Both hold what is needed
to show that the next call reads right symbols. `run_sound` puts the two together.
-/

namespace ShaderGraph.Emission

open Relation List ShaderGraph.Graph Block Kind Bool String

variable {e e' : Emission} {id x : BlockId} {g : Graph} {l : Language} {T : BlockId → Prop}
  {d : StageDraft} {symbol : String} {α : Type} {S : BlockId → Prop}
  {vertexNodes fragmentNodes : List BlockId}

/-! ## 1. The vertex stage -/

theorem Step.varyings_of_vertex (hs : Ongoing g l e) (h : Step l .vertex T e e')
    {v : VaryingDecl} (hv : v ∈ e'.ledger.varyings) :
    v ∈ e.ledger.varyings ∨ v.name = FogBlock.distanceVarying := by
  have grows : ∀ {l l' : Ledger}, l.Grows l' → v ∈ l'.varyings →
      v ∈ l.varyings ∨ v.name = FogBlock.distanceVarying := by
    intro l l' hl hv
    obtain ⟨more, heq, hmore⟩ := hl.varyings
    rw [heq, mem_append] at hv
    exact hv.imp_right (hmore v)
  rcases h.quiet_or_calling hs with quiet | ⟨_, _, _, _, _, calling⟩
  · rcases quiet.ledger with more | ⟨_, _, u, -, -, -, reported⟩ | ⟨fragment, -⟩
    · exact grows more hv
    · rw [reported] at hv
      exact .inl hv
    · cases fragment
  · exact grows calling.ledger hv

/-- What holds while the vertex stage is written. The blocks of `V` are built in it, and no input
of a block of `S` reads a varying yet. -/
structure VertexStage (g : Graph) (l : Language) (V S : BlockId → Prop) (e : Emission) : Prop where
  steady : Ongoing g l e
  entered : g.Entered
  settled : AllSettled l e
  sound : AllSound l e
  built : ∀ x ∈ e.built, CalledIn .vertex e x
  calls : ∀ q ∈ e.calls, q.stage = .vertex ∧ V q.block ∧ q.block ∈ e.built
  builtIn : ∀ q ∈ e.calls, ∀ b, e.graph.get? q.block = some b → b.builtIn = some .vertex
  declared : ∀ q ∈ e.calls, ∀ b, e.graph.get? q.block = some b → b.kind.isInput = true →
    b.kind.isAttribute = false → ∀ p ∈ b.outputs, e.vertex.Declares p.symbol
  plain : ∀ x b, S x → e.graph.get? x = some b → ∀ p ∈ b.inputs, p.enforced = false
  varyings : ∀ v ∈ e.ledger.varyings, v.name = FogBlock.distanceVarying

/-- No input of a block of `S` reads a varying. -/
def Unrouted (S : BlockId → Prop) (e : Emission) : Prop :=
  ∀ x b, S x → e.graph.get? x = some b → ∀ p ∈ b.inputs, p.enforced = false

namespace VertexStage

variable {V S : BlockId → Prop}

theorem readSymbol_eq {p : InputSocket} {s : SocketRef} (plain : p.enforced = false)
    (hl : p.link = some s) : readSymbol g p = g.symbolAt s := by
  simp [readSymbol, plain, hl]

/-- What comes out of a teleport whose entry is built. -/
theorem reads_of_arrived (hv : VertexStage g l V S e) {entry : BlockId} {c : Block} {slot : Slot}
    (hS : S entry) (hbuilt : entry ∈ e.built) (hc : e.graph.get? entry = some c)
    (neutral : c.target = .neutral) (harrived : Arrived .vertex e entry slot)
    (hconnected : slot.connected = true) :
    ∃ s, e.graph.source? ⟨entry, 0⟩ = some s ∧ Reads l e e.calls .vertex s slot.symbol := by
  cases harrived with
  | free hfree => rw [hfree] at hconnected; cases hconnected
  | crossing _ _ hfrom => cases hfrom.1
  | @reading socket source producer hsocket hl hp _ hsymbol =>
    obtain ⟨c', hc', hi⟩ := input?_eq_some_iff.mp hsocket
    cases hc.symm.trans hc'
    have plain := hv.plain entry c hS hc socket (mem_of_getElem? hi)
    -- the entry was called in the stage, so what feeds it was called too
    obtain ⟨q, hq, rfl, hqs⟩ := hv.built entry hbuilt
    obtain ⟨before, symbol, hbefore, hreads⟩ := hv.sound.reads_of_neutral hq hc neutral hi hl
    obtain ⟨q', hq', hx'⟩ := hreads.called
    refine ⟨source, source?_eq_some_iff.mpr ⟨socket, hsocket, hl⟩, ?_⟩
    exact .direct q' (hbefore hq') hx' (hv.calls q' (hbefore hq')).1 nofun
      (hsymbol.trans (readSymbol_eq plain hl))

section

variable (closed : ∀ x y, V x → g.Upstream x y → V y) (sub : ∀ x, V x → S x)
  (hv : VertexStage g l V S e)
include closed sub hv

theorem sound_last (hstep : Step l .vertex V e e') {brought : List Slot} {b b' : Block}
    {made : BuildCall} (h : Calling l .vertex V id brought e e' b b' made) :
    CallSound l e' e.calls made := by
  refine h.sound hv.steady hv.entered hv.settled hstep ?_ ?_
  · intro i p s hp hl hprocessed
    obtain ⟨hbuilt, -⟩ := h.fed i b p s h.before hp hl hprocessed
    obtain ⟨q, hq, hx, hqs⟩ := hv.built _ hbuilt
    have plain := hv.plain id b (sub id h.member) h.before p (mem_of_getElem? hp)
    exact .direct q hq hx hqs nofun (readSymbol_eq plain hl)
  · intro entry c slot hup hbuilt hc neutral harrived hconnected
    have hV := hv.steady.closed closed id entry h.member hup
    exact hv.reads_of_arrived (sub entry hV) hbuilt hc neutral harrived hconnected

theorem step (h : Step l .vertex V e e') : VertexStage g l V S e' := by
  have hs := hv.steady
  constructor
  case steady => exact h.steady hs
  case entered => exact hv.entered
  case settled => exact hv.settled.step hs h
  case sound =>
    refine hv.sound.step hs h hv.settled (fun _ q hq => (hv.calls q hq).1) ?_
    exact fun id brought b b' made calling => hv.sound_last closed sub h calling
  case built =>
    intro x hx
    rcases h.mem_built hs hx with hx | ⟨_, _, _, made, calling⟩
    · exact (hv.built x hx).step hs h
    · exact calling.calledIn
  case calls =>
    intro q hq
    rcases h.mem_calls hs hq with hq | ⟨_, _, _, calling⟩
    · obtain ⟨hstage, hV, hbuilt⟩ := hv.calls q hq
      exact ⟨hstage, hV, h.built_subset hs hbuilt⟩
    · exact ⟨calling.made_stage, calling.member, calling.mem_built⟩
  case builtIn =>
    intro q hq b' hb'
    rcases h.mem_calls hs hq with hq | ⟨_, _, _, calling⟩
    · obtain ⟨b, hb, -, hstays⟩ := h.advances_back hs hb'
      rw [hstays (hv.calls q hq).2.2]
      exact hv.builtIn q hq b hb
    · obtain rfl := calling.eq_of_get? hb'
      exact calling.builtIn
  case declared =>
    intro q hq b' hb' hin hatt p hp
    obtain ⟨b, hb, hadv, -⟩ := h.advances_back hs hb'
    rw [isInput_of_outline hadv.outline] at hin
    rw [isAttribute_of_outline hadv.outline] at hatt
    rcases h.mem_calls hs hq with hq | ⟨_, c, _, calling⟩
    · rw [(hadv.settled (hv.settled q hq b hb)).2] at hp
      exact (h.draft hs .vertex).declares (hv.declared q hq b hb hin hatt p hp)
    · cases calling.before.symm.trans hb
      obtain rfl := calling.eq_of_get? hb'
      exact calling.declared hin hatt p hp
  case plain =>
    intro x b' hx hb' p hp
    obtain ⟨b, hb, -⟩ := h.advances_back hs hb'
    obtain ⟨i, hi⟩ := mem_iff_getElem?.mp hp
    rcases h.socket hs hb hb' hi with same | ⟨_, _, hstage, -⟩
    · exact hv.plain x b hx hb p (mem_of_getElem? same)
    · cases hstage
  case varyings =>
    intro v hmem
    rcases h.varyings_of_vertex hs hmem with hold | hfog
    · exact hv.varyings v hold
    · exact hfog

theorem steps (h : Steps l .vertex V e e') : VertexStage g l V S e' := by
  induction h with
  | refl => exact hv
  | tail _ hstep ih => exact ih.step closed sub hstep

end

theorem start (hs : Ongoing g l e) (entered : g.Entered) (hbuilt : e.built = [])
    (hcalls : e.calls = []) (hvaryings : e.ledger.varyings = []) (plain : Unrouted S e) :
    VertexStage g l V S e := by
  refine ⟨hs, entered, ?_, ?_, ?_, ?_, ?_, ?_, plain, ?_⟩
  · intro q hq
    rw [hcalls] at hq
    cases hq
  · intro before call after heq
    rw [hcalls] at heq
    cases before <;> cases heq
  · intro x hx
    rw [hbuilt] at hx
    cases hx
  · intro q hq
    rw [hcalls] at hq
    cases hq
  · intro q hq
    rw [hcalls] at hq
    cases hq
  · intro q hq
    rw [hcalls] at hq
    cases hq
  · intro v hv
    rw [hvaryings] at hv
    cases hv

end VertexStage

/-! ## 2. Varyings -/

/-- The code of a draft fills the varying of a symbol, whatever the defines and the fills are. -/
def Assigned (l : Language) (d : StageDraft) (symbol : String) : Prop :=
  ∀ defines fills, ∃ before after,
    Segment.renders defines fills d.code.root = before ++ varyingLine l symbol ++ after

theorem Assigned.grows {d' : StageDraft} (h : d.Grows d') (ha : Assigned l d symbol) :
    Assigned l d' symbol := by
  intro defines fills
  obtain ⟨before, after, heq⟩ := ha defines fills
  obtain ⟨more, hmore⟩ := h.code defines fills
  exact ⟨before, after ++ more, by rw [hmore, heq, String.append_assoc]⟩

theorem regions_push {text : String} (h : (d.push text).code.regions = []) :
    d.code.regions = [] := by
  unfold StageDraft.push CodeBuffer.pushText CodeBuffer.modifyCurrent at h
  split at h
  · assumption
  · split at h <;> cases h

theorem assigned_push (h : d.code.regions = []) :
    Assigned l (d.push (varyingLine l symbol)) symbol := by
  intro defines fills
  refine ⟨Segment.renders defines fills d.code.root, "", ?_⟩
  unfold StageDraft.push CodeBuffer.pushText CodeBuffer.modifyCurrent
  simp only [h]
  rw [Segment.renders_pushText, append_empty]

theorem varyingName_inj {a b : String} (h : varyingName a = varyingName b) : a = b := by
  have same := congrArg String.toList h
  simp only [varyingName, toList_append, append_cancel_left_eq] at same
  exact toList_inj.mp same

theorem varyingName_ne_distance (a : String) : varyingName a ≠ FogBlock.distanceVarying := by
  intro h
  have := congrArg String.toList h
  simp [varyingName, FogBlock.distanceVarying, toList_append] at this

/-- Varyings are the distance of the fog and those that the code of the vertex stage fills. What
is written in a region that is never closed is lost with the region. -/
def VaryingsFilled (l : Language) (e : Emission) : Prop :=
  ∀ v ∈ e.ledger.varyings, v.name = FogBlock.distanceVarying ∨
    ∃ symbol, v.name = varyingName symbol ∧
      (e.vertex.code.regions = [] → Assigned l e.vertex symbol)

theorem VaryingsFilled.assigned (h : VaryingsFilled l e)
    (hv : e.ledger.hasVarying (varyingName symbol) = true) (closed : e.vertex.code.regions = []) :
    Assigned l e.vertex symbol := by
  obtain ⟨v, hmem, hname⟩ := any_eq_true.mp hv
  rw [beq_iff_eq] at hname
  rcases h v hmem with hfog | ⟨symbol', hname', hassigned⟩
  · exact absurd (hname.symm.trans hfog) (varyingName_ne_distance symbol)
  · rw [varyingName_inj (hname.symm.trans hname')]
    exact hassigned closed

theorem VaryingsFilled.carried {e₁ : Emission} {source : SocketRef} (hl : e.vertex.language = l)
    (h : VaryingsFilled l e) (hc : Carried source e e₁ symbol) : VaryingsFilled l e₁ := by
  intro v hv
  rcases hc.rest with ⟨-, ledger, vertex⟩ | ⟨type, ledger, vertex⟩
  · rw [ledger] at hv
    rw [vertex]
    exact h v hv
  · rw [ledger] at hv
    rcases mem_declare hv with hold | rfl
    · refine (h v hold).imp_right ?_
      rintro ⟨symbol', hname, hassigned⟩
      refine ⟨symbol', hname, fun closed => (hassigned ?_).grows (vertex ▸ .push _ _)⟩
      rw [vertex] at closed
      exact regions_push closed
    · refine .inr ⟨_, rfl, fun closed => ?_⟩
      rw [vertex] at closed ⊢
      rw [hl]
      exact assigned_push (regions_push closed)

theorem VaryingsFilled.grows (hv : VaryingsFilled l e) (ledger : e.ledger.Grows e'.ledger)
    (vertex : e.vertex.Grows e'.vertex)
    (closed : e'.vertex.code.regions = [] → e.vertex.code.regions = []) : VaryingsFilled l e' := by
  intro v hmem
  obtain ⟨more, heq, hmore⟩ := ledger.varyings
  rw [heq, mem_append] at hmem
  rcases hmem with hold | hnew
  · refine (hv v hold).imp_right ?_
    rintro ⟨symbol, hname, hassigned⟩
    exact ⟨symbol, hname, fun none => (hassigned (closed none)).grows vertex⟩
  · exact .inl (hmore v hnew)

theorem VaryingsFilled.step (hs : Ongoing g l e) (h : Step l .fragment T e e')
    (hv : VaryingsFilled l e) : VaryingsFilled l e' := by
  have language : e.vertex.language = l := hs.language .vertex
  cases h with
  | report u => exact hv
  | name hb =>
    rcases nameBlock_eq hb with ⟨-, same⟩ | ⟨-, changed⟩
    · rw [same]
      exact hv
    · rw [changed]
      exact hv.grows (grows_nameOutputs _ _) (.refl _) id
  | route hstage hT hconsumer hi hl hp hbuilt hcross hcarried =>
    have filled := hv.carried language hcarried
    exact filled
  | carry hstage hcarried => exact hv.carried language hcarried
  | call hT hid hfed hlabel htele hcall =>
    obtain ⟨b, b', made, hcalled⟩ := hs.called hcall
    refine hv.grows hcalled.ledger (hcalled.drafts .vertex) fun closed => ?_
    rcases hcalled.vertex rfl with same | ⟨decl, changed⟩
    · exact same ▸ closed
    · rw [changed] at closed
      exact closed

/-! ## 3. The fragment stage -/

/-- Where only the vertex stage makes a value, only a varying brings it to the fragment stage. A
consumer that is built in both stages reads each input in one of them. -/
theorem crosses_of_fromVertex {q c : Block} {socket : SocketSpec}
    (hq : q.kind.isAttribute = true ∨ (q.target ≠ .vertexAndFragment ∧ q.builtIn = some .vertex))
    (hbuilt : q.builtIn = some .vertex ∨ q.builtIn = some .fragment)
    (hdual : c.target = .vertexAndFragment → socket.target = .fragment) :
    Crosses q c socket := by
  have needs : needsVarying q = true := by
    unfold needsVarying
    rcases hq with hatt | ⟨htarget, hvertex⟩
    · rw [if_pos (isAttribute_iff.mp hatt).1]
      exact hatt
    · split
      · rename_i hin
        by_contra hatt
        have := target_of_isInput hin
        rw [if_neg hatt] at this
        exact htarget this
      · rw [hvertex]
        rfl
  have target : q.target = .vertex ∨ (q.target ≠ .vertexAndFragment ∧ q.builtIn = some .vertex) :=
    hq.imp_left fun hatt => (isAttribute_iff.mp hatt).2
  have away : q.target ≠ .vertexAndFragment := by
    rcases target with h | ⟨h, -⟩
    · rw [h]
      nofun
    · exact h
  refine ⟨?_, needs⟩
  unfold switchesStage staysInVertex
  by_cases hc : c.target = .vertexAndFragment
  · -- the input belongs to the fragment stage, the producer does not or was built elsewhere
    rw [hdual hc]
    rcases target with h | ⟨-, h⟩
    · simp [h, Target.bits]
    · rw [h]
      cases ht : q.target with
      | vertexAndFragment => exact absurd ht away
      | _ => simp [Target.bits, Stage.bits]
  · rcases hbuilt with h | h
    · simp [h, hc, away]
    · rcases target with ht | ⟨-, h'⟩
      · simp [h, ht, Target.bits, Stage.bits]
      · rw [h] at h'
        cases h'

/-- What holds while the fragment stage is written. The blocks of `V` were built in the vertex
stage, those of `F` are built in this one; inputs of the blocks of `S` read varyings only if they
have to. -/
structure FragmentStage (g : Graph) (l : Language) (V F S : BlockId → Prop) (e : Emission) :
    Prop where
  steady : Ongoing g l e
  entered : g.Entered
  settled : AllSettled l e
  sound : AllSound l e
  /-- What is built was called here, or in the vertex stage and is not called again. -/
  built : ∀ x b, x ∈ e.built → e.graph.get? x = some b →
    (CalledIn .fragment e x ∧ b.builtIn = some .fragment) ∨
      (CalledIn .vertex e x ∧ b.builtIn = some .vertex ∧ (F x → b.target ≠ .vertexAndFragment))
  single : ∀ x b, CalledIn .vertex e x → e.graph.get? x = some b →
    b.target ≠ .vertexAndFragment → x ∈ e.built ∧ b.builtIn = some .vertex
  again : ∀ x b, CalledIn .fragment e x → e.graph.get? x = some b →
    x ∈ e.built ∧ b.builtIn = some .fragment
  vertexCalls : ∀ x, CalledIn .vertex e x → V x
  declared : ∀ x b, CalledIn .vertex e x → e.graph.get? x = some b → b.kind.isInput = true →
    b.kind.isAttribute = false → ∀ p ∈ b.outputs, e.fragment.Declares p.symbol
  varyings : VaryingsFilled l e
  enforced : ∀ (x : BlockId) (b : Block) (i : Nat) (p : InputSocket), S x →
    e.graph.get? x = some b → b.inputs[i]? = some p → p.enforced = true →
    ∃ s, p.link = some s ∧ (∃ q ∈ e.calls, q.block = s.block) ∧ FromVertex e s.block ∧
      IsVarying l e s p.symbol
  routed : ∀ (x : BlockId) (b : Block) (i : Nat) (p : InputSocket) (s : SocketRef),
    CalledIn .fragment e x → e.graph.get? x = some b → b.inputs[i]? = some p →
    p.link = some s → isProcessed b .fragment p.spec = true →
    p.enforced = true ∨ ¬FromVertex e s.block

namespace FragmentStage

variable {V F S : BlockId → Prop} {b p : Block} {s : SocketRef}

variable (hf : FragmentStage g l V F S e)
include hf

/-- An input that is fed reads a varying exactly where the value comes from the vertex stage. -/
theorem enforced_of_fed {i : Nat} {p : InputSocket} (hfed : Fed .fragment e ⟨id, i⟩)
    (hb : e.graph.get? id = some b) (hp : b.inputs[i]? = some p) (hl : p.link = some s)
    (hprocessed : isProcessed b .fragment p.spec = true) :
    s.block ∈ e.built ∧ (p.enforced = true ∨ ¬FromVertex e s.block) := by
  obtain ⟨hbuilt, hread⟩ := hfed b p s hb hp hl hprocessed
  refine ⟨hbuilt, (hread rfl).imp_right fun hstays hfrom => ?_⟩
  obtain ⟨q, hq, hv⟩ := hfrom
  refine hstays q hq (crosses_of_fromVertex ?_ ?_ ?_)
  · exact hv.imp_right fun ⟨htarget, hcalled⟩ =>
      ⟨htarget, (hf.single _ q hcalled hq htarget).2⟩
  · rcases hf.built _ q hbuilt hq with ⟨-, h⟩ | ⟨-, h, -⟩
    · exact .inr h
    · exact .inl h
  · intro hdual
    have includes : p.spec.target.includes .fragment = true := by
      simp only [isProcessed, hdual, or_eq_true, and_eq_true] at hprocessed
      rcases hprocessed with h | h
      · cases h
      · exact h.2
    have declared : p.spec ∈ b.kind.inputs := by
      rw [← (hf.steady.regular.fitted id b hb).inputs]
      exact mem_map_of_mem (mem_of_getElem? hp)
    exact target_of_dual hdual declared includes

theorem calledIn_of_built (hF : F x) (hbuilt : x ∈ e.built) (hb : e.graph.get? x = some b)
    (hn : ¬FromVertex e x) : CalledIn .fragment e x := by
  rcases hf.built x b hbuilt hb with ⟨h, -⟩ | ⟨hcalled, -, hsingle⟩
  · exact h
  · exact absurd ⟨b, hb, .inr ⟨hsingle hF, hcalled⟩⟩ hn

theorem fromVertex_of_needsVarying (hF : F x) (hbuilt : x ∈ e.built) (hb : e.graph.get? x = some b)
    (hneeds : needsVarying b = true) : (∃ q ∈ e.calls, q.block = x) ∧ FromVertex e x := by
  unfold needsVarying at hneeds
  rcases hf.built x b hbuilt hb with ⟨⟨q, hq, hqx, -⟩, hbi⟩ | ⟨hcalled, -, hsingle⟩
  · refine ⟨⟨q, hq, hqx⟩, b, hb, .inl ?_⟩
    split at hneeds
    · exact hneeds
    · simp [hbi] at hneeds
  · refine ⟨?_, b, hb, .inr ⟨hsingle hF, hcalled⟩⟩
    obtain ⟨q, hq, hqx, -⟩ := hcalled
    exact ⟨q, hq, hqx⟩

/-- A value that the vertex stage made for good is one that a teleport carries over. -/
theorem comesFromVertex (hp : e.graph.get? x = some p) (hcalled : CalledIn .vertex e x)
    (hfrom : FromVertex e x) : ComesFromVertex .fragment p := by
  obtain ⟨p', hp', hv⟩ := hfrom
  cases hp.symm.trans hp'
  have away : p.target ≠ .vertexAndFragment := by
    rcases hv with hatt | ⟨h, -⟩
    · rw [show p.target = .vertex from (Kind.isAttribute_iff.mp hatt).2]
      nofun
    · exact h
  have hbuilt := (hf.single x p hcalled hp away).2
  refine ⟨rfl, by simp [staysInVertex, hbuilt, away], ?_⟩
  cases hin : p.kind.isInput with
  | false => rfl
  | true =>
    by_contra hatt
    have target := Kind.target_of_isInput hin
    simp only [Bool.not_true, Bool.false_or] at hatt
    rw [if_neg hatt] at target
    exact away target

/-- Fog apart, a value of the vertex stage that does not need a varying is declared in both. -/
theorem declares_of_vertex {r : SocketRef} (hsource : e.graph.source? r = some s)
    (hp : e.graph.get? s.block = some p) (noFog : p.kind.isFog = false)
    (hcalled : CalledIn .vertex e s.block) (hn : ¬FromVertex e s.block) :
    p.kind.isInput = true ∧ p.kind.isAttribute = false ∧
      e.fragment.Declares (e.graph.symbolAt s) := by
  have dual : p.kind.target = .vertexAndFragment := by
    by_contra away
    exact hn ⟨p, hp, .inr ⟨away, hcalled⟩⟩
  have hin : p.kind.isInput = true := by
    by_contra hin
    rw [not_eq_true] at hin
    rw [isFog_iff.mpr ⟨hin, dual⟩] at noFog
    cases noFog
  have hatt : p.kind.isAttribute = false := by
    by_contra hatt
    rw [not_eq_false] at hatt
    exact hn ⟨p, hp, .inl hatt⟩
  obtain ⟨output, ho, -⟩ := hf.steady.regular.coherent.exists_output hsource
  obtain ⟨p', hp', hi⟩ := output?_eq_some_iff.mp ho
  cases hp.symm.trans hp'
  refine ⟨hin, hatt, ?_⟩
  rw [Graph.symbolAt, ho]
  exact hf.declared _ p hcalled hp hin hatt output (mem_of_getElem? hi)

/-- What comes out of a teleport whose entry is built. -/
theorem reads_of_arrived (sub : ∀ x, F x → S x)
    (noFog : ∀ x y b, V x → g.Upstream x y → g.get? y = some b → b.kind.isFog = false)
    {entry : BlockId} {c : Block} {slot : Slot} (hF : F entry) (hbuilt : entry ∈ e.built)
    (hc : e.graph.get? entry = some c) (neutral : c.target = .neutral)
    (harrived : Arrived .fragment e entry slot) (hconnected : slot.connected = true) :
    ∃ s, e.graph.source? ⟨entry, 0⟩ = some s ∧ Reads l e e.calls .fragment s slot.symbol := by
  have language : e.fragment.language = l := hf.steady.language .fragment
  cases harrived with
  | free hfree => rw [hfree] at hconnected; cases hconnected
  | @crossing source producer hsource hp hfrom hsymbol hvarying =>
    obtain ⟨socket, hsocket, hl⟩ := source?_eq_some_iff.mp hsource
    obtain ⟨c', hc', hi⟩ := input?_eq_some_iff.mp hsocket
    cases hc.symm.trans hc'
    obtain ⟨q, hq, rfl⟩ : ∃ q ∈ e.calls, q.block = entry := by
      rcases hf.built entry c hbuilt hc with ⟨⟨q, hq, hx, -⟩, -⟩ | ⟨⟨q, hq, hx, -⟩, -⟩
      · exact ⟨q, hq, hx⟩
      · exact ⟨q, hq, hx⟩
    obtain ⟨before, symbol, hbefore, hreads⟩ := hf.sound.reads_of_neutral hq hc neutral hi hl
    obtain ⟨q', hq', hx'⟩ := hreads.called
    obtain ⟨-, hstays, -⟩ := hfrom
    simp only [staysInVertex, and_eq_true, beq_iff_eq, bne_iff_ne] at hstays
    have hcalled : CalledIn .vertex e source.block := by
      refine ⟨q', hbefore hq', hx', ?_⟩
      cases hstage : q'.stage with
      | vertex => rfl
      | fragment =>
        have := (hf.again _ producer ⟨q', hbefore hq', hx', hstage⟩ hp).2
        rw [hstays.1] at this
        cases this
    refine ⟨source, hsource, .varying q' rfl (hbefore hq') hx' ?_ ⟨language ▸ hsymbol, hvarying⟩⟩
    exact ⟨producer, hp, .inr ⟨hstays.2, hcalled⟩⟩
  | @reading socket source producer hsocket hl hp hstays hsymbol =>
    have hsource := source?_eq_some_iff.mpr ⟨socket, hsocket, hl⟩
    obtain ⟨c', hc', hi⟩ := input?_eq_some_iff.mp hsocket
    cases hc.symm.trans hc'
    refine ⟨source, hsource, ?_⟩
    by_cases henforced : socket.enforced = true
    · obtain ⟨s, hs, ⟨q, hq, hx⟩, hfrom, hvarying⟩ :=
        hf.enforced entry c 0 socket (sub entry hF) hc hi henforced
      cases hl.symm.trans hs
      rw [hsymbol, readSymbol, if_pos henforced]
      exact .varying q rfl hq hx hfrom hvarying
    · have hsymbol' : slot.symbol = e.graph.symbolAt source := by
        rw [hsymbol]
        exact VertexStage.readSymbol_eq (by simpa using henforced) hl
      rcases hf.built entry c hbuilt hc with ⟨hcalled, -⟩ | ⟨hcalled, -, -⟩
      · -- the entry was called in this stage, and read the value without a varying
        have hn : ¬FromVertex e source.block :=
          (hf.routed entry c 0 socket source hcalled hc hi hl (by simp [isProcessed, neutral])
            ).resolve_left henforced
        obtain ⟨q, hq, rfl, hqs⟩ := hcalled
        obtain ⟨before, symbol, hbefore, hreads⟩ := hf.sound.reads_of_neutral hq hc neutral hi hl
        rw [hqs] at hreads
        cases hreads with
        | direct q' hq' hx' hqs' => exact .direct q' (hbefore hq') hx' hqs' (fun _ => hn) hsymbol'
        | declared q' p hstage hq' hx' _ hp' hin hatt hsym hdecl =>
          refine .declared q' p hstage (hbefore hq') hx' hn hp' hin hatt hsymbol' ?_
          rw [hsymbol', ← hsym]
          exact hdecl
        | varying q' hstage hq' hx' hfrom => exact absurd hfrom hn
      · -- the entry was called in the vertex stage, and what feeds it before that
        have hV := hf.vertexCalls entry hcalled
        obtain ⟨q, hq, rfl, hqs⟩ := hcalled
        obtain ⟨before, symbol, hbefore, hreads⟩ := hf.sound.reads_of_neutral hq hc neutral hi hl
        rw [hqs] at hreads
        obtain ⟨q', hq', hx', hqs'⟩ : CalledIn .vertex e source.block := by
          cases hreads with
          | direct q' hq' hx' hqs' => exact ⟨q', hbefore hq', hx', hqs'⟩
          | declared q' p hstage => cases hstage
          | varying q' hstage => cases hstage
        have hcalled : CalledIn .vertex e source.block := ⟨q', hq', hx', hqs'⟩
        have hn : ¬FromVertex e source.block :=
          fun hfrom => hstays (hf.comesFromVertex hp hcalled hfrom)
        have hup : g.Upstream q.block source.block := by
          rw [← upstream_of_outlines hf.steady.outlines]
          exact upstream_of_source? hsource
        obtain ⟨p, hpg, same⟩ := exists_get?_of_outlines hf.steady.outlines.symm hp
        obtain ⟨hin, hatt, hdecl⟩ := hf.declares_of_vertex hsource hp
          ((isFog_of_outline same).symm.trans (noFog _ _ _ hV hup hpg)) hcalled hn
        exact .declared q' producer rfl hq' hx' hn hp hin hatt hsymbol' (hsymbol' ▸ hdecl)

variable (closed : ∀ x y, F x → g.Upstream x y → F y) (sub : ∀ x, F x → S x)
  (noFog : ∀ x y b, V x → g.Upstream x y → g.get? y = some b → b.kind.isFog = false)
include closed sub noFog

theorem sound_last (hstep : Step l .fragment F e e') {brought : List Slot} {b' : Block}
    {made : BuildCall} (h : Calling l .fragment F id brought e e' b b' made) :
    CallSound l e' e.calls made := by
  have hs := hf.steady
  have upstream := hs.closed closed
  refine h.sound hs hf.entered hf.settled hstep ?_ ?_
  · intro i p s hp hl hprocessed
    obtain ⟨hbuilt, hread⟩ := hf.enforced_of_fed (h.fed i) h.before hp hl hprocessed
    by_cases henforced : p.enforced = true
    · obtain ⟨s', hs', ⟨q, hq, hx⟩, hfrom, hvarying⟩ :=
        hf.enforced id b i p (sub id h.member) h.before hp henforced
      cases hl.symm.trans hs'
      rw [readSymbol, if_pos henforced]
      exact .varying q rfl hq hx hfrom hvarying
    · have hn := hread.resolve_left henforced
      have hsource : e.graph.source? ⟨id, i⟩ = some s :=
        source?_eq_some_iff.mpr ⟨p, input?_eq_some_iff.mpr ⟨b, h.before, hp⟩, hl⟩
      have hup := upstream_of_source? hsource
      obtain ⟨q, hq⟩ :=
        mem_ids_iff.mp (hs.regular.coherent.mem_ids_of_upstream hup)
      obtain ⟨made', hmade, hx, hstage⟩ :=
        hf.calledIn_of_built (upstream _ _ h.member hup) hbuilt hq hn
      rw [VertexStage.readSymbol_eq (by simpa using henforced) hl]
      exact .direct made' hmade hx hstage (fun _ => hn) rfl
  · intro entry c slot hup hbuilt hc neutral harrived hconnected
    exact hf.reads_of_arrived sub noFog (upstream _ _ h.member hup) hbuilt hc neutral harrived
      hconnected

theorem step (h : Step l .fragment F e e') : FragmentStage g l V F S e' := by
  have hs := hf.steady
  have vertex : ∀ {x}, CalledIn .vertex e' x → CalledIn .vertex e x :=
    fun hx => hx.back hs h nofun
  constructor
  case steady => exact h.steady hs
  case entered => exact hf.entered
  case settled => exact hf.settled.step hs h
  case sound =>
    refine hf.sound.step hs h hf.settled nofun ?_
    exact fun id brought b b' made calling => hf.sound_last closed sub noFog h calling
  case built =>
    intro x b' hx hb'
    rcases h.mem_built hs hx with hx | ⟨_, _, _, made, calling⟩
    · obtain ⟨b, hb, hadv, hstays⟩ := h.advances_back hs hb'
      rw [hstays hx, target_of_outline hadv.outline]
      rcases hf.built x b hx hb with ⟨hc, hbi⟩ | ⟨hc, hbi, hF⟩
      · exact .inl ⟨hc.step hs h, hbi⟩
      · exact .inr ⟨hc.step hs h, hbi, hF⟩
    · obtain rfl := calling.eq_of_get? hb'
      exact .inl ⟨calling.calledIn, calling.builtIn⟩
  case single =>
    intro x b' hx hb' htarget
    obtain ⟨b, hb, hadv, hstays⟩ := h.advances_back hs hb'
    rw [target_of_outline hadv.outline] at htarget
    obtain ⟨hbuilt, hbi⟩ := hf.single x b (vertex hx) hb htarget
    exact ⟨h.built_subset hs hbuilt, (hstays hbuilt).trans hbi⟩
  case again =>
    rintro x b' ⟨q, hq, rfl, hqs⟩ hb'
    rcases h.mem_calls hs hq with hq | ⟨_, _, _, calling⟩
    · obtain ⟨b, hb, -, hstays⟩ := h.advances_back hs hb'
      obtain ⟨hbuilt, hbi⟩ := hf.again _ b ⟨q, hq, rfl, hqs⟩ hb
      exact ⟨h.built_subset hs hbuilt, (hstays hbuilt).trans hbi⟩
    · obtain rfl := calling.eq_of_get? hb'
      exact ⟨calling.mem_built, calling.builtIn⟩
  case vertexCalls => exact fun x hx => hf.vertexCalls x (vertex hx)
  case declared =>
    intro x b' hx hb' hin hatt p hp
    obtain ⟨b, hb, hadv, -⟩ := h.advances_back hs hb'
    obtain ⟨q, hq, rfl, -⟩ := vertex hx
    rw [(hadv.settled (hf.settled q hq b hb)).2] at hp
    rw [isInput_of_outline hadv.outline] at hin
    rw [isAttribute_of_outline hadv.outline] at hatt
    exact (h.draft hs .fragment).declares (hf.declared _ b (vertex hx) hb hin hatt p hp)
  case varyings => exact hf.varyings.step hs h
  case enforced =>
    intro x b' i p hS hb' hp henforced
    obtain ⟨b, hb, -⟩ := h.advances_back hs hb'
    rcases h.socket hs hb hb' hp with same |
      ⟨s, q, -, -, hl, hF, hq, hbuilt, hneeds, hsymbol, hv⟩
    · obtain ⟨s, hl, hcalled, hfrom, hvarying⟩ := hf.enforced x b i p hS hb same henforced
      obtain ⟨q, hq, hqs⟩ := hcalled
      exact ⟨s, hl, ⟨q, h.calls_subset hs hq, hqs⟩, hfrom.step hs h,
        hvarying.step hs h hf.settled ⟨q, hq, hqs⟩⟩
    · have hsource : e'.graph.source? ⟨x, i⟩ = some s :=
        source?_eq_some_iff.mpr ⟨p, input?_eq_some_iff.mpr ⟨b', hb', hp⟩, hl⟩
      have hup : e.graph.Upstream x s.block := by
        have same := (h.steady hs).outlines.trans hs.outlines.symm
        rw [← upstream_of_outlines same]
        exact upstream_of_source? hsource
      obtain ⟨⟨c, hc, hcs⟩, hfrom⟩ :=
        hf.fromVertex_of_needsVarying (hs.closed closed _ _ hF hup) hbuilt hq hneeds
      have symbol := h.symbolAt hs hf.settled ⟨c, hc, hcs⟩
      refine ⟨s, hl, ⟨c, h.calls_subset hs hc, hcs⟩, hfrom.step hs h, ?_, ?_⟩
      · rw [symbol]; exact hsymbol
      · rw [symbol]; exact hv
  case routed =>
    intro x b' i p' s hx hb' hp' hl' hprocessed
    obtain ⟨b, hb, hadv, -⟩ := h.advances_back hs hb'
    rcases h.socket hs hb hb' hp' with same | ⟨_, _, -, henforced, -⟩
    · have hprocessed' : isProcessed b .fragment p'.spec = true := by
        unfold isProcessed at hprocessed ⊢
        rwa [← target_of_outline hadv.outline]
      have kept : p'.enforced = true ∨ ¬FromVertex e s.block := by
        obtain ⟨q, hq, rfl, hqs⟩ := hx
        rcases h.mem_calls hs hq with hq | ⟨_, _, _, calling⟩
        · exact hf.routed _ b i p' s ⟨q, hq, rfl, hqs⟩ hb same hl' hprocessed'
        · exact (hf.enforced_of_fed (calling.fed i) hb same hl' hprocessed').2
      exact kept.imp_right fun hn hfrom => hn (hfrom.back hs h)
    · exact .inl henforced

theorem steps (h : Steps l .fragment F e e') : FragmentStage g l V F S e' := by
  induction h with
  | refl => exact hf
  | tail _ hstep ih => exact ih.step closed sub noFog hstep

end FragmentStage

/-! ## 4. Between the stages -/

theorem mem_foldl_declare (nameOf : α → String) {more decls : List α} {d : α}
    (h : d ∈ more.foldl (fun ds d => declare nameOf d ds) decls) : d ∈ decls ∨ d ∈ more := by
  induction more generalizing decls with
  | nil => exact .inl h
  | cons a more ih =>
    rcases ih h with hd | hd
    · rcases mem_declare hd with hd | rfl
      · exact .inl hd
      · exact .inr mem_cons_self
    · exact .inr (mem_cons_of_mem a hd)

theorem exists_mem_foldl_declare (nameOf : α → String) {more decls : List α} {d : α}
    (h : d ∈ more) :
    ∃ d' ∈ more.foldl (fun ds d => declare nameOf d ds) decls, nameOf d' = nameOf d := by
  induction more generalizing decls with
  | nil => cases h
  | cons a more ih =>
    rcases mem_cons.mp h with rfl | h
    · obtain ⟨d', hd', hname⟩ := exists_mem_declare nameOf d decls
      exact ⟨d', (Appends.foldl_declare nameOf more _).subset hd', hname⟩
    · exact ih h

theorem declares_shareDeclarations (same : e.fragment.language = e.vertex.language)
    (h : e.vertex.Declares symbol) : e.shareDeclarations.fragment.Declares symbol := by
  rcases h with ⟨u, hu, hs⟩ | ⟨c, hc, hs⟩
  · obtain ⟨u', hu', hname⟩ := exists_mem_foldl_declare UniformDecl.name hu
    refine .inl ⟨u', hu', ?_⟩
    rw [hname]
    exact same ▸ hs
  · obtain ⟨c', hc', hname⟩ := exists_mem_foldl_declare NamedText.name hc
    exact .inr ⟨c', hc', hname.trans hs⟩

theorem grows_shareDeclarations (same : e.fragment.language = e.vertex.language)
    (hw : e.vertex.Worded) : e.fragment.Grows e.shareDeclarations.fragment where
  stage := rfl
  language := rfl
  uniforms := .foldl_declare UniformDecl.name e.vertex.uniforms e.fragment.uniforms
  constants := .foldl_declare NamedText.name e.vertex.constants e.fragment.constants
  worded h c hc := by
    rcases mem_foldl_declare NamedText.name hc with hold | hshared
    · exact h c hold
    · obtain ⟨type, literal, htext⟩ := hw c hshared
      exact ⟨type, literal, by rw [htext, ← same]; rfl⟩
  code := .refl _

theorem Ongoing.between (hs : Ongoing g l e) (nodes : List BlockId) :
    Ongoing g l (e.shareDeclarations.reopenDual nodes) :=
  ⟨⟨hs.outlines, hs.counter, fun stage => by
    cases stage with
    | vertex => exact hs.language .vertex
    | fragment => exact hs.language .fragment⟩, hs.outset⟩

/-- What a call read in the vertex stage is not touched between the stages. -/
theorem CallSound.reopen {before : List BuildCall} {call : BuildCall} (nodes : List BlockId)
    (hstage : call.stage = .vertex) (h : CallSound l e before call) :
    CallSound l (e.shareDeclarations.reopenDual nodes) before call := by
  have onward : ∀ {s symbol}, Reads l e before call.stage s symbol →
      Reads l (e.shareDeclarations.reopenDual nodes) before call.stage s symbol := by
    intro s symbol hreads
    rw [hstage] at hreads ⊢
    cases hreads with
    | direct q hq hx hqs _ hsymbol => exact .direct q hq hx hqs nofun hsymbol
    | declared q p hfragment => cases hfragment
    | varying q hfragment => cases hfragment
  constructor
  case inputs =>
    intro b i p s hb hp hl hprocessed
    obtain ⟨slot, hslot, hname, hreads⟩ := h.inputs b i p s hb hp hl hprocessed
    exact ⟨slot, hslot, hname, onward hreads⟩
  case teleport =>
    intro b hb hout clean
    obtain ⟨entry, s, slot, hentry, hsource, hslot, hname, hreads⟩ := h.teleport b hb hout clean
    exact ⟨entry, s, slot, hentry, hsource, hslot, hname, onward hreads⟩

theorem mem_built_between (e : Emission) (nodes : List BlockId) {b : Block}
    (hb : e.graph.get? x = some b) :
    x ∈ (e.shareDeclarations.reopenDual nodes).built ↔
      x ∈ e.built ∧ ¬(b.target = .vertexAndFragment ∧ x ∈ e.graph.gather nodes) := by
  simp [shareDeclarations, reopenDual, isDual, hb, Classical.or_iff_not_imp_left]

/-- The fragment stage starts from what the vertex stage leaves. -/
theorem FragmentStage.start {V : BlockId → Prop} (hv : VertexStage g l V S e)
    (nodes : List BlockId) :
    FragmentStage g l V (fun x => x ∈ e.graph.gather nodes) S
      (e.shareDeclarations.reopenDual nodes) := by
  have noCall : ∀ x, ¬CalledIn .fragment (e.shareDeclarations.reopenDual nodes) x := by
    rintro x ⟨q, hq, -, hqs⟩
    have := (hv.calls q hq).1
    rw [hqs] at this
    cases this
  have language : e.fragment.language = e.vertex.language :=
    (hv.steady.language .fragment).trans (hv.steady.language .vertex).symm
  constructor
  case steady => exact hv.steady.between nodes
  case entered => exact hv.entered
  case settled => exact hv.settled
  case sound =>
    intro before call after heq
    have hcall : call ∈ e.calls := heq ▸ mem_append_right _ mem_cons_self
    exact (hv.sound before call after heq).reopen nodes (hv.calls call hcall).1
  case built =>
    intro x b hx hb
    obtain ⟨hx, kept⟩ := (mem_built_between e nodes hb).mp hx
    have hcalled := hv.built x hx
    refine .inr ⟨hcalled, ?_, fun hF htarget => kept ⟨htarget, hF⟩⟩
    obtain ⟨q, hq, rfl, -⟩ := hcalled
    exact hv.builtIn q hq b hb
  case single =>
    intro x b hx hb htarget
    obtain ⟨q, hq, rfl, -⟩ := hx
    refine ⟨(mem_built_between e nodes hb).mpr ⟨(hv.calls q hq).2.2, ?_⟩, hv.builtIn q hq b hb⟩
    exact fun hdual => htarget hdual.1
  case again => exact fun x b hx => absurd hx (noCall x)
  case vertexCalls =>
    rintro x ⟨q, hq, rfl, -⟩
    exact (hv.calls q hq).2.1
  case declared =>
    rintro x b ⟨q, hq, rfl, -⟩ hb hin hatt p hp
    exact declares_shareDeclarations language (hv.declared q hq b hb hin hatt p hp)
  case varyings => exact fun v hmem => .inl (hv.varyings v hmem)
  case enforced =>
    intro x b i p hS hb hp henforced
    rw [hv.plain x b hS hb p (mem_of_getElem? hp)] at henforced
    cases henforced
  case routed => exact fun x b i p s hx => absurd hx (noCall x)

/-! ## 5. Both stages -/

/-- Each stage takes its steps among what is behind its nodes, and ends with the nodes built. -/
theorem run_steps (hs : Ongoing g l e)
    (h : e.run vertexNodes fragmentNodes = .ok e') :
    ∃ e₁, Steps l .vertex (fun x => x ∈ g.gather vertexNodes) e e₁ ∧
      Steps l .fragment (fun x => x ∈ g.gather fragmentNodes)
        (e₁.shareDeclarations.reopenDual fragmentNodes) e' ∧
      (∀ n ∈ vertexNodes, n ∈ g.ids → n ∈ e₁.built) ∧
      ∀ n ∈ fragmentNodes, n ∈ g.ids → n ∈ e'.built := by
  obtain ⟨e₁, h₁, h₂⟩ := bind_eq_ok_iff.mp h
  obtain ⟨steps₁, built₁⟩ := buildAll_steps (hs.outset.closed_gather vertexNodes)
    (fun n hn hid => mem_gather_of_mem hn hid) hs h₁
  obtain ⟨steps₂, built₂⟩ := buildAll_steps (hs.outset.closed_gather fragmentNodes)
    (fun n hn hid => mem_gather_of_mem hn hid)
    ((steps₁.steady hs).between fragmentNodes) h₂
  exact ⟨e₁, steps₁, steps₂, built₁, built₂⟩

/-- Both stages, with something beyond the bound of each. -/
def runBy (beyond : Stage → BlockId → Emission → Except Halt Emission)
    (vertexNodes fragmentNodes : List BlockId) (e : Emission) : Except Halt Emission := do
  let e ← e.buildAllBy .vertex (beyond .vertex) vertexNodes
  (e.shareDeclarations.reopenDual fragmentNodes).buildAllBy .fragment (beyond .fragment)
    fragmentNodes

theorem run_eq_runBy (vertexNodes fragmentNodes : List BlockId) (e : Emission) :
    e.run vertexNodes fragmentNodes = e.runBy (fun _ _ e => .ok e) vertexNodes fragmentNodes := by
  simp only [run, runBy, buildAll_eq]

/-- The graph that an emission comes to. -/
def lastGraph : Except Halt Emission → Graph
  | .ok e => e.graph
  | .error halt => halt.graph

/-- How an emission over a graph turns out: it ends, or it comes to a block behind its nodes whose
teleport has lost its entry. -/
inductive Outcome (g : Graph) (l : Language) (nodes : List BlockId) : Except Halt Emission → Prop
  | ended {e : Emission} : Ongoing g l e → Outcome g l nodes (.ok e)
  | lost {e : Emission} {y x : BlockId} : Ongoing g l e → y ∈ g.gather nodes →
      g.origin? y = some x → x ∉ g.ids → Outcome g l nodes (.error ⟨.missingBlock x, e.graph⟩)

theorem Outcome.last {nodes : List BlockId} {r : Except Halt Emission} (h : Outcome g l nodes r) :
    (lastGraph r).outlines = g.outlines ∧ (lastGraph r).nextId = g.nextId := by
  cases h with
  | ended hs => exact ⟨hs.outlines, hs.counter⟩
  | lost hs => exact ⟨hs.outlines, hs.counter⟩

/-- An emission over a regular graph fails only where an entry is gone, and does not get beyond its
bounds. -/
theorem run_outcome (hs : Ongoing g l e) (vertexNodes fragmentNodes : List BlockId) :
    Outcome g l (vertexNodes ++ fragmentNodes) (e.run vertexNodes fragmentNodes) ∧
      ∀ beyond, e.runBy beyond vertexNodes fragmentNodes = e.run vertexNodes fragmentNodes := by
  have course (stage : Stage) (nodes : List BlockId) {e : Emission} (hs : Ongoing g l e) :=
    buildAllBy_steps stage (hs.outset.closed_gather nodes)
      (fun n hn hid => mem_gather_of_mem hn hid) hs
  have among : ∀ {nodes y}, y ∈ g.gather nodes → nodes ⊆ vertexNodes ++ fragmentNodes →
      y ∈ g.gather (vertexNodes ++ fragmentNodes) := by
    intro nodes y hy sub
    obtain ⟨there, n, hn, path⟩ := mem_gather_iff.mp hy
    exact mem_gather_iff.mpr ⟨there, n, sub hn, path⟩
  suffices both : ∃ r, Outcome g l (vertexNodes ++ fragmentNodes) r ∧
      ∀ beyond, e.runBy beyond vertexNodes fragmentNodes = r by
    obtain ⟨r, outcome, same⟩ := both
    have plain : e.run vertexNodes fragmentNodes = r := (run_eq_runBy ..).trans (same _)
    exact ⟨plain ▸ outcome, fun beyond => (same beyond).trans plain.symm⟩
  unfold runBy
  rcases course .vertex vertexNodes hs with
    ⟨e₁, first, steps, -⟩ | ⟨e₁, y, x, first, steps, hy, origin, gone⟩
  case halts =>
    exact ⟨_, .lost (steps.steady hs) (among hy (subset_append_left _ _)) origin gone,
      fun beyond => by rw [first]; rfl⟩
  have hs₁ := (steps.steady hs).between fragmentNodes
  rcases course .fragment fragmentNodes hs₁ with
    ⟨e₂, last, steps, -⟩ | ⟨e₂, y, x, last, steps, hy, origin, gone⟩
  case halts =>
    exact ⟨_, .lost (steps.steady hs₁) (among hy (subset_append_right _ _)) origin gone,
      fun beyond => by rw [first]; exact last _⟩
  exact ⟨.ok e₂, .ended (steps.steady hs₁), fun beyond => by rw [first]; exact last _⟩

/-- What every step keeps, and the passage from one stage to the other, an emission keeps. -/
theorem run_lasts {P : Emission → Prop}
    (step : ∀ {stage T} {e e' : Emission}, Ongoing g l e → Step l stage T e e' → P e → P e')
    (between : ∀ {e : Emission} (nodes : List BlockId), Ongoing g l e → P e →
      P (e.shareDeclarations.reopenDual nodes))
    (hs : Ongoing g l e) (h : e.run vertexNodes fragmentNodes = .ok e') (hp : P e) : P e' := by
  obtain ⟨e₁, steps₁, steps₂, -⟩ := run_steps hs h
  have hs₁ := steps₁.steady hs
  have first := Steps.lasts (fun _ _ => step) hs steps₁ hp
  exact Steps.lasts (fun _ _ => step) (hs₁.between fragmentNodes) steps₂
    (between fragmentNodes hs₁ first)

theorem run_steady (hs : Ongoing g l e)
    (h : e.run vertexNodes fragmentNodes = .ok e') : Ongoing g l e' := by
  obtain ⟨e₁, steps₁, steps₂, -⟩ := run_steps hs h
  exact steps₂.steady ((steps₁.steady hs).between fragmentNodes)

/-- The constants of both stages are written the way their language declares constants. -/
theorem run_worded (hs : Ongoing g l e) (hworded : ∀ s, (e.draft s).Worded)
    (h : e.run vertexNodes fragmentNodes = .ok e') (s : Stage) : (e'.draft s).Worded := by
  refine run_lasts (P := fun e => ∀ s, (e.draft s).Worded)
    (fun hs hstep worded s => (hstep.draft hs s).worded (worded s)) ?_ hs h hworded s
  intro e₁ nodes hs₁ worded s
  cases s with
  | vertex => exact worded .vertex
  | fragment =>
    have language : e₁.fragment.language = e₁.vertex.language :=
      (hs₁.language .fragment).trans (hs₁.language .vertex).symm
    exact (grows_shareDeclarations language (worded .vertex)).worded (worded .fragment)

/-- An emission that succeeds ends in a state in which every call has read right symbols, if no fog
feeds what is built in the vertex stage. -/
theorem run_sound (hs : Ongoing g l e) (entered : g.Entered) (hbuilt : e.built = [])
    (hcalls : e.calls = []) (hvaryings : e.ledger.varyings = [])
    (subV : ∀ x ∈ g.gather vertexNodes, S x) (subF : ∀ x ∈ g.gather fragmentNodes, S x)
    (plain : Unrouted S e)
    (noFog : ∀ x y b, x ∈ g.gather vertexNodes → g.Upstream x y → g.get? y = some b →
      b.kind.isFog = false)
    (h : e.run vertexNodes fragmentNodes = .ok e') : ∃ V F, FragmentStage g l V F S e' := by
  obtain ⟨e₁, steps₁, steps₂, -⟩ := run_steps hs h
  have vertex : VertexStage g l (fun x => x ∈ g.gather vertexNodes) S e₁ :=
    (VertexStage.start hs entered hbuilt hcalls hvaryings plain).steps
      (hs.outset.closed_gather vertexNodes) subV steps₁
  have start := FragmentStage.start vertex fragmentNodes
  rw [gather_of_outlines vertex.steady.outlines] at start
  exact ⟨_, _, start.steps (hs.outset.closed_gather fragmentNodes) subF noFog steps₂⟩

end ShaderGraph.Emission
