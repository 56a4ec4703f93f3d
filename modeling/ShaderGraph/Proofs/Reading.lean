import ShaderGraph.Proofs.Steps

/-!
# Every value that a block reads exists in its stage

A block that is called reads symbols. `Reads` says what makes a symbol right: in the fragment stage
a value that only the vertex stage makes is read through a varying; every other value is read by
the symbol of the output, which was made earlier in the stage or is declared there.

What was read right stays right: `CallSound.step`.
-/

namespace ShaderGraph.Emission

open Relation List ShaderGraph.Graph Block

variable {e e' : Emission} {stage : Stage} {id x : BlockId} {g : Graph} {l : Language}
  {T : BlockId → Prop} {brought : List Slot} {b b' c : Block} {made q : BuildCall} {s : Stage}
  {i : Nat} {before : List BuildCall} {source : SocketRef} {symbol : String}
  (hs : Ongoing g l e) (h : Step l stage T e e')

/-! ## 1. A step is a call or leaves the calls alone -/

theorem Called.eq_of_get? (h : Called stage id brought e e' b b' made)
    (hc : e'.graph.get? id = some c) : c = b' := by
  rw [h.get?, if_pos rfl] at hc
  exact (Option.some.inj hc).symm

theorem Called.mem_built (h : Called stage id brought e e' b b' made) : id ∈ e'.built := by
  rw [h.built]
  exact mem_cons_self

include hs h in
theorem Step.mem_calls (hq : q ∈ e'.calls) :
    q ∈ e.calls ∨ ∃ brought b b', Calling l stage T q.block brought e e' b b' q := by
  rcases h.quiet_or_calling hs with quiet | ⟨id, brought, b, b', made, calling⟩
  · exact .inl (quiet.calls ▸ hq)
  · rw [calling.calls, mem_append, mem_singleton] at hq
    rcases hq with hq | rfl
    · exact .inl hq
    · obtain rfl := calling.made_block
      exact .inr ⟨brought, b, b', calling⟩

include hs h in
theorem Step.mem_built (hx : x ∈ e'.built) :
    x ∈ e.built ∨ ∃ brought b b' made, Calling l stage T x brought e e' b b' made := by
  rcases h.quiet_or_calling hs with quiet | ⟨id, brought, b, b', made, calling⟩
  · exact .inl (quiet.built ▸ hx)
  · rw [calling.built, mem_cons] at hx
    rcases hx with rfl | hx
    · exact .inr ⟨brought, b, b', made, calling⟩
    · exact .inl hx

include hs h in
theorem Step.calls_subset : e.calls ⊆ e'.calls := by
  rcases h.quiet_or_calling hs with quiet | ⟨_, _, _, _, _, calling⟩
  · rw [quiet.calls]
    exact List.Subset.refl _
  · rw [calling.calls]
    exact subset_append_left _ _

/-- A ledger to which problems, varyings and names were added. -/
structure Gains (l l' : Ledger) : Prop where
  customErrors : l.customErrors ⊆ l'.customErrors
  varyings : l.varyings ⊆ l'.varyings
  numbers : ∀ wish, l.names.number wish ≤ l'.names.number wish

theorem Gains.of_grows {l l' : Ledger} (h : l.Grows l') : Gains l l' := by
  obtain ⟨more, heq, -⟩ := h.varyings
  exact ⟨h.customErrors, heq ▸ subset_append_left _ _, h.numbers⟩

include hs h in
theorem Step.gains : Gains e.ledger e'.ledger := by
  rcases h.quiet_or_calling hs with quiet | ⟨_, _, _, _, _, calling⟩
  · rcases quiet.ledger with grows | ⟨_, _, u, -, -, -, reported⟩ | ⟨-, v, added⟩
    · exact .of_grows grows
    · rw [reported]
      exact ⟨List.Subset.refl _, List.Subset.refl _, fun _ => Nat.le_refl _⟩
    · rw [added]
      exact ⟨List.Subset.refl _, (Appends.declare _ _ _).subset, fun _ => Nat.le_refl _⟩
  · exact .of_grows calling.ledger

/-! ## 2. Calls and symbols -/

def CalledIn (stage : Stage) (e : Emission) (x : BlockId) : Prop :=
  ∃ q ∈ e.calls, q.block = x ∧ q.stage = stage

include hs h in
theorem CalledIn.step (hx : CalledIn s e x) : CalledIn s e' x := by
  obtain ⟨q, hq, hqx⟩ := hx
  exact ⟨q, h.calls_subset hs hq, hqx⟩

theorem Called.calledIn (h : Called stage id brought e e' b b' made) : CalledIn stage e' id := by
  refine ⟨made, ?_, h.made_block, h.made_stage⟩
  rw [h.calls]
  exact mem_append_right _ mem_cons_self

include hs h in
theorem CalledIn.back (other : s ≠ stage) (hx : CalledIn s e' x) : CalledIn s e x := by
  obtain ⟨q, hq, hqx, hqs⟩ := hx
  rcases h.mem_calls hs hq with hq | ⟨_, _, _, calling⟩
  · exact ⟨q, hq, hqx, hqs⟩
  · exact absurd (hqs.symm.trans calling.made_stage) other

def AllSettled (l : Language) (e : Emission) : Prop :=
  ∀ q ∈ e.calls, ∀ b, e.graph.get? q.block = some b → b.Settled l

include hs h in
theorem AllSettled.step (hall : AllSettled l e) : AllSettled l e' := by
  intro q hq b' hb'
  obtain ⟨b, hb, hadv, -⟩ := h.advances_back hs hb'
  rcases h.mem_calls hs hq with hq | ⟨_, c, c', calling⟩
  · exact (hadv.settled (hall q hq b hb)).1
  · obtain rfl := calling.eq_of_get? hb'
    rw [← hs.language stage]
    refine calling.settled fun hin => ?_
    exact (settled_iff hin).mp (calling.labelled c calling.before hin)

include hs h in
theorem Step.symbolAt_of_settled
    {s : SocketRef} (settled : ∀ b, e.graph.get? s.block = some b → b.Settled l) :
    e'.graph.symbolAt s = e.graph.symbolAt s := by
  have same := (hs.outlines.trans (h.steady hs).outlines.symm)
  cases hb : e.graph.get? s.block with
  | none =>
    have hb' : e'.graph.get? s.block = none := by
      rw [get?_eq_none_iff, ← ids_of_outlines same, ← get?_eq_none_iff]
      exact hb
    simp [Graph.symbolAt, Graph.output?, hb, hb']
  | some b =>
    obtain ⟨b', hb', hadv, -⟩ := h.advances hs hb
    rw [symbolAt_of_get? hb, symbolAt_of_get? hb', symbolOf, symbolOf,
      (hadv.settled (settled b hb)).2]

include hs h in
theorem Step.symbolAt
    (hall : AllSettled l e) {s : SocketRef} (hcalled : ∃ q ∈ e.calls, q.block = s.block) :
    e'.graph.symbolAt s = e.graph.symbolAt s := by
  obtain ⟨q, hq, hqs⟩ := hcalled
  exact h.symbolAt_of_settled hs fun b hb => hall q hq b (hqs ▸ hb)

include hs h in
theorem Step.socket {c' : Block}
    {p' : InputSocket} (hc : e.graph.get? x = some c) (hc' : e'.graph.get? x = some c')
    (hp' : c'.inputs[i]? = some p') :
    c.inputs[i]? = some p' ∨ ∃ source q, stage = .fragment ∧ p'.enforced = true ∧
      p'.link = some source ∧ T x ∧ e.graph.get? source.block = some q ∧
      source.block ∈ e.built ∧ needsVarying q = true ∧
      p'.symbol = l.varyingRef .fragment (varyingName (e.graph.symbolAt source)) ∧
      e'.ledger.hasVarying (varyingName (e.graph.symbolAt source)) = true := by
  have unchanged : c'.inputs = c.inputs → c.inputs[i]? = some p' := fun same => same ▸ hp'
  cases h with
  | report u => exact .inl (unchanged (by rw [Option.some.inj (hc.symm.trans hc')]))
  | name hb =>
    rcases nameBlock_eq hb with ⟨-, same⟩ | ⟨-, changed⟩
    · rw [same, hc] at hc'
      exact .inl (unchanged (by rw [Option.some.inj hc']))
    · rw [changed] at hc'
      rw [get?_modify, hc] at hc'
      refine .inl (unchanged ?_)
      split at hc'
      · rw [← Option.some.inj hc']
        rfl
      · rw [Option.some.inj hc']
  | @route e₁ consumer b producer j p source symbol hstage hT hconsumer hi hl hp hbuilt hcross
      hcarried =>
    rw [get?_modify, hcarried.graph, hc] at hc'
    split at hc'
    · rename_i hx
      cases hc'
      rw [hx, hconsumer] at hc
      cases hc
      simp only [Block.modifyInput, getElem?_modify] at hp'
      by_cases hij : j = i
      · subst hij
        simp only [hi, if_true, Option.map_eq_map, Option.map_some] at hp'
        cases hp'
        refine .inr ⟨source, producer, hstage, rfl, hl, hx ▸ hT, hp, hbuilt, hcross.2, ?_,
          hcarried.hasVarying⟩
        rw [← hs.language .fragment]
        exact hcarried.reference_eq
      · exact .inl (by simpa [hij] using hp')
    · exact .inl (unchanged (by rw [Option.some.inj hc']))
  | carry hstage hcarried =>
    rw [hcarried.graph, hc] at hc'
    exact .inl (unchanged (by rw [Option.some.inj hc']))
  | call hT hid hfed hlabel htele hcall =>
    obtain ⟨b, b', made, hcalled⟩ := hs.called hcall
    rw [hcalled.get?] at hc'
    refine .inl (unchanged ?_)
    split at hc'
    · rename_i hx
      cases hc.symm.trans (hx ▸ hcalled.before)
      rw [← Option.some.inj hc']
      exact hcalled.inputs
    · rw [hc] at hc'
      rw [Option.some.inj hc']

/-! ## 3. Reading a value -/

/-- Only the vertex stage makes the value of the block: it is an attribute, or it was built there
and is not built in both stages. -/
def FromVertex (e : Emission) (x : BlockId) : Prop :=
  ∃ p, e.graph.get? x = some p ∧ (p.kind.isAttribute = true ∨
    (p.target ≠ .vertexAndFragment ∧ CalledIn .vertex e x))

include hs h in
theorem FromVertex.step (hx : FromVertex e x) : FromVertex e' x := by
  obtain ⟨p, hp, hv⟩ := hx
  obtain ⟨p', hp', hadv, -⟩ := h.advances hs hp
  refine ⟨p', hp', ?_⟩
  rw [isAttribute_of_outline hadv.outline, target_of_outline hadv.outline]
  exact hv.imp_right fun ⟨ht, hc⟩ => ⟨ht, hc.step hs h⟩

theorem FromVertex.back (hs : Ongoing g l e) (h : Step l .fragment T e e')
    (hx : FromVertex e' x) : FromVertex e x := by
  obtain ⟨p', hp', hv⟩ := hx
  obtain ⟨p, hp, hadv, -⟩ := h.advances_back hs hp'
  refine ⟨p, hp, ?_⟩
  rw [isAttribute_of_outline hadv.outline, target_of_outline hadv.outline] at hv
  exact hv.imp_right fun ⟨ht, hc⟩ => ⟨ht, hc.back hs h nofun⟩

/-- The varying of an output, as the fragment stage refers to it, and as the ledger lists it. -/
def IsVarying (l : Language) (e : Emission) (source : SocketRef) (symbol : String) : Prop :=
  symbol = l.varyingRef .fragment (varyingName (e.graph.symbolAt source)) ∧
    e.ledger.hasVarying (varyingName (e.graph.symbolAt source)) = true

/-- A symbol that stands for an output in a stage, after the calls `before`. -/
inductive Reads (l : Language) (e : Emission) (before : List BuildCall) (stage : Stage)
    (source : SocketRef) (symbol : String) : Prop
  /-- The value was made earlier in the stage. -/
  | direct (q : BuildCall) : q ∈ before → q.block = source.block → q.stage = stage →
      (stage = .fragment → ¬FromVertex e source.block) → symbol = e.graph.symbolAt source →
      Reads l e before stage source symbol
  /-- The value is a uniform, a constant or a system value that is declared in the stage. -/
  | declared (q : BuildCall) (p : Block) : stage = .fragment → q ∈ before →
      q.block = source.block → ¬FromVertex e source.block →
      e.graph.get? source.block = some p → p.kind.isInput = true → p.kind.isAttribute = false →
      symbol = e.graph.symbolAt source → e.fragment.Declares symbol →
      Reads l e before stage source symbol
  /-- The value comes from the vertex stage. -/
  | varying (q : BuildCall) : stage = .fragment → q ∈ before → q.block = source.block →
      FromVertex e source.block → IsVarying l e source symbol → Reads l e before stage source symbol

theorem Reads.called (h : Reads l e before stage source symbol) :
    ∃ q ∈ before, q.block = source.block := by
  cases h with
  | direct q hq hx => exact ⟨q, hq, hx⟩
  | declared q p hs hq hx => exact ⟨q, hq, hx⟩
  | varying q hs hq hx => exact ⟨q, hq, hx⟩

include hs h in
theorem IsVarying.step (hall : AllSettled l e) (hcalled : ∃ q ∈ e.calls, q.block = source.block)
    (hv : IsVarying l e source symbol) : IsVarying l e' source symbol := by
  obtain ⟨hsymbol, hvarying⟩ := hv
  refine ⟨by rw [h.symbolAt hs hall hcalled]; exact hsymbol, ?_⟩
  rw [h.symbolAt hs hall hcalled]
  obtain ⟨v, hv, hname⟩ := any_eq_true.mp hvarying
  exact any_eq_true.mpr ⟨v, (h.gains hs).varyings hv, hname⟩

theorem Reads.step (hs : Ongoing g l e) (h : Step l s T e e')
    (hall : AllSettled l e) (hbefore : before ⊆ e.calls) (later : s = .vertex → stage = .vertex)
    (hr : Reads l e before stage source symbol) : Reads l e' before stage source symbol := by
  have hcalled : ∃ q ∈ e.calls, q.block = source.block := by
    obtain ⟨q, hq, hx⟩ := hr.called
    exact ⟨q, hbefore hq, hx⟩
  have same := h.symbolAt hs hall hcalled
  have back : stage = .fragment → ¬FromVertex e source.block → ¬FromVertex e' source.block := by
    intro hstage hn hv
    cases s with
    | vertex => rw [later rfl] at hstage; cases hstage
    | fragment => exact hn (hv.back hs h)
  cases hr with
  | direct q hq hx hqs hn hsymbol =>
    exact .direct q hq hx hqs (fun hstage => back hstage (hn hstage)) (by rw [same]; exact hsymbol)
  | declared q p hstage hq hx hn hp hin hatt hsymbol hdecl =>
    obtain ⟨p', hp', hadv, -⟩ := h.advances hs hp
    refine .declared q p' hstage hq hx (back hstage hn) hp' ?_ ?_ (by rw [same]; exact hsymbol) ?_
    · rw [isInput_of_outline hadv.outline]; exact hin
    · rw [isAttribute_of_outline hadv.outline]; exact hatt
    · exact (h.draft hs .fragment).declares hdecl
  | varying q hstage hq hx hv hvarying =>
    exact .varying q hstage hq hx (hv.step hs h) (hvarying.step hs h hall hcalled)

/-- A call that read right symbols: one for every input that is linked and looked at in its stage,
and one for the teleport that comes out at the block. -/
structure CallSound (l : Language) (e : Emission) (before : List BuildCall) (call : BuildCall) :
    Prop where
  inputs : ∀ (b : Block) (i : Nat) (p : InputSocket) (s : SocketRef),
    e.graph.get? call.block = some b → b.inputs[i]? = some p → p.link = some s →
    isProcessed b call.stage p.spec = true →
    ∃ slot : Slot, call.inputs[i]? = some slot ∧ slot.name = p.spec.name ∧
      Reads l e before call.stage s slot.symbol
  teleport : ∀ b : Block, e.graph.get? call.block = some b → b.kind.isTeleportOut = true →
    e.ledger.customErrors = [] →
    ∃ (entry : BlockId) (s : SocketRef) (slot : Slot), b.kind.teleportEntry = some entry ∧
      e.graph.source? ⟨entry, 0⟩ = some s ∧ call.inputs[b.inputs.length]? = some slot ∧
      slot.name = "entry" ∧ Reads l e before call.stage s slot.symbol

include hs h in
theorem CallSound.step (hall : AllSettled l e) {call : BuildCall} (hbefore : before ⊆ e.calls)
    (later : stage = .vertex → call.stage = .vertex) (hsound : CallSound l e before call) :
    CallSound l e' before call where
  inputs b' i p' s hb' hp' hl' hprocessed := by
    obtain ⟨b, hb, hadv, -⟩ := h.advances_back hs hb'
    obtain ⟨p, hp, hspec, hlink⟩ := input_of_outline hadv.outline.symm hp'
    have hprocessed' : isProcessed b call.stage p.spec = true := by
      unfold isProcessed at hprocessed ⊢
      rwa [hspec, ← target_of_outline hadv.outline]
    obtain ⟨slot, hslot, hname, hreads⟩ :=
      hsound.inputs b i p s hb hp (hlink.trans hl') hprocessed'
    exact ⟨slot, hslot, hname.trans (congrArg SocketSpec.name hspec),
      hreads.step hs h hall hbefore later⟩
  teleport b' hb' hout clean := by
    obtain ⟨b, hb, hadv, -⟩ := h.advances_back hs hb'
    have hout' : b.kind.isTeleportOut = true :=
      (congrArg (fun o => o.traits.isTeleportOut) hadv.outline).symm.trans hout
    have clean' : e.ledger.customErrors = [] :=
      subset_nil.mp (clean ▸ (h.gains hs).customErrors)
    have same := (h.steady hs).outlines.trans hs.outlines.symm
    have length : b'.inputs.length = b.inputs.length := by
      have := congrArg (fun o => o.inputs.length) hadv.outline
      simpa [Block.outline] using this
    obtain ⟨entry, s, slot, hentry, hsource, hslot, hname, hreads⟩ :=
      hsound.teleport b hb hout' clean'
    refine ⟨entry, s, slot, ?_, ?_, ?_, hname, hreads.step hs h hall hbefore later⟩
    · rw [entry_of_outline hadv.outline]; exact hentry
    · rw [source?_of_outlines same]; exact hsource
    · rw [length]; exact hslot

theorem split_append_singleton {α : Type} {items before after : List α} {last item : α}
    (h : items ++ [last] = before ++ item :: after) :
    before = items ∧ item = last ∨ ∃ init, items = before ++ item :: init := by
  rcases eq_nil_or_concat after with rfl | ⟨init, final, rfl⟩
  · obtain ⟨rfl, hlast⟩ := append_inj' h rfl
    exact .inl ⟨rfl, (singleton_inj.mp hlast).symm⟩
  · rw [concat_eq_append, ← cons_append, ← append_assoc] at h
    exact .inr ⟨init, (append_inj' h rfl).1⟩

def AllSound (l : Language) (e : Emission) : Prop :=
  ∀ before call after, e.calls = before ++ call :: after → CallSound l e before call

include hs h in
/-- It is enough to look at the last call. -/
theorem AllSound.step
    (hall : AllSettled l e) (later : stage = .vertex → ∀ q ∈ e.calls, q.stage = .vertex)
    (last : ∀ id brought b b' made, Calling l stage T id brought e e' b b' made →
      CallSound l e' e.calls made)
    (hsound : AllSound l e) : AllSound l e' := by
  have old : ∀ before call after, e.calls = before ++ call :: after →
      CallSound l e' before call := by
    intro before call after heq
    refine (hsound before call after heq).step hs h hall ?_ fun hstage => later hstage call ?_
    · rw [heq]
      exact subset_append_left _ _
    · rw [heq]
      exact mem_append_right _ mem_cons_self
  intro before call after heq
  rcases h.quiet_or_calling hs with quiet | ⟨id, brought, b, b', made, calling⟩
  · rw [quiet.calls] at heq
    exact old before call after heq
  · rw [calling.calls] at heq
    rcases split_append_singleton heq with ⟨rfl, rfl⟩ | ⟨init, heq⟩
    · exact last _ _ _ _ _ calling
    · exact old before call init heq

/-- A block that belongs to no stage reads all its inputs, whichever stage it is called for. -/
theorem AllSound.reads_of_neutral (hsound : AllSound l e) (hq : q ∈ e.calls) {p : InputSocket}
    {s : SocketRef} (hb : e.graph.get? q.block = some b) (neutral : b.target = .neutral)
    (hp : b.inputs[i]? = some p) (hl : p.link = some s) :
    ∃ before symbol, before ⊆ e.calls ∧ Reads l e before q.stage s symbol := by
  obtain ⟨before, after, heq⟩ := append_of_mem hq
  obtain ⟨slot, -, -, hreads⟩ := (hsound before q after heq).inputs b i p s hb hp hl
    (by simp [isProcessed, neutral])
  exact ⟨before, slot.symbol, heq ▸ subset_append_left _ _, hreads⟩

/-- The entry of a teleport belongs to no stage. -/
theorem exists_entry (entered : g.Entered) (hs : Ongoing g l e) {entry : BlockId}
    (hb : e.graph.get? id = some b) (hentry : b.kind.teleportEntry = some entry)
    (there : entry ∈ e.graph.ids) :
    e.graph.Upstream id entry ∧ ∃ c, e.graph.get? entry = some c ∧ c.target = .neutral := by
  have held : e.graph.origin? id = some entry := origin?_eq_some_iff.mpr ⟨b, hb, hentry⟩
  obtain ⟨c, hc, hin⟩ := isEntry_iff.mp ((entered.of_outlines hs.outlines).isEntry held there)
  exact ⟨.inr ⟨held, there⟩, c, hc, (Kind.target_of_isTeleportIn hin).1⟩

/-- A value that comes out of a teleport comes from a block of the graph. -/
theorem Arrived.mem_ids {entry : BlockId} {slot : Slot} (h : Arrived stage e entry slot)
    (connected : slot.connected = true) : entry ∈ e.graph.ids := by
  have reads : ∀ {s}, e.graph.source? ⟨entry, 0⟩ = some s → entry ∈ e.graph.ids :=
    fun linked => (upstream_of_source? linked).mem_ids
  cases h with
  | free unconnected => exact nomatch connected.symm.trans unconnected
  | crossing linked => exact reads linked
  | reading socket linked => exact reads (source?_eq_some_iff.mpr ⟨_, socket, linked⟩)

/-- What a teleport hands to a block that is called, where nothing is reported. -/
theorem Calling.entry (h : Calling l stage T id brought e e' b b' made) (fitted : b.Fitted)
    (hout : b.kind.isTeleportOut = true) (clean : e'.ledger.customErrors = []) :
    ∃ entry slot, b.kind.teleportEntry = some entry ∧ entry ∈ e.built ∧
      made.inputs[b.inputs.length]? = some slot ∧ slot.name = "entry" ∧ slot.connected = true ∧
      Arrived stage e entry slot := by
  have noInputs : b.inputs = [] := by
    have declared := fitted.inputs
    cases hk : b.kind with
    | teleportOut t => rw [hk] at declared; exact List.map_eq_nil_iff.mp declared
    | _ => rw [hk] at hout; cases hout
  have same : made.inputs = brought := by
    refine List.ext_getElem? fun i => ?_
    have := h.teleported i
    rwa [noInputs, List.length_nil, Nat.zero_add] at this
  obtain ⟨slot, hfound, hconnected⟩ := h.entered hout clean
  have harrived := h.arrived
  unfold Teleported at harrived
  cases hentry : b.kind.teleportEntry with
  | none =>
    simp only [hentry] at harrived
    rw [same, harrived] at hfound
    cases hfound
  | some entry =>
    simp only [hentry] at harrived
    obtain ⟨hbuilt, slot', hbrought, hname, hslot⟩ := harrived
    rw [same, hbrought] at hfound
    have : slot' = slot := by simpa [hname] using hfound
    subst this
    refine ⟨entry, slot', rfl, hbuilt, ?_, hname, hconnected, hslot⟩
    rw [same, hbrought, noInputs]
    rfl

/-- A call is sound if, when it is made, right symbols stand at the inputs of the block and come
out of its entry. -/
theorem Calling.sound (hs : Ongoing g l e) (entered : g.Entered) (hall : AllSettled l e)
    (hstep : Step l stage T e e') (h : Calling l stage T id brought e e' b b' made)
    (inputs : ∀ (i : Nat) (p : InputSocket) (s : SocketRef), b.inputs[i]? = some p →
      p.link = some s → isProcessed b stage p.spec = true →
      Reads l e e.calls stage s (readSymbol e.graph p))
    (teleport : ∀ (entry : BlockId) (c : Block) (slot : Slot), e.graph.Upstream id entry →
      entry ∈ e.built → e.graph.get? entry = some c → c.target = .neutral →
      Arrived stage e entry slot → slot.connected = true →
      ∃ s, e.graph.source? ⟨entry, 0⟩ = some s ∧ Reads l e e.calls stage s slot.symbol) :
    CallSound l e' e.calls made := by
  have onward : ∀ {s symbol}, Reads l e e.calls stage s symbol →
      Reads l e' e.calls stage s symbol :=
    fun hreads => hreads.step hs hstep hall (List.Subset.refl _) fun same => same
  constructor
  case inputs =>
    intro c i p s hc hp hl hprocessed
    obtain rfl := h.eq_of_get? (h.made_block ▸ hc)
    rw [h.inputs] at hp
    rw [h.made_stage] at hprocessed ⊢
    have hprocessed' : isProcessed b stage p.spec = true := by
      unfold isProcessed at hprocessed ⊢
      rwa [← target_of_outline h.outline]
    obtain ⟨slot, hslot, hname, hsymbol⟩ := h.slots i p hp
    exact ⟨slot, hslot, hname, onward (hsymbol ▸ inputs i p s hp hl hprocessed')⟩
  case teleport =>
    intro c hc hout clean
    obtain rfl := h.eq_of_get? (h.made_block ▸ hc)
    have hout' : b.kind.isTeleportOut = true :=
      (congrArg (fun o => o.traits.isTeleportOut) h.outline).symm.trans hout
    obtain ⟨entry, slot, hentry, hbuilt, hslot, hname, hconnected, harrived⟩ :=
      h.entry (hs.regular.fitted id b h.before) hout' clean
    obtain ⟨hup, c, hc, neutral⟩ :=
      exists_entry entered hs h.before hentry (harrived.mem_ids hconnected)
    obtain ⟨s, hsource, hreads⟩ :=
      teleport entry c slot hup hbuilt hc neutral harrived hconnected
    have same := (hstep.steady hs).outlines.trans hs.outlines.symm
    refine ⟨entry, s, slot, ?_, ?_, ?_, hname, ?_⟩
    · rw [entry_of_outline h.outline]; exact hentry
    · rw [source?_of_outlines same]; exact hsource
    · rw [h.inputs]; exact hslot
    · rw [h.made_stage]; exact onward hreads

end ShaderGraph.Emission
