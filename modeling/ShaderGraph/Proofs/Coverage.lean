import ShaderGraph.Proofs.Attaching
import ShaderGraph.Proofs.Defines
import ShaderGraph.Proofs.Schedule

/-!
# What a build covers

A stage builds its nodes and what feeds them, as far as its calls look: a fog looks at some of its
inputs in one stage and at the rest in the other. So what is behind a root is built if every fog
there is built for both stages, which the walks see to as long as fogs keep apart
(`Material.FogApart`).

A required input that is free is reported when its block is built, and nothing else makes a message
of that form. Hence the messages of a build tell which inputs behind the roots are free
(`Material.build_covers_roots`), unless an optimizer has dropped a root: what only a dropped root
reaches is neither built nor reported (`Material.headless_root_not_built`).
-/

namespace ShaderGraph

variable {b : Block}

open Relation List ShaderGraph.Graph Block Kind Emission Preparation

/-! ## 1. Messages about free inputs -/

namespace UnconnectedInput

variable {u v : UnconnectedInput}

/-- The parts of the message can be told apart: the name of the input holds no blank, and that of
the class no bracket. -/
structure Legible (u : UnconnectedInput) : Prop where
  input : ' ' ∉ u.input.toList
  className : '[' ∉ u.className.toList

theorem toList_message (u : UnconnectedInput) :
    u.message.toList = "input ".toList ++ (u.input.toList ++ ' ' :: ("from block ".toList ++
      ((u.block.toList ++ '[' :: u.className.toList) ++
        "] is not connected and is not optional".toList))) := by
  have lead : " from block ".toList = ' ' :: "from block ".toList := by decide
  have bracket : "[".toList = ['['] := by decide
  simp only [message, String.toList_append, List.append_assoc, lead, bracket, List.cons_append,
    List.nil_append]

theorem message_injective (hu : u.Legible) (hv : v.Legible) (h : u.message = v.message) :
    u = v := by
  have texts := congrArg String.toList h
  rw [toList_message, toList_message] at texts
  obtain ⟨input, -, rest⟩ := append_stop_inj (P := (· = ' ')) (fun c hc h => hu.input (h ▸ hc))
    (fun c hc h => hv.input (h ▸ hc)) rfl rfl (List.append_cancel_left texts)
  have named := List.append_cancel_right (List.append_cancel_left rest)
  -- the last bracket is the one before the class
  have backward := congrArg List.reverse named
  simp only [List.reverse_append, List.reverse_cons, List.append_assoc, List.singleton_append]
    at backward
  obtain ⟨className, -, block⟩ := append_stop_inj (P := (· = '['))
    (fun c hc h => hu.className (h ▸ List.mem_reverse.mp hc))
    (fun c hc h => hv.className (h ▸ List.mem_reverse.mp hc)) rfl rfl backward
  calc
    u = ⟨u.input, u.block, u.className⟩ := rfl
    _ = ⟨v.input, v.block, v.className⟩ := by
      rw [String.toList_inj.mp input, String.toList_inj.mp (List.reverse_injective block),
        String.toList_inj.mp (List.reverse_injective className)]
    _ = v := rfl

theorem not_remark_message (u : UnconnectedInput) : ¬Remark u.message := by
  refine not_not.mpr ?_
  have tail : "optional".toList <:+ "] is not connected and is not optional".toList := by decide
  have whole : "] is not connected and is not optional".toList <:+ u.message.toList :=
    ⟨_, (String.toList_append ..).symm⟩
  exact tail.trans whole

end UnconnectedInput

theorem Kind.bracket_notMem_className (k : Kind) : '[' ∉ k.className.toList := by
  cases k with
  | math op => cases op <;> decide
  | _ => dsimp only [className]; decide

theorem Kind.blank_notMem_input (k : Kind) : ∀ spec ∈ k.inputs, ' ' ∉ spec.name.toList := by
  cases k <;> dsimp only [inputs] <;> decide

theorem Block.Fitted.mem_inputs (h : b.Fitted) {i : Nat} {p : InputSocket}
    (hp : b.inputs[i]? = some p) : p.spec ∈ b.kind.inputs := by
  rw [← h.inputs]
  exact mem_map_of_mem (mem_of_getElem? hp)

theorem Block.Lacks.legible {u : UnconnectedInput} (fitted : b.Fitted) (h : b.Lacks u) :
    u.Legible := by
  obtain ⟨i, p, hp, -, -, rfl⟩ := h
  refine ⟨b.kind.blank_notMem_input p.spec ?_, b.kind.bracket_notMem_className⟩
  exact fitted.mem_inputs hp

/-! ## 2. Inputs that are looked at -/

open Emission (isProcessed)

/-- Apart from fog, a kind that keeps to one stage has inputs for both stages. -/
theorem Kind.target_of_not_fog {k : Kind} (h : k.isFog = false) :
    k.target = .neutral ∨ k.inputs = [] ∨
      ((k.target = .vertex ∨ k.target = .fragment) ∧
        ∀ spec ∈ k.inputs, spec.target = .vertexAndFragment) := by
  cases k with
  | fog f => cases h
  | input b => exact .inr (.inl rfl)
  | vertexOutput => exact .inr (.inr ⟨.inl rfl, by decide⟩)
  | morphTargets m => exact .inr (.inr ⟨.inl rfl, by dsimp only [inputs]; decide⟩)
  | bones b => exact .inr (.inr ⟨.inl rfl, by dsimp only [inputs]; decide⟩)
  | fragmentOutput f => exact .inr (.inr ⟨.inr rfl, by dsimp only [inputs]; decide⟩)
  | texture t => exact .inr (.inr ⟨.inr rfl, by dsimp only [inputs]; decide⟩)
  | _ => exact .inl rfl

namespace Block

variable {b : Block} {p : InputSocket} {i : Nat}

/-- Every stage looks at all inputs of a block that is not a fog. -/
theorem isProcessed_of_not_fog (fitted : b.Fitted) (h : b.kind.isFog = false)
    (hp : b.inputs[i]? = some p) (stage : Stage) : isProcessed b stage p.spec = true := by
  have declared := fitted.mem_inputs hp
  unfold isProcessed target
  rcases target_of_not_fog h with neutral | none | ⟨single, both⟩
  · rw [neutral]
    rfl
  · rw [none] at declared
    cases declared
  · rw [both p.spec declared]
    rcases single with vertex | fragment
    · rw [vertex]
      cases stage <;> rfl
    · rw [fragment]
      cases stage <;> rfl

theorem exists_isProcessed (fitted : b.Fitted) (h : b.kind.isFog = true)
    (hp : b.inputs[i]? = some p) : ∃ stage, isProcessed b stage p.spec = true := by
  have declared := fitted.mem_inputs hp
  have stages : ∀ spec ∈ FogBlock.inputs, spec.target = .vertex ∨ spec.target = .fragment := by
    decide
  unfold isProcessed target
  rw [(isFog_iff.mp h).2]
  cases hk : b.kind with
  | fog f =>
    rw [hk] at declared
    rcases stages p.spec declared with vertex | fragment
    · exact ⟨.vertex, by rw [vertex]; rfl⟩
    · exact ⟨.fragment, by rw [fragment]; rfl⟩
  | _ => rw [hk] at h; cases h

end Block

/-! ## 3. What is called -/

namespace Emission

variable {e e' : Emission} {stage : Stage} {g : Graph} {l : Language} {T : BlockId → Prop}
  {V F : List BlockId} {x y : BlockId} {S : BlockId → Prop}

/-- The calls of an emission at its end. The nodes of both stages were called, those of the vertex
stage for it, and both stages kept to what is behind their nodes. What a call looks at was called,
and so was its teleport entry. -/
structure Complete (g : Graph) (V F : List BlockId) (e : Emission) : Prop where
  vertex : ∀ n ∈ V, n ∈ g.ids → CalledIn .vertex e n
  fragment : ∀ n ∈ F, n ∈ g.ids → ∃ q ∈ e.calls, q.block = n
  within : ∀ x, CalledIn .vertex e x → x ∈ g.gather V
  withinFragment : ∀ x, CalledIn .fragment e x → x ∈ g.gather F
  fed : ∀ q ∈ e.calls, ∀ (c : Block) (i : Nat) (p : InputSocket) (s : SocketRef),
    g.get? q.block = some c → c.inputs[i]? = some p → p.link = some s →
    isProcessed c q.stage p.spec = true →
    ∃ q' ∈ e.calls, q'.block = s.block ∧ (g.Dual s.block ∨ q.stage = .vertex → q'.stage = q.stage)
  entered : ∀ q ∈ e.calls, ∀ entry, g.origin? q.block = some entry →
    ∃ q' ∈ e.calls, q'.block = entry ∧ (q.stage = .vertex → q'.stage = .vertex)

theorem Step.calledIn_back (hs : Ongoing g l e) (h : Step l stage T e e')
    {s : Stage} (hx : CalledIn s e' x) : CalledIn s e x ∨ T x := by
  obtain ⟨q, hq, rfl, rfl⟩ := hx
  rcases h.mem_calls hs hq with hq | ⟨_, _, _, calling⟩
  · exact .inl ⟨q, hq, rfl, rfl⟩
  · exact .inr calling.member

theorem Step.vertex_first (hs : Ongoing g l e) (h : Step l .fragment T e e')
    (first : ∀ before q after, e.calls = before ++ q :: after → q.stage = .vertex →
      ∀ q' ∈ before, q'.stage = .vertex) :
    ∀ before q after, e'.calls = before ++ q :: after → q.stage = .vertex →
      ∀ q' ∈ before, q'.stage = .vertex := by
  intro before q after split hq
  rcases h.quiet_or_calling hs with quiet | ⟨_, _, _, _, made, calling⟩
  · exact first before q after (quiet.calls ▸ split) hq
  · rw [calling.calls] at split
    rcases split_append_singleton split with ⟨rfl, rfl⟩ | ⟨init, split⟩
    · exact absurd (hq.symm.trans calling.made_stage) (by decide)
    · exact first before q init split hq

theorem run_complete (hs : Ongoing g l e) (hcalls : e.calls = [])
    (hbuilt : e.built = []) (h : e.run V F = .ok e') : Complete g V F e' := by
  obtain ⟨e₁, steps₁, steps₂, nodesV, nodesF⟩ := run_steps hs h
  have vertex : Scheduled g l .vertex (fun x => x ∈ g.gather V) e₁ :=
    (Scheduled.start hs hcalls hbuilt).steps (hs.outset.closed_gather V) steps₁
  have both := run_scheduled hs hcalls hbuilt h
  have between := vertex.steady.between F
  have within : ∀ x, CalledIn .vertex e₁ x → x ∈ g.gather V :=
    Steps.lasts (P := fun e => ∀ x, CalledIn .vertex e x → x ∈ g.gather V)
      (fun _ _ hs hstep ih x hx => (hstep.calledIn_back hs hx).elim (ih x) id) hs steps₁
      (fun x ⟨q, hq, _⟩ => by rw [hcalls] at hq; cases hq)
  have first : ∀ before q after, e'.calls = before ++ q :: after → q.stage = .vertex →
      ∀ q' ∈ before, q'.stage = .vertex :=
    Steps.lasts (P := fun e => ∀ before q after, e.calls = before ++ q :: after →
        q.stage = .vertex → ∀ q' ∈ before, q'.stage = .vertex)
      (fun _ _ hs hstep ih => hstep.vertex_first hs ih) between steps₂
      fun before q after split _ q' hq' =>
        vertex.first rfl q' (split ▸ mem_append_left _ hq')
  constructor
  case vertex =>
    intro n hn hid
    obtain ⟨q, hq, rfl, -⟩ := vertex.built n (nodesV n hn hid)
    have called : CalledIn .vertex (e₁.shareDeclarations.reopenDual F) q.block :=
      ⟨q, hq, rfl, vertex.first rfl q hq⟩
    exact Steps.lasts (P := fun e => CalledIn .vertex e q.block)
      (fun _ _ hs hstep hx => hx.step hs hstep) between steps₂ called
  case fragment =>
    intro n hn hid
    obtain ⟨q, hq, hqn, -⟩ := both.built n (nodesF n hn hid)
    exact ⟨q, hq, hqn⟩
  case within =>
    exact Steps.lasts (P := fun e => ∀ x, CalledIn .vertex e x → x ∈ g.gather V)
      (fun _ _ hs hstep ih x hx => ih x (hx.back hs hstep (by decide))) between steps₂ within
  case withinFragment =>
    exact Steps.lasts (P := fun e => ∀ x, CalledIn .fragment e x → x ∈ g.gather F)
      (fun _ _ hs hstep ih x hx => (hstep.calledIn_back hs hx).elim (ih x) id) between steps₂
      fun x ⟨q, hq, _, hstage⟩ => nomatch (vertex.first rfl q hq).symm.trans hstage
  case fed =>
    intro q hq c i p s hc hp hl hprocessed
    obtain ⟨before, after, heq⟩ := append_of_mem hq
    obtain ⟨q', hq', hblock, dual⟩ :=
      (both.timely before q after heq).fed c i p s hc hp hl hprocessed
    refine ⟨q', heq ▸ mem_append_left _ hq', hblock, fun h => h.elim dual fun hstage => ?_⟩
    rw [hstage, first before q after heq hstage q' hq']
  case entered =>
    intro q hq entry hentry
    obtain ⟨before, after, heq⟩ := append_of_mem hq
    obtain ⟨q', hq', hblock⟩ := (both.timely before q after heq).entered entry hentry
    exact ⟨q', heq ▸ mem_append_left _ hq', hblock,
      fun hstage => first before q after heq hstage q' hq'⟩

/-- A block that was called as often as it takes to call what feeds it: a fog for both stages. -/
def Covered (g : Graph) (e : Emission) (x : BlockId) : Prop :=
  (∃ q ∈ e.calls, q.block = x) ∧
    ∀ b, g.get? x = some b → b.kind.isFog = true → ∀ stage, CalledIn stage e x

/-- What feeds a covered block is covered, if a fog that feeds it is a node of the vertex stage, and
the block itself is not built there. -/
theorem Complete.covered (h : Complete g V F e) (hg : g.Regular) (entered : g.Entered)
    (hx : Covered g e x) (hxy : g.Upstream x y)
    (apart : ∀ b, g.get? y = some b → b.kind.isFog = true → y ∈ V ∧ x ∉ g.gather V) :
    Covered g e y := by
  obtain ⟨⟨q, hq, rfl⟩, both⟩ := hx
  have hy := hg.coherent.mem_ids_of_upstream hxy
  rcases hxy with ⟨i, s, hs, rfl⟩ | ⟨hentry, there⟩
  · obtain ⟨p, hp, hl⟩ := source?_eq_some_iff.mp hs
    obtain ⟨b, hb, hp⟩ := input?_eq_some_iff.mp hp
    have fitted := hg.fitted _ b hb
    -- a call that looks at the input
    have looked : ∃ q' ∈ e.calls, q'.block = q.block ∧ isProcessed b q'.stage p.spec = true := by
      cases hfog : b.kind.isFog with
      | false => exact ⟨q, hq, rfl, isProcessed_of_not_fog fitted hfog hp q.stage⟩
      | true =>
        obtain ⟨stage, hstage⟩ := exists_isProcessed fitted hfog hp
        obtain ⟨q', hq', hblock, rfl⟩ := both b hb hfog stage
        exact ⟨q', hq', hblock, hstage⟩
    obtain ⟨q', hq', hblock, hprocessed⟩ := looked
    obtain ⟨made, hmade, hsource, same⟩ :=
      h.fed q' hq' b i p s (hblock ▸ hb) hp hl hprocessed
    refine ⟨⟨made, hmade, hsource⟩, fun c hc hfog stage => ?_⟩
    obtain ⟨node, outside⟩ := apart c hc hfog
    cases stage with
    | vertex => exact h.vertex _ node hy
    | fragment =>
      refine ⟨made, hmade, hsource, ?_⟩
      rw [same (.inl ⟨c, hc, (isFog_iff.mp hfog).2⟩)]
      cases hstage : q'.stage with
      | vertex => exact absurd (hblock ▸ h.within q'.block ⟨q', hq', rfl, hstage⟩) outside
      | fragment => rfl
  · obtain ⟨made, hmade, hblock, -⟩ := h.entered q hq y hentry
    refine ⟨⟨made, hmade, hblock⟩, fun b hb hfog => ?_⟩
    obtain ⟨c, hc, isIn⟩ := isEntry_iff.mp (entered.isEntry hentry there)
    cases hb.symm.trans hc
    cases hk : b.kind with
    | fog f => rw [hk] at isIn; cases isIn
    | _ => rw [hk] at hfog; cases hfog

/-- Everything behind roots that were called is called. -/
theorem Complete.covers (h : Complete g V F e) (hg : g.Regular) (entered : g.Entered)
    {roots : List BlockId}
    (start : ∀ n ∈ roots, n ∈ g.ids → Covered g e n)
    (apart : ∀ x y b, x ∈ g.gather roots → g.Upstream x y → g.get? y = some b →
      b.kind.isFog = true → y ∈ V ∧ x ∉ g.gather V) :
    ∀ x ∈ g.gather roots, Covered g e x := by
  intro x hx
  obtain ⟨hid, n, hn, path⟩ := mem_gather_iff.mp hx
  clear hx
  induction path with
  | refl => exact start n hn hid
  | @tail x y path hxy ih =>
    have hx := hxy.mem_ids
    exact h.covered hg entered (ih hx) hxy fun b hb hfog =>
      apart x y b (mem_gather_iff.mpr ⟨hx, n, hn, path⟩) hxy hb hfog

/-! ## 4. What is reported -/

theorem Step.remarks (hs : Ongoing g l e) (h : Step l stage T e e')
    {text : String} (ht : text ∈ e'.ledger.customErrors) :
    text ∈ e.ledger.customErrors ∨ Remark text := by
  rcases h.quiet_or_calling hs with quiet | ⟨_, _, _, _, _, calling⟩
  · rcases quiet.ledger with grows | ⟨_, _, u, -, -, -, reported⟩ | ⟨-, v, added⟩
    · exact grows.remarks text ht
    · rw [reported] at ht
      exact .inl ht
    · rw [added] at ht
      exact .inl ht
  · exact calling.ledger.remarks text ht

/-- The messages of an emission: what was reported is lacking in a block of `S`, what the blocks
that were called lack was reported, and other messages read differently. -/
structure Reporting (g : Graph) (S : BlockId → Prop) (e : Emission) : Prop where
  sound : ∀ u ∈ e.ledger.unconnected, ∃ x b, S x ∧ g.get? x = some b ∧ b.Lacks u
  complete : ∀ q ∈ e.calls, ∀ b u, g.get? q.block = some b → b.Lacks u →
    u ∈ e.ledger.unconnected
  remarks : ∀ text ∈ e.ledger.customErrors, Remark text

theorem Reporting.step (hs : Ongoing g l e) (hstep : Step l stage T e e')
    (sub : ∀ x, T x → S x) (h : Reporting g S e) : Reporting g S e' := by
  constructor
  case sound =>
    intro u hu
    rcases hstep.unconnected hs with same | ⟨id, b, v, hT, hb, lacks, added⟩
    · rw [same] at hu
      exact h.sound u hu
    · rw [added, mem_pushNew] at hu
      rcases hu with hu | rfl
      · exact h.sound u hu
      · obtain ⟨b₀, hb₀, same⟩ := exists_get?_of_outlines hs.outlines.symm hb
        exact ⟨id, b₀, sub id hT, hb₀, lacks.of_outline same⟩
  case complete =>
    intro q hq b u hb lacks
    rcases hstep.mem_calls hs hq with hq | ⟨_, _, _, calling⟩
    · exact hstep.unconnected_subset hs (h.complete q hq b u hb lacks)
    · obtain ⟨c, hc, same⟩ := exists_get?_of_outlines hs.outlines hb
      exact hstep.unconnected_subset hs (calling.reported c u hc (lacks.of_outline same))
  case remarks =>
    intro text ht
    exact (hstep.remarks hs ht).elim (h.remarks text) id

theorem run_reporting (hs : Ongoing g l e) (start : Reporting g S e)
    (subV : ∀ x ∈ g.gather V, S x) (subF : ∀ x ∈ g.gather F, S x) (h : e.run V F = .ok e') :
    Reporting g S e' := by
  obtain ⟨e₁, steps₁, steps₂, -⟩ := run_steps hs h
  obtain ⟨sound, complete, remarks⟩ := Steps.lasts (P := Reporting g S)
    (fun _ _ hs hstep ih => ih.step hs hstep subV) hs steps₁ start
  exact Steps.lasts (fun _ _ hs hstep ih => ih.step hs hstep subF)
    ((steps₁.steady hs).between F) steps₂ ⟨sound, complete, remarks⟩

/-- In a pass without problems the required inputs of a block that was called are connected. -/
theorem Reporting.exists_link (h : Reporting g S e) (clean : e.ledger.errors = []) {q : BuildCall}
    (hq : q ∈ e.calls) {b : Block} (hb : g.get? q.block = some b) {i : Nat} {p : InputSocket}
    (hp : b.inputs[i]? = some p) (required : p.spec.optional = false) : ∃ s, p.link = some s := by
  cases hl : p.link with
  | some s => exact ⟨s, rfl⟩
  | none =>
    have reported := h.complete q hq b _ hb ⟨i, p, hp, hl, required, rfl⟩
    rw [Ledger.errors, append_eq_nil_iff, append_eq_nil_iff] at clean
    rw [map_eq_nil_iff.mp clean.1.2] at reported
    cases reported

/-- A legible message is among the errors exactly if its input was reported. -/
theorem Reporting.mem_errors_iff (h : Reporting g S e) (hg : g.Regular) {u : UnconnectedInput}
    (hu : u.Legible) : u.message ∈ e.ledger.errors ↔ u ∈ e.ledger.unconnected := by
  have others : ∀ text ∈ e.ledger.errors, text = u.message →
      text ∈ e.ledger.unconnected.map UnconnectedInput.message := by
    rintro text ht rfl
    have other : ¬Remark u.message := u.not_remark_message
    rw [Ledger.errors, mem_append, mem_append, mem_append] at ht
    rcases ht with ((ht | ht) | ht) | ht
    · split at ht
      · cases ht
      · rw [mem_singleton.mp ht] at other
        exact absurd (.lit rfl rfl : Remark Ledger.missingVertexMessage) other
    · split at ht
      · cases ht
      · rw [mem_singleton.mp ht] at other
        exact absurd (.lit rfl rfl : Remark Ledger.missingFragmentMessage) other
    · exact ht
    · exact absurd (h.remarks _ ht) other
  constructor
  · intro hm
    obtain ⟨v, hv, same⟩ := mem_map.mp (others _ hm rfl)
    obtain ⟨x, b, -, hb, lacks⟩ := h.sound v hv
    rw [← UnconnectedInput.message_injective (lacks.legible (hg.fitted x b hb)) hu same]
    exact hv
  · intro hm
    rw [Ledger.errors, mem_append, mem_append]
    exact .inl (.inr (mem_map_of_mem hm))

end Emission

/-! ## 5. Builds -/

namespace Material

open Emission (Complete Covered Reporting)

variable {m m' : Material} {c : CompiledGraph} {e : Emission} {x y : BlockId} {b : Block}

/-- The roots that the optimizers leave to the stages. -/
def keptRoots (m : Material) : Roots :=
  m.optimizers.foldl (fun r o => o.optimize m.prepare.state.graph r) m.roots

theorem emission_eq_run (m : Material) : m.emission =
    m.unwritten.run (mergeNodes m.keptRoots.vertex m.prepare.fromFragment)
      (mergeNodes m.prepare.fromVertex m.keptRoots.fragment) := rfl

/-- What feeds a block behind the roots of the fragment stage and belongs to both stages is left to
the vertex stage as well. -/
theorem mem_fromFragment (hg : m.graph.Proper) (hf : m.prepare.state.fault = none)
    (hx : x ∈ m.prepare.state.graph.gather m.roots.fragment)
    (up : m.prepare.state.graph.Upstream x y) (hb : m.prepare.state.graph.get? y = some b)
    (dual : b.target = .vertexAndFragment) : y ∈ m.prepare.fromFragment := by
  obtain ⟨-, -, -, covered⟩ := prepare_clear hg hf
  obtain ⟨-, n, hn, path⟩ := mem_gather_iff.mp hx
  have met : x ∈ m.prepare.state.visited :=
    closed_of_reflTransGen (fun x y hx up => (covered.closed x hx y up).1) path
      (covered.roots n hn)
  exact (covered.closed x met y up).2 b hb dual

/-- What is behind a root that the optimizers leave is built. -/
theorem emission_covers (hm : m.WellFormed) (entered : m.graph.Entered) (hfog : m.FogApart)
    (hf : m.prepare.state.fault = none) (he : m.emission = .ok e) :
    ∀ x ∈ m.prepare.state.graph.gather (m.keptRoots.vertex ++ m.keptRoots.fragment),
      ∃ q ∈ e.calls, q.block = x := by
  obtain ⟨extension, -⟩ := extends_prepare hm.graph
  have hg := extension.proper.toRegular
  obtain ⟨S, hscope⟩ := exists_scope hm.graph hf
  obtain ⟨vertexRoots, fragmentRoots⟩ :=
    Optimizer.modest_foldl hm.modest m.prepare.state.graph m.roots
  have complete := run_complete (steady_unwritten hm.graph) rfl rfl (m.emission_eq_run ▸ he)
  have noFog : ∀ {n y b}, n ∈ mergeNodes m.keptRoots.vertex m.prepare.fromFragment →
      TransGen m.prepare.state.graph.Upstream n y → m.prepare.state.graph.get? y = some b →
      b.kind.isFog = false := fun hn path hb => hfog.noFog hm.graph hscope vertexRoots hn path hb
  -- roots are no fogs, neither before nor after the walks
  have root : ∀ {n b}, n ∈ m.roots.vertex ∨ n ∈ m.roots.fragment →
      m.prepare.state.graph.get? n = some b → b.kind.isFog = false := by
    intro n b hn hb
    refine Bool.eq_false_iff.mpr fun hfogged => ?_
    obtain ⟨b₀, hb₀, same⟩ := extension.back hb (isFog_iff.mp hfogged).1
    obtain ⟨vertex, fragment⟩ := hfog.roots n b₀ hb₀ (isFog_of_shape same ▸ hfogged)
    exact hn.elim vertex fragment
  have start : ∀ n ∈ m.keptRoots.vertex ++ m.keptRoots.fragment,
      n ∈ m.prepare.state.graph.ids → Covered m.prepare.state.graph e n := by
    intro n hn hid
    rcases mem_append.mp hn with hn | hn
    · obtain ⟨q, hq, hqn, -⟩ := complete.vertex n (mem_mergeNodes.mpr (.inl hn)) hid
      refine ⟨⟨q, hq, hqn⟩, fun b hb hfogged => ?_⟩
      have old : n ∈ m.roots.vertex := (vertexRoots n hn).resolve_right fun away => away hid
      rw [root (.inl old) hb] at hfogged
      cases hfogged
    · refine ⟨complete.fragment n (mem_mergeNodes.mpr (.inr hn)) hid, fun b hb hfogged => ?_⟩
      have old : n ∈ m.roots.fragment := (fragmentRoots n hn).resolve_right fun away => away hid
      rw [root (.inr old) hb] at hfogged
      cases hfogged
  refine fun x hx => (complete.covers hg (extension.entered entered) start ?_ x hx).1
  intro x y b hx up hb hfogged
  have fogless : ∀ {n}, n ∈ mergeNodes m.keptRoots.vertex m.prepare.fromFragment →
      ¬ReflTransGen m.prepare.state.graph.Upstream n x := by
    intro n hn path
    rw [noFog hn (TransGen.tail' path up) hb] at hfogged
    cases hfogged
  refine ⟨?_, fun inside => ?_⟩
  · obtain ⟨hid, n, hn, path⟩ := mem_gather_iff.mp hx
    rcases mem_append.mp hn with hn | hn
    · exact absurd path (fogless (mem_mergeNodes.mpr (.inl hn)))
    · have here : n ∈ m.prepare.state.graph.ids := by
        rcases ReflTransGen.cases_head path with rfl | ⟨z, first, -⟩
        · exact hid
        · exact first.mem_ids
      have old : n ∈ m.roots.fragment := (fragmentRoots n hn).resolve_right fun away => away here
      exact mem_mergeNodes.mpr (.inr (mem_fromFragment hm.graph hf
        (mem_gather_iff.mpr ⟨hid, n, old, path⟩) up hb (isFog_iff.mp hfogged).2))
  · obtain ⟨-, n, hn, path⟩ := mem_gather_iff.mp inside
    exact fogless hn path

/-- What is reported is lacking behind the roots, and what is built is reported if it lacks
something. -/
theorem emission_reporting (hm : m.WellFormed) (planted : m.Planted)
    (hf : m.prepare.state.fault = none) (he : m.emission = .ok e) :
    Reporting m.prepare.state.graph
      (· ∈ m.prepare.state.graph.gather (m.roots.vertex ++ m.roots.fragment)) e := by
  obtain ⟨extension, names, ledger⟩ := extends_prepare hm.graph
  obtain ⟨attached, first, tracks⟩ := attached_prepare hm.graph planted hf
  have met : ∀ x, x ∈ m.firstWalk.visited ∨ x ∈ m.prepare.state.visited →
      x ∈ m.prepare.state.graph.ids →
      x ∈ m.prepare.state.graph.gather (m.roots.vertex ++ m.roots.fragment) := by
    intro x hx there
    rw [← attached]
    exact hx.elim (fun hx => first x hx there) fun hx => tracks.met x hx there
  obtain ⟨vertex, fragment⟩ := (scope_prepare hm.graph hf).gathered hm.modest
  have unreported : m.unwritten.ledger.unconnected = [] ∧
      m.unwritten.ledger.customErrors = [] := by
    rw [show m.unwritten.ledger = _ from ledger]
    exact ⟨rfl, rfl⟩
  refine run_reporting (steady_unwritten hm.graph) ⟨?_, nofun, ?_⟩
    (fun x hx => met x (vertex x hx) (mem_gather_iff.mp hx).1)
    (fun x hx => met x (fragment x hx) (mem_gather_iff.mp hx).1) (m.emission_eq_run ▸ he)
  · rw [unreported.1]
    exact nofun
  · rw [unreported.2]
    exact nofun

/-- A build builds everything behind the roots, and says of exactly the required inputs there that
nothing is connected to them, if no optimizer drops a root. -/
theorem build_covers_roots (hm : m.Reachable) (hfog : m.FogApart)
    (vertex : m.roots.vertex ⊆ m.keptRoots.vertex)
    (fragment : m.roots.fragment ⊆ m.keptRoots.fragment) (h : m.build = (.ok c, m')) :
    ∃ e, m.emission = .ok e ∧ m'.graph = e.graph ∧
      (∀ x ∈ m'.graph.gather (m.roots.vertex ++ m.roots.fragment), ∃ q ∈ e.calls, q.block = x) ∧
      ∀ u : UnconnectedInput, u.Legible → (u.message ∈ c.errors ↔
        ∃ x ∈ m'.graph.gather (m.roots.vertex ++ m.roots.fragment), ∃ b,
          m'.graph.get? x = some b ∧ b.Lacks u) := by
  obtain ⟨hf, e, he, hc, hgraph⟩ := build_eq_ok h
  have regular := regular_prepare hm.wellFormed.graph
  have steady := steady_emission hm.wellFormed.graph he
  have reporting := emission_reporting hm.wellFormed hm.planted hf he
  obtain ⟨-, -, -, -, -, errors⟩ := finish_eq_ok hc
  have covered : ∀ x ∈ m.prepare.state.graph.gather (m.roots.vertex ++ m.roots.fragment),
      ∃ q ∈ e.calls, q.block = x := by
    intro x hx
    obtain ⟨hid, n, hn, path⟩ := Graph.mem_gather_iff.mp hx
    refine emission_covers hm.wellFormed hm.entered hfog hf he x
      (Graph.mem_gather_iff.mpr ⟨hid, n, ?_, path⟩)
    exact List.mem_append.mpr ((List.mem_append.mp hn).imp (fun hn => vertex hn)
      fun hn => fragment hn)
  refine ⟨e, he, hgraph, ?_, fun u hu => ?_⟩
  · rw [hgraph, Graph.gather_of_outlines steady.outlines]
    exact covered
  · rw [hgraph, Graph.gather_of_outlines steady.outlines, errors,
      reporting.mem_errors_iff regular hu]
    constructor
    · intro reported
      obtain ⟨x, b, hx, hb, lacks⟩ := reporting.sound u reported
      obtain ⟨b', hb', same⟩ := Graph.exists_get?_of_outlines steady.outlines hb
      exact ⟨x, hx, b', hb', lacks.of_outline same⟩
    · rintro ⟨x, hx, b, hb, lacks⟩
      obtain ⟨q, hq, rfl⟩ := covered x hx
      obtain ⟨b₀, hb₀, same⟩ := Graph.exists_get?_of_outlines steady.outlines.symm hb
      exact reporting.complete q hq b₀ u hb₀ (lacks.of_outline same)

/-- The output of the vertex stage, with nothing connected to it, beside a particle. -/
def unmoved : Material := { tint.addBlock "vertex" .vertexOutput with roots := ⟨[⟨3⟩], [⟨2⟩]⟩ }

def unmovedVector : UnconnectedInput := ⟨"vector", "vertex", "VertexOutputBlock"⟩

theorem reachable_unmoved : unmoved.Reachable :=
  .addRoot (.addBlock "vertex" .vertexOutput reachable_tint nofun)
    (show addRoot _ ⟨3⟩ = .ok unmoved from rfl)

theorem fogApart_unmoved : unmoved.FogApart := fogApart_of_noFog (by decide)

theorem unmoved_covers_roots :
    unmoved.Reachable ∧ unmoved.FogApart ∧ unmoved.roots.vertex ⊆ unmoved.keptRoots.vertex ∧
      unmoved.roots.fragment ⊆ unmoved.keptRoots.fragment ∧
      ∃ c m', unmoved.build = (.ok c, m') ∧ unmovedVector.message ∈ c.errors ∧
        ∃ e, unmoved.emission = .ok e ∧
          (∀ x ∈ m'.graph.gather [⟨3⟩, ⟨2⟩], ∃ q ∈ e.calls, q.block = x) ∧
          ∃ x ∈ m'.graph.gather [⟨3⟩, ⟨2⟩], ∃ b, m'.graph.get? x = some b ∧
            b.Lacks unmovedVector := by
  have computed : (unmoved.build.1.toOption.any fun c =>
      c.errors.contains unmovedVector.message) = true := by decide +kernel
  obtain ⟨c, hc, listed⟩ := exists_ok_of_any computed
  have built : unmoved.build = (.ok c, unmoved.build.2) := Prod.ext hc rfl
  have reported := List.contains_iff_mem.mp listed
  have vertex : unmoved.roots.vertex ⊆ unmoved.keptRoots.vertex := List.Subset.refl _
  have fragment : unmoved.roots.fragment ⊆ unmoved.keptRoots.fragment := List.Subset.refl _
  obtain ⟨e, he, -, covered, messages⟩ :=
    build_covers_roots reachable_unmoved fogApart_unmoved vertex fragment built
  exact ⟨reachable_unmoved, fogApart_unmoved, vertex, fragment, c, _, built, reported, e, he,
    covered, (messages unmovedVector ⟨by decide, by decide⟩).mp reported⟩

/-- Leaves the vertex stage without roots. -/
def dropVertex : Optimizer where
  name := "drop vertex"
  optimize _ r := { r with vertex := [] }

def headless : Material := { unmoved with optimizers := [dropVertex] }

/-- A root that an optimizer drops is neither built, nor is it reported what it lacks. -/
theorem headless_root_not_built :
    headless.Reachable ∧ headless.FogApart ∧ ∃ c m' e, headless.build = (.ok c, m') ∧
      headless.emission = .ok e ∧ m'.graph = e.graph ∧
      ⟨3⟩ ∈ m'.graph.gather (headless.roots.vertex ++ headless.roots.fragment) ∧
      (∀ q ∈ e.calls, q.block ≠ ⟨3⟩) ∧
      (∃ b, m'.graph.get? ⟨3⟩ = some b ∧ b.Lacks unmovedVector) ∧
      unmovedVector.message ∉ c.errors := by
  have modest : dropVertex.Modest := fun g r => ⟨nofun, fun x hx => .inl hx⟩
  have apart : headless.FogApart := ⟨fogApart_unmoved.roots, fogApart_unmoved.behind⟩
  have computed : (headless.emission.toOption.any fun e =>
      (finish { headless with pass := headless.pass.next } e).toOption.any fun c =>
        (e.calls.all fun q => q.block != ⟨3⟩) && !c.errors.contains unmovedVector.message &&
          (e.graph.get? ⟨3⟩).any fun b =>
            b.name == "vertex" && b.className == "VertexOutputBlock" &&
              b.inputs[0]?.any fun p =>
                p.link == none && p.spec.optional == false && p.spec.name == "vector") = true := by
    decide +kernel
  obtain ⟨e, he, rest⟩ := exists_ok_of_any computed
  obtain ⟨c, hc, found⟩ := exists_ok_of_any rest
  rw [Bool.and_eq_true, Bool.and_eq_true] at found
  obtain ⟨⟨uncalled, unlisted⟩, here⟩ := found
  obtain ⟨b, hb, parts⟩ := (Option.any_eq_true _ _).mp here
  rw [Bool.and_eq_true, Bool.and_eq_true, beq_iff_eq, beq_iff_eq] at parts
  obtain ⟨⟨name, className⟩, input⟩ := parts
  obtain ⟨p, hp, free⟩ := (Option.any_eq_true _ _).mp input
  simp only [Bool.and_eq_true, beq_iff_eq] at free
  obtain ⟨⟨free, required⟩, socket⟩ := free
  have pass : headless.runPass.1 = .ok c := runPass_eq_ok (by decide +kernel) he hc
  have built : headless.build = (.ok c, headless.runPass.2) := Prod.ext pass rfl
  obtain ⟨-, e', he', -, graph⟩ := build_eq_ok built
  cases he.symm.trans he'
  refine ⟨.addOptimizer dropVertex reachable_unmoved modest, apart, c, _, e, built, he, graph, ?_,
    ?_, ⟨b, graph ▸ hb, 0, p, hp, free, required, ?_⟩, ?_⟩
  · rw [graph]
    exact Graph.mem_gather_of_mem (by decide) (Graph.mem_ids_iff.mpr ⟨b, hb⟩)
  · intro q hq
    exact bne_iff_ne.mp (List.all_eq_true.mp uncalled q hq)
  · rw [socket, name, className]
    rfl
  · intro listed
    rw [List.contains_iff_mem.mpr listed] at unlisted
    cases unlisted

end Material

end ShaderGraph
