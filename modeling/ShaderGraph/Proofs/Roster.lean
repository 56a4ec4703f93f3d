import ShaderGraph.Proofs.Passes

/-!
# Blocks that entered themselves for defines

A pass hands out names for the defines of color conversions, and the blocks that got one enter
themselves for later. So every block on the list of a pass has names that a pass handed out
(`Material.namedAt_of_build`), whatever the graph is that was built; and a later build, also one
that fails, gives names of the same form (`Material.keepsNames_build`).
-/

namespace ShaderGraph

open ShaderGraph.Graph Kind Preparation Bool Roster Emit

/-! ## 1. Kinds -/

/-- The defines of the two conversions have names that a pass hands out. -/
structure FragmentOutput.Named (f : FragmentOutput) : Prop where
  gamma : ∃ n : Nat, f.gammaDefine = "CONVERTTOGAMMA" ++ toString n
  linear : ∃ n : Nat, f.linearDefine = "CONVERTTOLINEAR" ++ toString n

/-- Other kinds than outputs of the fragment stage have no names to be given. -/
def Kind.Named : Kind → Prop
  | .fragmentOutput f => f.Named
  | _ => True

section Emit

variable {κ : Type}

theorem Emit.run_enter (role : Role) (s : Site κ) :
    (Emit.enter role : Emit κ Unit).run.run s =
      (.ok (), { s with ledger := s.ledger.enter role s.block }) := rfl

theorem Emit.run_setKind (kind : κ) (s : Site κ) :
    (Emit.setKind kind : Emit κ Unit).run.run s = (.ok (), { s with kind }) := rfl

end Emit

namespace FragmentOutput

/-- The names are written before anything that can fail, with the next numbers, which are not used
again. -/
theorem after_build (s : Site FragmentOutput) :
    let i := s.ledger.names.number "CONVERTTOGAMMA"
    let j := s.ledger.names.number "CONVERTTOLINEAR"
    ∃ l : Ledger, i < l.names.number "CONVERTTOGAMMA" ∧ j < l.names.number "CONVERTTOLINEAR" ∧
      Emit.after build s =
        Emit.after (write ("CONVERTTOGAMMA" ++ toString i) ("CONVERTTOLINEAR" ++ toString j))
          { s with
            kind := { s.kind with
              gammaDefine := "CONVERTTOGAMMA" ++ toString i
              linearDefine := "CONVERTTOLINEAR" ++ toString j }
            ledger := l } := by
  intro i j
  let first := s.ledger.names.freshDefine "CONVERTTOGAMMA"
  let second := first.2.freshDefine "CONVERTTOLINEAR"
  have apart : first.2.number "CONVERTTOLINEAR" = j := by
    rw [NameTable.number_freshDefine, if_neg (by decide)]
  unfold build
  refine ⟨{ s.ledger.enter .defines s.block with names := second.2 }, ?_, ?_, ?_⟩
  · change i < second.2.number _
    rw [NameTable.number_freshDefine, if_neg (by decide), NameTable.number_freshDefine, if_pos rfl]
    exact Nat.lt_succ_self _
  · change j < second.2.number _
    rw [NameTable.number_freshDefine, if_pos rfl, apart]
    exact Nat.lt_succ_self _
  · rw [← apart]
    rfl

theorem kind_write (gammaDefine linearDefine : String) (s : Site FragmentOutput) :
    (Emit.after (write gammaDefine linearDefine) s).kind = s.kind :=
  ((write_code (m := { stays := (· = s.kind) }) rfl _ _).grows s ⟨rfl, nofun⟩).stays

theorem named_build (s : Site FragmentOutput) : (Emit.after build s).kind.Named := by
  obtain ⟨l, -, -, opened⟩ := after_build s
  rw [opened, kind_write]
  exact ⟨⟨_, rfl⟩, ⟨_, rfl⟩⟩

end FragmentOutput

theorem Kind.named_build (s : Site Kind) : (Emit.after Kind.build s).kind.Named := by
  cases hk : s.kind with
  | vertexOutput | lerp | vectorMerger | teleportIn =>
    rw [kind_build (by rw [hk]; rfl), hk]
    trivial
  | fragmentOutput f =>
    rw [after_build, hk]
    exact FragmentOutput.named_build (s.withKind f)
  | _ =>
    rw [after_build, hk]
    trivial

theorem Kind.build_enters (s : Site Kind) : s.Enters (Emit.after Kind.build s) :=
  (grows_build s).enters

/-! ## 2. Graphs -/

namespace Graph

variable {g g' : Graph} {id x : BlockId} {f : Block → Block}

def NamedAt (g : Graph) (x : BlockId) : Prop := ∀ b, g.get? x = some b → b.kind.Named

/-- Names are not taken away. -/
def KeepsNames (g g' : Graph) : Prop := ∀ x, g.NamedAt x → g'.NamedAt x

theorem KeepsNames.refl (g : Graph) : g.KeepsNames g := fun _ h => h

theorem KeepsNames.trans {g'' : Graph} (h : g.KeepsNames g') (h' : g'.KeepsNames g'') :
    g.KeepsNames g'' := fun x hx => h' x (h x hx)

theorem keepsNames_modify (g : Graph) (id : BlockId) (keeps : ∀ b, (f b).id = b.id)
    (named : ∀ b : Block, b.kind.Named → (f b).kind.Named) : g.KeepsNames (g.modify id f) :=
  fun _ hx => At.modify (P := fun b => b.kind.Named) hx id keeps fun b _ => named b

end Graph

/-! ## 3. Walks -/

theorem Kind.named_start {k : Kind} (l : Ledger) (h : k.Named) : (k.start l).1.Named := by
  cases k with
  | fragmentOutput f => exact h
  | _ => exact trivial

theorem Kind.roster_start (k : Kind) (l : Ledger) : (k.start l).2.roster = l.roster := by
  cases k with
  | input b =>
    simp only [start, InputBlock.start]
    split <;> rfl
  | _ => rfl

theorem Block.lasting_named : Block.Lasting fun b => b.kind.Named where
  start _ l h := named_start l h
  resetInputs _ h := h
  resetOutputs _ h := h
  setLink _ _ _ h := h
  addEndpoint _ _ _ h := h
  leaf _ _ := trivial

namespace Preparation

variable {p p' : Preparation}

/-- What the walks of a pass leave alone: names that were given, and the list of blocks that
entered themselves. -/
structure Spares (p p' : Preparation) : Prop where
  graph : p.graph.KeepsNames p'.graph
  roster : p'.ledger.roster = p.ledger.roster

theorem Spares.trans {p'' : Preparation} (h : Spares p p') (h' : Spares p' p'') : Spares p p'' :=
  ⟨h.graph.trans h'.graph, h'.roster.trans h.roster⟩

theorem stable_roster (stage : Stage) (p : Preparation) :
    Stable stage fun p' => p'.ledger.roster = p.ledger.roster where
  mark _ h := h
  meet {q block} h _ _ := by
    obtain ⟨-, -, -, hledger, -⟩ :=
      attach_eq (({ q with visited := block.id :: q.visited }.start block).fulfil block) block.id
    obtain ⟨-, -, hledger', -⟩ :=
      fulfil_eq ({ q with visited := block.id :: q.visited }.start block) block
    rw [meet, hledger, hledger']
    exact (block.kind.roster_start q.ledger).trans h
  resetInputs _ h := h
  resetOutputs _ h := h
  noteCrossing producer h := by
    unfold noteCrossing
    split <;> exact h

theorem spares_walk (stage : Stage) (roots : List BlockId) (p : Preparation) :
    Spares p (p.walk stage roots) where
  graph _ hx := at_walk Block.lasting_named stage roots hx
  roster := (stable_roster stage p).walk roots rfl

end Preparation

/-! ## 4. What holds across every build -/

namespace Emission

variable {e e' : Emission} {stage : Stage} {id : BlockId}

/-- The relation holds across each part of an emission, whatever the graph is. -/
structure Across (R : Emission → Emission → Prop) : Prop where
  refl : ∀ e, R e e
  trans : ∀ {e e' e''}, R e e' → R e' e'' → R e e''
  report : ∀ (e : Emission) u, R e { e with ledger := e.ledger.reportUnconnected u }
  name : ∀ e block, R e (e.nameBlock block)
  carry : ∀ {source e e' symbol}, Carried source e e' symbol → R e e'
  enforce : ∀ (e : Emission) x i symbol,
    R e { e with graph := e.graph.modify x (enforced i symbol) }
  call : ∀ {stage id teleported e e'}, e.call stage id teleported = .ok e' → R e e'

/-- The relation holds between an emission and where a part of it ends, or where that stops. -/
def Leads {α : Type} (R : Emission → Emission → Prop) (e : Emission) (last : α → Emission) :
    Except Halt α → Prop
  | .ok a => R e (last a)
  | .error halt => ∃ e', R e e' ∧ halt.graph = e'.graph

theorem Leads.of_ok {α : Type} {R : Emission → Emission → Prop} {f : α → Emission}
    {r : Except Halt α} {a : α} (h : Leads R e f r) (ended : r = .ok a) : R e (f a) := by
  rwa [ended] at h

namespace Across

variable {R : Emission → Emission → Prop} (hR : Across R)
include hR

section

variable {α β : Type} {f : α → Emission} {f' : β → Emission} {e₁ : Emission}

theorem leads_of_rel {r : Except Halt α} (path : R e e₁) (h : Leads R e₁ f r) :
    Leads R e f r := by
  cases r with
  | ok a => exact hR.trans path h
  | error halt => exact h.imp fun _ => And.imp_left (hR.trans path)

omit hR in
theorem leads_bind {r : Except Halt α} {k : α → Except Halt β} (first : Leads R e f r)
    (next : ∀ a, R e (f a) → Leads R e f' (k a)) : Leads R e f' (r >>= k) := by
  cases r with
  | ok a => exact next a first
  | error halt => exact first

theorem leads_orHalt {r : Except GraphError α} (h : ∀ a, r = .ok a → R e (f a)) :
    Leads R e f (e.orHalt r) := by
  cases r with
  | ok a => exact h a rfl
  | error cause => exact ⟨e, hR.refl e, rfl⟩

end

theorem route {consumer producer : BlockId} {i : Nat} (h : e.route consumer i producer = .ok e') :
    R e e' := by
  obtain ⟨p, -, h⟩ := bind_eq_ok_iff.mp h
  obtain ⟨c, -, h⟩ := bind_eq_ok_iff.mp h
  split at h
  · cases h
    exact hR.refl e
  · split at h
    · cases h
      exact hR.refl e
    · split at h
      · obtain ⟨⟨symbol, e₁⟩, hcarry, h⟩ := bind_eq_ok_iff.mp h
        cases h
        exact hR.trans (hR.carry (carry_spec hcarry)) (hR.enforce e₁ consumer i symbol)
      · cases h
        exact hR.refl e

section

variable {build : BlockId → Emission → Except Halt Emission} {block : Block}
  (sub : ∀ x e, Leads R e (fun e => e) (build x e))
include sub

theorem feed (items : List (InputSocket × Nat)) (e : Emission) :
    Leads R e (fun e => e) (feed build stage block items e) := by
  induction items generalizing e with
  | nil => exact hR.refl e
  | cons item rest ih =>
    rw [Emission.feed]
    split
    · refine hR.leads_of_rel ?_ (ih _)
      split
      · exact hR.refl e
      · exact hR.report e _
    · split
      · refine leads_bind (sub _ e) fun e₁ h₁ => ?_
        split
        · refine leads_bind (hR.leads_of_rel h₁ (hR.leads_orHalt fun _ => hR.route))
            fun e₂ h₂ => hR.leads_of_rel h₂ (ih e₂)
        · exact hR.leads_of_rel h₁ (ih e₁)
      · exact ih e

theorem teleport (e : Emission) : Leads R e Prod.snd (teleport build stage block e) := by
  unfold Emission.teleport
  split
  · exact hR.refl e
  · refine leads_bind (sub _ e) fun e₁ h₁ => ?_
    refine leads_bind (hR.leads_of_rel h₁ (hR.leads_orHalt (f := Prod.snd) fun a h => ?_))
      fun a h => h
    cases (teleportSlot_spec h).2 with
    | free _ _ same => exact same ▸ hR.refl e₁
    | crossing _ _ _ carried => exact hR.carry carried
    | reading _ _ _ _ _ same => exact same ▸ hR.refl e₁

end

theorem build (steps : Nat) (x : BlockId) (e : Emission) :
    Leads R e (fun e => e) (build stage steps x e) := by
  induction steps generalizing x e with
  | zero => exact hR.refl e
  | succ steps ih =>
    rw [Emission.build]
    split
    · exact hR.refl e
    · split
      · exact hR.refl e
      · refine leads_bind (hR.leads_of_rel (hR.name e _) (hR.feed ih _ _)) fun e₁ h₁ => ?_
        refine leads_bind (hR.leads_of_rel h₁ (hR.teleport ih e₁)) fun (slots, e₂) h₂ => ?_
        dsimp only
        split
        · exact h₂
        · exact hR.leads_of_rel h₂ (hR.leads_orHalt fun _ => hR.call)

theorem buildAll (nodes : List BlockId) (e : Emission) :
    Leads R e (fun e => e) (e.buildAll stage nodes) := by
  induction nodes generalizing e with
  | nil => exact hR.refl e
  | cons x rest ih =>
    rw [Emission.buildAll, List.foldlM_cons]
    exact leads_bind (hR.build _ x e) fun e₁ h₁ => hR.leads_of_rel h₁ (ih e₁)

end Across

/-- Names that were given stay, and whoever enters itself for defines has its names. -/
structure Signs (e e' : Emission) : Prop where
  graph : e.graph.KeepsNames e'.graph
  entered : ∀ x, (Role.defines, x) ∈ e'.ledger.roster.entries →
    (Role.defines, x) ∈ e.ledger.roster.entries ∨ e'.graph.NamedAt x

namespace Signs

theorem of_roster (hg : e.graph.KeepsNames e'.graph)
    (hr : e'.ledger.roster = e.ledger.roster) : Signs e e' := ⟨hg, fun _ hx => .inl (hr ▸ hx)⟩

theorem trans {e'' : Emission} (h : Signs e e') (h' : Signs e' e'') : Signs e e'' where
  graph := h.graph.trans h'.graph
  entered x hx := by
    rcases h'.entered x hx with hx | hx
    · exact (h.entered x hx).imp_right (h'.graph x)
    · exact .inr hx

end Signs

theorem Carried.signs {source : SocketRef} {symbol : String} (h : Carried source e e' symbol) :
    Signs e e' := by
  refine .of_roster (by rw [h.graph]; exact .refl _) ?_
  rcases h.rest with ⟨-, same, -⟩ | ⟨type, added, -⟩
  · rw [same]
  · rw [added]
    rfl

theorem roster_nameOutputs (l : Ledger) (ps : List OutputSocket) :
    (nameOutputs l ps).2.roster = l.roster := by
  induction ps generalizing l with
  | nil => rfl
  | cons p rest ih =>
    by_cases h : p.symbol.isEmpty = true
    · simp only [nameOutputs, h, if_true, ih]
      rfl
    · simp only [nameOutputs, h, if_false, false_eq_true, ih]

theorem signs_nameBlock (e : Emission) (b : Block) : Signs e (e.nameBlock b) := by
  unfold nameBlock
  split
  · exact .of_roster (.refl _) rfl
  · exact .of_roster (keepsNames_modify _ _ (by intro; rfl) fun _ h => h) (roster_nameOutputs _ _)

/-- A call gives the block its names, and enters no other block. -/
theorem signs_call {teleported : List Slot} (h : e.call stage id teleported = .ok e') :
    Signs e e' := by
  obtain ⟨b, slots, l, hb, hslots, hgraph, -, hroster, -⟩ := call_eq_ok h
  have named : e'.graph.NamedAt id := by
    intro c hc
    rw [hgraph, get?_modify, if_pos rfl, hb, Option.map_some] at hc
    cases hc
    exact named_build _
  constructor
  · intro x hx
    by_cases heq : x = id
    · exact heq ▸ named
    · intro c hc
      rw [hgraph, get?_modify, if_neg heq] at hc
      exact hx c hc
  · intro x hx
    rw [hroster] at hx
    rcases (build_enters _).roster _ hx with hx | hx
    · have same : (noteResult b stage l).roster = e.ledger.roster := by
        rw [(inputSlots_spec hslots).ledger]
        unfold noteResult
        split
        · cases stage <;> rfl
        · rfl
      exact .inl (same ▸ hx)
    · obtain rfl : x = id := hx.trans (id_of_get? hb)
      exact .inr named

theorem across_signs : Across Signs where
  refl _ := .of_roster (.refl _) rfl
  trans := .trans
  report _ _ := .of_roster (.refl _) rfl
  name := signs_nameBlock
  carry h := h.signs
  enforce _ _ _ _ := .of_roster (keepsNames_modify _ _ (by intro; rfl) fun _ h => h) rfl
  call := signs_call

theorem signs_run (vertexNodes fragmentNodes : List BlockId) (e : Emission) :
    Leads Signs e (fun e => e) (e.run vertexNodes fragmentNodes) := by
  refine Across.leads_bind (across_signs.buildAll _ e) fun e₁ h₁ => ?_
  have between : Signs e₁ (e₁.shareDeclarations.reopenDual fragmentNodes) :=
    .of_roster (.refl _) rfl
  exact across_signs.leads_of_rel (h₁.trans between) (across_signs.buildAll _ _)

end Emission

/-! ## 5. Builds -/

theorem Roster.mem_blocks_iff {r : Roster} {role : Role} {id : BlockId} :
    id ∈ r.blocks role ↔ (role, id) ∈ r.entries := by
  simp [blocks]

namespace Material

variable {m m' : Material} {c : CompiledGraph} {e : Emission}

/-- The walks of a pass take no names away and enter no block. -/
theorem spares_prepare (m : Material) :
    m.graph.KeepsNames m.prepare.state.graph ∧ m.prepare.state.ledger.roster.entries = [] := by
  have first := spares_walk .vertex m.roots.vertex
    { graph := m.graph, ledger := m.newLedger, autoConfigure := m.options.autoConfigure }
  have both := Preparation.Stable.andThen first
    (first.trans (spares_walk .fragment m.roots.fragment _))
  rw [state_prepare]
  exact ⟨both.graph, by rw [firstWalk, both.roster]; rfl⟩

theorem signs_emission (m : Material) :
    Emission.Leads Emission.Signs m.unwritten (fun e => e) m.emission :=
  Emission.signs_run ..

theorem keepsNames_emission (m : Material) :
    m.graph.KeepsNames (Emission.lastGraph m.emission) := by
  have signs := m.signs_emission
  refine m.spares_prepare.1.trans ?_
  cases h : m.emission with
  | ok e => exact (signs.of_ok h).graph
  | error halt =>
    rw [h] at signs
    obtain ⟨e, signs, same⟩ := signs
    rw [Emission.lastGraph, same]
    exact signs.graph

/-- A build takes no names away, also if it fails. -/
theorem keepsNames_build (m : Material) : m.graph.KeepsNames m.build.2.graph := by
  rcases (graph_build m).2.2 with same | same | ⟨-, same⟩
  · rw [same]
    exact .refl _
  · rw [same]
    exact m.spares_prepare.1
  · rw [same]
    exact m.keepsNames_emission

/-- Whoever entered itself for defines in a pass was given its names. -/
theorem namedAt_of_build (h : m.build = (.ok c, m')) {x : BlockId}
    (hx : x ∈ c.roster.blocks .defines) : m'.graph.NamedAt x := by
  obtain ⟨-, e, he, hc, hgraph⟩ := build_eq_ok h
  rw [roster_finish hc, mem_blocks_iff] at hx
  rw [hgraph]
  refine ((m.signs_emission.of_ok he).entered x hx).resolve_left fun hx => ?_
  change _ ∈ m.prepare.state.ledger.roster.entries at hx
  rw [m.spares_prepare.2] at hx
  cases hx

end Material

end ShaderGraph
