import ShaderGraph.Proofs.Namespaces
import ShaderGraph.Proofs.Varyings

/-!
# The names of textures

A texture is declared under two names: its sampler, which is handed out like every variable of a
pass, and the sampler with a word behind it (`companion`), which nobody asks for. Samplers are
therefore told apart from each other and from all other variables, and so are their companions from
each other. What a companion can meet is a variable of that very name. Such a variable has no
number, so that only a sampler without a number is in danger (`Material.build_texture_names`): next
to a texture `wood`, a texture `woodSampler` takes a name that is declared already
(`Material.grain_declares_twice`).
-/

namespace ShaderGraph

open List

/-! ## 1. Companions -/

/-- The second name under which the texture of a sampler is declared. -/
def companion (sampler : String) : String := sampler ++ "Sampler"

/-- The names under which textures are declared. -/
def textureNames (samplers : List String) : List String :=
  samplers.flatMap fun s => [s, companion s]

section Companions

variable {samplers allotted : List String} {name : String}

theorem mem_textureNames : name ∈ textureNames samplers ↔
    name ∈ samplers ∨ ∃ s ∈ samplers, name = companion s := by
  simp only [textureNames, mem_flatMap, mem_cons, not_mem_nil, or_false]
  constructor
  · rintro ⟨s, hs, rfl | rfl⟩
    · exact .inl hs
    · exact .inr ⟨s, hs, rfl⟩
  · rintro (h | ⟨s, hs, rfl⟩)
    · exact ⟨name, h, .inl rfl⟩
    · exact ⟨s, hs, .inr rfl⟩

theorem companion_injective : Function.Injective companion := fun _ _ =>
  (String.append_left_inj "Sampler").mp

theorem textureNames_perm (samplers : List String) :
    textureNames samplers ~ samplers ++ samplers.map companion := by
  induction samplers with
  | nil => exact .refl _
  | cons s rest ih => exact ((ih.cons _).trans perm_middle.symm).cons s

theorem nodup_textureNames_iff (distinct : samplers.Nodup) :
    (textureNames samplers).Nodup ↔ ∀ s ∈ samplers, companion s ∉ samplers := by
  rw [(textureNames_perm samplers).nodup_iff, nodup_append]
  constructor
  · rintro ⟨-, -, apart⟩ s hs met
    exact apart _ met _ (mem_map_of_mem hs) rfl
  · refine fun apart => ⟨distinct, distinct.map companion_injective, ?_⟩
    rintro _ met _ hc rfl
    obtain ⟨s, hs, rfl⟩ := mem_map.mp hc
    exact apart s hs met

/-- The names of textures meet neither each other nor another variable exactly if no companion is a
variable. -/
theorem textureNames_apart_iff (distinct : samplers.Nodup) (part : samplers ⊆ allotted) :
    ((textureNames samplers).Nodup ∧
      ∀ name ∈ allotted, name ∉ samplers → name ∉ textureNames samplers) ↔
      ∀ s ∈ samplers, companion s ∉ allotted := by
  rw [nodup_textureNames_iff distinct]
  constructor
  · rintro ⟨apart, others⟩ s hs met
    exact others _ met (apart s hs) (mem_textureNames.mpr (.inr ⟨s, hs, rfl⟩))
  · intro free
    refine ⟨fun s hs met => free s hs (part met), fun name handed other met => ?_⟩
    rcases mem_textureNames.mp met with met | ⟨s, hs, rfl⟩
    · exact other met
    · exact free s hs handed

end Companions

namespace NameTable

variable {requests : List NameRequest} {t t' t'' : NameTable} {a b c : List String}
  {name sampler : String}

theorem asked_of_mem_serve (h : name ∈ (serve requests t).1) :
    ∃ r ∈ requests, r.asksFor (cleanName name) = true := by
  induction requests generalizing t with
  | nil => cases h
  | cons r rest ih =>
    rcases mem_append.mp h with h | h
    · obtain ⟨stem, asks, isStem, rfl⟩ := (mem_answer_iff t r).mp (Option.mem_toList.mp h)
      exact ⟨r, mem_cons_self, by rwa [cleanName_variableAt isStem]⟩
    · obtain ⟨r', hr', asks⟩ := ih h
      exact ⟨r', mem_cons_of_mem _ hr', asks⟩

/-- A variable that does not end in a digit has no number. -/
theorem isStem_of_mem_serve (h : name ∈ (serve requests t).1)
    (ends : name.toList.getLast?.all (!·.isDigit) = true) : IsStem name := by
  obtain ⟨stem, n, isStem, rfl, -⟩ := turn_of_mem_serve h
  rw [variableAt, String.toList_append, getLast?_append] at ends
  cases number : (numeral stem n).toList.getLast? with
  | none =>
    rw [getLast?_eq_none_iff, String.toList_eq_nil_iff] at number
    rw [variableAt, number, String.append_empty]
    exact isStem
  | some digit =>
    have digits := isDigit_of_mem_numeral (mem_of_getLast? number)
    simp [number, digits] at ends

/-- A sampler whose companion is handed out has no number, and the companion was asked for. -/
theorem companion_of_mem_serve (hs : sampler ∈ (serve requests t).1)
    (hc : companion sampler ∈ (serve requests t).1) :
    IsStem sampler ∧ ∃ r ∈ requests, r.asksFor (companion sampler) = true := by
  have isStem : IsStem (companion sampler) :=
    isStem_of_mem_serve hc (by simp [companion, getLast?_append])
  refine ⟨⟨?_, fun c hc => isStem.2 c ?_⟩, ?_⟩
  · obtain ⟨stem, n, ⟨nonempty, -⟩, rfl, -⟩ := turn_of_mem_serve hs
    exact fun empty => nonempty (String.append_eq_empty_iff.mp empty).1
  · rw [companion, String.toList_append]
    exact mem_append_left _ hc
  · have bare : cleanName (companion sampler ++ "") = companion sampler :=
      cleanName_of_isStem isStem (by simp)
    have asked := asked_of_mem_serve hc
    rwa [← String.append_empty (s := companion sampler), bare] at asked

/-- Where nothing is excluded, the turns that are used up are those of the variables. -/
theorem mem_serve_iff (hands : ∀ name, .exclude name ∉ requests) : name ∈ (serve requests t).1 ↔
    ∃ stem n, IsStem stem ∧ name = variableAt stem n ∧ t.turn stem ≤ n ∧
      n < (serve requests t).2.turn stem := by
  refine ⟨turn_of_mem_serve, ?_⟩
  rintro ⟨stem, n, isStem, rfl, low, high⟩
  exact mem_serve_of_turn isStem low high fun _ => hands stem

/-- From one table to the next requests are served of which none excludes a name, and the samplers
that were added in the meantime are among the answers, each of them once. -/
def Supplies (t t' : NameTable) (a b : List String) : Prop :=
  ∃ requests more, (∀ name, .exclude name ∉ requests) ∧ (serve requests t).2 = t' ∧
    b ~ a ++ more ∧ more <+~ (serve requests t).1

namespace Supplies

theorem of_names (h : ∃ requests, (∀ name, .exclude name ∉ requests) ∧ (serve requests t).2 = t') :
    Supplies t t' a a := by
  obtain ⟨requests, hands, served⟩ := h
  exact ⟨requests, [], hands, served, by rw [append_nil], nil_subperm⟩

theorem refl (t : NameTable) (a : List String) : Supplies t t a a :=
  .of_names ⟨[], fun _ => not_mem_nil, rfl⟩

theorem trans (h : Supplies t t' a b) (h' : Supplies t' t'' b c) : Supplies t t'' a c := by
  obtain ⟨requests, more, hands, rfl, added, part⟩ := h
  obtain ⟨requests', more', hands', rfl, added', part'⟩ := h'
  refine ⟨requests ++ requests', more ++ more',
    fun name h => (mem_append.mp h).elim (hands name) (hands' name), by rw [serve_append], ?_, ?_⟩
  · rw [← append_assoc]
    exact added'.trans (added.append_right more')
  · rw [serve_append]
    exact part.append part'

theorem append_left (h : Supplies t t' a b) (c : List String) :
    Supplies t t' (c ++ a) (c ++ b) := by
  obtain ⟨requests, more, hands, served, added, part⟩ := h
  exact ⟨requests, more, hands, served, append_assoc .. ▸ added.append_left c, part⟩

theorem congr {a' b' : List String} (h : Supplies t t' a b) (ha : a ~ a') (hb : b ~ b') :
    Supplies t t' a' b' := by
  obtain ⟨requests, more, hands, served, added, part⟩ := h
  exact ⟨requests, more, hands, served, hb.symm.trans (added.trans (ha.append_right more)), part⟩

end Supplies

end NameTable

/-! ## 2. Builds of blocks -/

open NameTable

theorem TextureBlock.supplies_build (s : Site TextureBlock) :
    Supplies s.ledger.names (Emit.after build s).ledger.names s.draft.samplers
      (Emit.after build s).draft.samplers := by
  let sampler := (s.ledger.names.freshVariable s.blockName).1
  let begun : Site TextureBlock := { s with
    ledger := (s.ledger.freshVariable s.blockName).2
    kind := { s.kind with samplerName := sampler }
    draft := s.draft.addSampler sampler }
  have rest : Site.Grows {} begun (Emit.after build s) :=
    ((write_code (m := {}) rfl (s.ledger.names.unbroken_freshVariable s.blockName)).grows begun
      ⟨trivial, nofun⟩).grows
  obtain ⟨later, hands, served⟩ := rest.ledger.names
  rw [rest.samplers rfl, ← served]
  have hands : ∀ name, .exclude name ∉ .allot s.blockName :: later := by simpa using hands
  refine ⟨.allot s.blockName :: later, ?_⟩
  change ∃ more, _ ∧ _ ∧ declare id sampler s.draft.samplers ~ _ ∧ _
  unfold declare
  split
  · exact ⟨[], hands, rfl, by rw [append_nil], nil_subperm⟩
  · exact ⟨[sampler], hands, rfl, .refl _, singleton_subperm_iff.mpr mem_cons_self⟩

/-- The samplers that a block declares are variables that its build asks for. -/
theorem Kind.supplies_build (s : Site Kind) :
    Supplies s.ledger.names (Emit.after Kind.build s).ledger.names s.draft.samplers
      (Emit.after Kind.build s).draft.samplers := by
  have grows := Kind.grows_build s
  cases hk : s.kind with
  | texture b =>
    have opened : Emit.after Kind.build s = (Emit.after TextureBlock.build (s.withKind b)).withKind
        (.texture (Emit.after TextureBlock.build (s.withKind b)).kind) := by
      rw [Kind.after_build, hk]
      rfl
    rw [opened]
    exact TextureBlock.supplies_build (s.withKind b)
  | _ =>
    rw [hk] at grows
    rw [grows.samplers rfl]
    exact .of_names grows.ledger.names

/-! ## 3. Emissions -/

namespace Emission

variable {e e' : Emission} {g : Graph} {l : Language} {T : BlockId → Prop} {stage : Stage}
  {id : BlockId} {teleported : List Slot}

def samplers (e : Emission) : List String := e.vertex.samplers ++ e.fragment.samplers

theorem supplies_call (hs : Ongoing g l e) (h : e.call stage id teleported = .ok e') :
    Supplies e.ledger.names e'.ledger.names (e.draft stage).samplers (e'.draft stage).samplers := by
  obtain ⟨b, s, t, placed⟩ := placed_call hs.regular h
  obtain ⟨code, draft⟩ := e.draftFor_eq b stage
  have build := Kind.supplies_build s
  rw [← placed.build, placed.draft, draft, ← placed.draft_eq] at build
  exact ((Supplies.of_names placed.grows.names).trans build).trans (.of_names placed.grows_eq.names)

theorem Step.supplies (hs : Ongoing g l e) (h : Step l stage T e e') :
    Supplies e.ledger.names e'.ledger.names e.samplers e'.samplers := by
  rcases h.quiet_or_calling hs with quiet | ⟨_, _, _, _, _, calling⟩
  · have same : e'.samplers = e.samplers := by
      unfold samplers
      rw [quiet.fragment]
      rcases quiet.vertex with same | ⟨-, line, pushed⟩
      · rw [same]
      · rw [pushed]
        rfl
    rw [same]
    rcases quiet.ledger with grows | ⟨_, _, u, -, -, -, reported⟩ | ⟨-, v, added⟩
    · exact .of_names grows.names
    · rw [reported]
      exact .refl _ _
    · rw [added]
      exact .refl _ _
  · have build := supplies_call hs calling.call
    cases stage with
    | vertex =>
      unfold samplers
      rw [calling.fragment rfl]
      exact (build.append_left _).congr perm_append_comm perm_append_comm
    | fragment =>
      have vertex : e'.vertex.samplers = e.vertex.samplers := by
        rcases calling.vertex rfl with same | ⟨decl, changed⟩
        · rw [same]
        · rw [changed]
          rfl
      unfold samplers
      rw [vertex]
      exact build.append_left _

theorem run_supplies (hs : Ongoing g l e) {vertexNodes fragmentNodes : List BlockId}
    (h : e.run vertexNodes fragmentNodes = .ok e') :
    Supplies e.ledger.names e'.ledger.names e.samplers e'.samplers :=
  run_lasts (P := fun e' => Supplies e.ledger.names e'.ledger.names e.samplers e'.samplers)
    (fun hs hstep before => before.trans (hstep.supplies hs)) (fun _ _ before => before) hs h
    (.refl _ _)

end Emission

/-! ## 4. Builds of materials -/

theorem Resources.samplers_merge (vertex fragment : CompiledStage) :
    (merge vertex fragment).samplers =
      (vertex.samplers ++ fragment.samplers).foldl (fun ds d => declare id d ds) [] := by
  have attributes := foldl_of_keeps (p := samplers) (f := addAttribute) fun _ _ => rfl
  have uniforms := foldl_of_keeps (p := samplers) (f := addUniform) fun _ _ => rfl
  unfold merge
  rw [attributes]
  exact (foldl_hom samplers fun _ _ => rfl).symm.trans
    (congrArg (foldl (fun ds d => declare id d ds) · _) (uniforms _ _))

namespace Material

variable {m m' : Material} {c : CompiledGraph} {e : Emission}

theorem samplers_finish (h : m.finish e = .ok c) :
    c.vertex.samplers ++ c.fragment.samplers = e.samplers := by
  have stage : ∀ {d : StageDraft} {s : CompiledStage}, d.finish = .ok s →
      s.samplers = d.samplers := by
    intro d s h
    unfold StageDraft.finish at h
    cases body : d.code.segments with
    | error _ => rw [body] at h; cases h
    | ok _ => rw [body] at h; cases h; rfl
  obtain ⟨vertex, hv, h⟩ := bind_eq_ok_iff.mp h
  obtain ⟨fragment, hf, h⟩ := bind_eq_ok_iff.mp h
  rw [← Except.ok.inj h, stage hv, stage hf, Emission.samplers]

/-- The requests of an emission. Names are excluded before it only. -/
theorem emission_supplied (hm : m.Reachable) (h : m.emission = .ok e) :
    let before := m.prepare.state.ledger.names
    (∃ excluded : List String, before = excluded.foldl NameTable.exclude {}) ∧
      ∃ requests, (∀ name, .exclude name ∉ requests) ∧ e.ledger.names = (serve requests before).2 ∧
        e.samplers <+~ (serve requests before).1 := by
  have hg := hm.wellFormed.graph
  obtain ⟨-, excluded, ledger⟩ := extends_prepare hg
  obtain ⟨requests, more, hands, served, added, part⟩ :=
    Emission.run_supplies (steady_unwritten hg) h
  exact ⟨⟨excluded, by rw [ledger]; rfl⟩, requests, hands, served.symm, added.subperm.trans part⟩

/-- The variables of a pass are those whose turns its emission uses up, all distinct. The samplers
of a build are among them, and no two of them have one companion. The names of textures are
distinct, and distinct from all other variables of the pass, exactly if no companion is a variable
of the pass. A companion that is one belongs to a sampler without a number, and has been asked for.
-/
theorem build_texture_names (hm : m.Reachable) (h : m.build = (.ok c, m')) :
    let before := m.prepare.state.ledger.names
    (∃ excluded : List String, before = excluded.foldl NameTable.exclude {}) ∧
    ∃ e requests, m.emission = .ok e ∧ (∀ name, .exclude name ∉ requests) ∧
      e.ledger.names = (serve requests before).2 ∧
      let allotted := (serve requests before).1
      let samplers := (Resources.merge c.vertex c.fragment).samplers
      (∀ name, name ∈ allotted ↔ ∃ stem n, IsStem stem ∧ name = variableAt stem n ∧
        before.turn stem ≤ n ∧ n < e.ledger.names.turn stem) ∧
        samplers = c.vertex.samplers ++ c.fragment.samplers ∧ allotted.Nodup ∧
        samplers ⊆ allotted ∧ samplers.Nodup ∧ (samplers.map companion).Nodup ∧
        (((textureNames samplers).Nodup ∧
          ∀ name ∈ allotted, name ∉ samplers → name ∉ textureNames samplers) ↔
          ∀ s ∈ samplers, companion s ∉ allotted) ∧
        ∀ s ∈ samplers, companion s ∈ allotted →
          IsStem s ∧ ∃ r ∈ requests, r.asksFor (companion s) = true := by
  obtain ⟨-, e, he, hc, -⟩ := build_eq_ok h
  obtain ⟨excluded, requests, hands, served, part⟩ := emission_supplied hm he
  have handed := nodup_serve requests m.prepare.state.ledger.names
  have distinct : e.samplers.Nodup := by
    obtain ⟨some, perm, sub⟩ := part
    exact perm.nodup_iff.mp (handed.sublist sub)
  have merged : (Resources.merge c.vertex c.fragment).samplers = e.samplers := by
    rw [Resources.samplers_merge, samplers_finish hc]
    exact foldl_declare_of_distinct (by simpa using distinct)
  refine ⟨excluded, e, requests, he, hands, served, ?_⟩
  rw [merged, served]
  exact ⟨fun name => mem_serve_iff hands, (samplers_finish hc).symm, handed, part.subset, distinct,
    distinct.map companion_injective, textureNames_apart_iff distinct part.subset,
    fun s hs hcomp => companion_of_mem_serve (part.subset hs) hcomp⟩

/-- A particle and what two textures need, not connected yet. The name of one texture is the
companion of the name of the other. -/
def unsampled : Material :=
  (((loose.addBlock "uv" (.input (.ofAttribute "uv" .vector2))).addBlock "wood"
    (.texture {})).addBlock "woodSampler" (.texture {}))

/-- A particle with its color from one texture and its opacity from the other. -/
def grain : Material :=
  let fed := (unsampled.graph.link ⟨⟨3⟩, 0⟩ ⟨⟨4⟩, 0⟩).link ⟨⟨3⟩, 0⟩ ⟨⟨5⟩, 0⟩
  { unsampled with graph := (fed.link ⟨⟨4⟩, 1⟩ ⟨⟨2⟩, 1⟩).link ⟨⟨5⟩, 5⟩ ⟨⟨2⟩, 2⟩ }

theorem reachable_grain : grain.Reachable := by
  have blocks : unsampled.Reachable :=
    reachable_loose.addBlock "uv" (.input (.ofAttribute "uv" .vector2)) nofun
      |>.addBlock "wood" (.texture {}) nofun |>.addBlock "woodSampler" (.texture {}) nofun
  exact blocks.connectAll [(⟨⟨3⟩, 0⟩, ⟨⟨4⟩, 0⟩), (⟨⟨3⟩, 0⟩, ⟨⟨5⟩, 0⟩), (⟨⟨4⟩, 1⟩, ⟨⟨2⟩, 1⟩),
    (⟨⟨5⟩, 5⟩, ⟨⟨2⟩, 2⟩)] grain.graph (by cbv)

theorem build_grain : ∃ c m', grain.build = (.ok c, m') ∧ c.errors = [] ∧
    (Resources.merge c.vertex c.fragment).samplers = ["wood", "woodSampler"] := by
  have rooted : grain.build = grain.runPass := (if_neg (by decide)).trans (if_neg (by decide))
  obtain ⟨c, m', e, h, clean, -, hc, -, found⟩ := exists_build_within 12 rooted
    (p := fun e => e.samplers == ["wood", "woodSampler"]) (by decide +kernel) (by decide +kernel)
  refine ⟨c, m', h, clean, ?_⟩
  rw [Resources.samplers_merge, samplers_finish hc, beq_iff_eq.mp found]
  rfl

/-- A texture is declared under the companion of another one. -/
theorem grain_declares_twice : grain.Reachable ∧ ∃ c m', grain.build = (.ok c, m') ∧
    c.errors = [] ∧ ¬(textureNames (Resources.merge c.vertex c.fragment).samplers).Nodup := by
  obtain ⟨c, m', h, clean, samplers⟩ := build_grain
  refine ⟨reachable_grain, c, m', h, clean, ?_⟩
  rw [samplers]
  decide +kernel

theorem grain_texture_names : ∃ c m' e requests, grain.build = (.ok c, m') ∧
    grain.emission = .ok e ∧
      e.ledger.names = (serve requests grain.prepare.state.ledger.names).2 ∧
      companion "wood" ∈ (serve requests grain.prepare.state.ledger.names).1 ∧
      ∃ r ∈ requests, r.asksFor (companion "wood") = true := by
  obtain ⟨c, m', h, -, samplers⟩ := build_grain
  obtain ⟨-, e, requests, he, -, names, -, -, -, part, -, -, -, met⟩ :=
    build_texture_names reachable_grain h
  rw [samplers] at part met
  have handed := part (show companion "wood" ∈ _ by decide +kernel)
  exact ⟨c, m', e, requests, h, he, names, handed, (met "wood" mem_cons_self handed).2⟩

end Material

end ShaderGraph
