import ShaderGraph.Command
import ShaderGraph.Proofs.Loading
import ShaderGraph.Proofs.Specializing

/-!
# What the command line compiles

A program for a mesh is that of the defines which the mesh and the blocks of the material set. The
command line asks whether a new target is ready and takes the defines that it then has. Readiness
that is held up by a block is told before the defines are set, so the program is that of the plain
mesh only if no block holds it up (`Command.compile_for_plain_mesh`). Otherwise every define is off:
a document whose texture is not loaded yet compiles to a program that does not read the texture
coordinates of the mesh (`Command.planks_compiled_without_defines`). The program that is chosen
depends neither on what the backend makes of it nor on the check of its text, which only decides
whether it is returned.
-/

namespace ShaderGraph

variable {ids : IdMap} {m : Material}

/-! ## 1. The defines of a target after a check -/

theorem DefineSet.Agrees.of_values {d d' : DefineSet} (h : d.values = d'.values) :
    d.Agrees d' :=
  .of_reads fun name => by rw [DefineSet.get?, DefineSet.get?, h]

namespace CompiledGraph

variable {c : CompiledGraph} {g : Graph} {d d' : DefineSet}

/-- The program of a define set, with everything spliced in. -/
def programOf (c : CompiledGraph) (g : Graph) (d : DefineSet) : ProgramSource :=
  c.program g d (c.spliceAll g d)

theorem programOf_congr (h : d.values = d'.values) : c.programOf g d = c.programOf g d' := by
  have agrees : d.Agrees d' := .of_values h
  rw [programOf, c.spliceAll_congr g (.of_agrees agrees)]
  exact c.program_congr g agrees (DefineSet.signature_congr h) (.refl _)

/-- No block of the pass holds up a check for readiness. -/
def Unblocked (c : CompiledGraph) (g : Graph) : Prop :=
  ∀ block ∈ c.participants g .blocking, block.kind.isReady = true

instance (c : CompiledGraph) (g : Graph) : Decidable (c.Unblocked g) :=
  inferInstanceAs (Decidable (∀ block ∈ c.participants g .blocking, block.kind.isReady = true))

end CompiledGraph

namespace Material

variable {σ : Type} {m : Material} {b : Backend σ} {c : CompiledGraph} {t : DrawTarget} {s : σ}
  {mesh : Mesh} {scene : Scene}

theorem values_consult (m : Material) (b : Backend σ) (c : CompiledGraph) (t : DrawTarget) (s : σ) :
    (m.consult b c t s).target.defines.values = t.defines.values := by
  unfold consult
  split
  · have refreshed := t.refreshed_refreshAll c m.graph
    have akin : (t.refreshAll c m.graph).Akin (m.specialize b c t s).target := by
      refine .trans ?_ (DrawTarget.akin_adopt _ _ _ _ _)
      exact ⟨rfl, rfl, rfl, rfl, rfl⟩
    rw [akin.values, refreshed.defines]
    rfl
  · exact (akin_awaitPending b t s).values

/-- A new target has the defines for its mesh after a check that nothing holds up, and none after
another one. -/
theorem values_ready (hc : m.compiled = some c) (ok : c.isSuccessful = true) :
    (m.ready b {} mesh scene s).target.defines.values =
      if c.Unblocked m.graph then (c.prepareDefines m.graph mesh scene {}).values else [] := by
  have moved : (({} : DrawTarget).moveTo c.pass).defines = {} := by
    unfold DrawTarget.moveTo
    split <;> rfl
  split
  · rename_i unblocked
    rw [ready_of_serves ⟨hc, ok, unblocked⟩]
    rw [values_consult, prepared, moved]
  · rename_i blocked
    have held : ((c.participants m.graph .blocking).all fun block =>
        block.kind.isReady) = false := by
      simpa [CompiledGraph.Unblocked] using blocked
    unfold ready
    simp only [hc, ok, held, Bool.not_true, Bool.not_false, Bool.false_eq_true, if_false, if_true]
    rw [moved]

theorem exists_build_with {p : CompiledGraph → Material → Bool}
    (h : (m.build.1.toOption.any fun c => p c m.build.2) = true) :
    ∃ c m', m.build = (.ok c, m') ∧ p c m' = true := by
  obtain ⟨c, built, ok⟩ := exists_ok_of_any h
  exact ⟨c, m.build.2, Prod.ext built rfl, ok⟩

end Material

/-! ## 2. The program of a plain mesh -/

namespace Command

variable {σ : Type} {m m' : Material} {c : CompiledGraph}

def plainDefines (c : CompiledGraph) (g : Graph) : DefineSet := c.prepareDefines g plainMesh {} {}

/-- The program that is chosen for a plain mesh. -/
def chosen (c : CompiledGraph) (g : Graph) : ProgramSource :=
  c.programOf g (if c.Unblocked g then plainDefines c g else {})

/-- What is compiled is the program of the defines that a new target has after it was asked for,
if the text passes the check. -/
theorem compile_eq (b : Backend σ) (s : σ) (check : ProgramSource → Except String Unit)
    (h : m.build = (.ok c, m')) (clean : c.errors = []) :
    compile b s check m = (do
      (check (chosen c m'.graph)).mapError .invalid
      return chosen c m'.graph) := by
  have ok : c.isSuccessful = true := List.isEmpty_iff.mpr clean
  have checked : c.check = .ok () := if_pos ok
  have hc : m'.compiled = some c := (Material.compiled_of_build h).1
  let r := m'.ready b {} plainMesh {} s
  obtain ⟨compiled, graph⟩ : r.material.compiled = some c ∧ r.material.graph = m'.graph := by
    obtain ⟨cache, same⟩ : ∃ cache, r.material = { m' with cache } :=
      m'.material_ready _ _ _ _ _
    rw [same]
    exact ⟨hc, rfl⟩
  have made : r.material.programSource r.target.defines =
      .ok (c.programOf m'.graph r.target.defines) := by
    rw [Material.programSource]
    simp only [compiled, checked, graph, bind, Except.bind]
    rfl
  have values : r.target.defines.values =
      if c.Unblocked m'.graph then (plainDefines c m'.graph).values else [] :=
    Material.values_ready hc ok
  have same : c.programOf m'.graph r.target.defines = chosen c m'.graph := by
    refine CompiledGraph.programOf_congr (values.trans ?_)
    split <;> rfl
  unfold compile
  simp only [h, checked, bind, Except.bind, Except.mapError]
  rw [made, same]

/-- A material that is built without problems compiles to the program of the plain mesh if no block
is waited for, and to the program without defines otherwise; whatever the backend makes of it, it
is returned if its text passes the check, and the message of the check is the error if not. -/
theorem compile_for_plain_mesh (b : Backend σ) (s : σ) (check : ProgramSource → Except String Unit)
    (h : m.build = (.ok c, m')) (clean : c.errors = []) :
    ∃ source, (check source = .ok () → compile b s check m = .ok source) ∧
      (∀ message, check source = .error message →
        compile b s check m = .error (.invalid message)) ∧
      (c.Unblocked m'.graph → source = c.programOf m'.graph (plainDefines c m'.graph) ∧
        source.defines = (plainDefines c m'.graph).signature) ∧
      (¬c.Unblocked m'.graph → source = c.programOf m'.graph {} ∧ source.defines = "") := by
  have eq := compile_eq b s check h clean
  refine ⟨chosen c m'.graph, fun passed => ?_, fun message refused => ?_, fun unblocked => ?_,
    fun blocked => ?_⟩
  · rw [eq, passed]
    rfl
  · rw [eq, refused]
    rfl
  · rw [chosen, if_pos unblocked]
    exact ⟨rfl, rfl⟩
  · rw [chosen, if_neg blocked]
    exact ⟨rfl, rfl⟩

theorem tint_compiled_for_plain_mesh :
    ∃ c m', Material.tint.build = (.ok c, m') ∧ c.errors = [] ∧ c.Unblocked m'.graph ∧
      compile (.immediate .accept) {} (fun _ => .error "no entry point") .tint =
        .error (.invalid "no entry point") ∧
      ∃ source, compile (.immediate .accept) {} (fun _ => .ok ()) .tint = .ok source ∧
        source = c.programOf m'.graph (plainDefines c m'.graph) ∧
        source.defines = (plainDefines c m'.graph).signature := by
  obtain ⟨c, m', h, ok⟩ := Material.exists_build_with (m := .tint)
    (p := fun c m' => c.errors.isEmpty && decide (c.Unblocked m'.graph)) (by decide +kernel)
  rw [Bool.and_eq_true, List.isEmpty_iff, decide_eq_true_eq] at ok
  obtain ⟨source, compiled, -, plain, -⟩ :=
    compile_for_plain_mesh (.immediate .accept) {} (fun _ => .ok ()) h ok.1
  obtain ⟨_, -, refused, -⟩ :=
    compile_for_plain_mesh (.immediate .accept) {} (fun _ => .error "no entry point") h ok.1
  exact ⟨c, m', h, ok.1, ok.2, refused _ rfl, source, compiled rfl, plain ok.2⟩

end Command

/-! ## 3. A texture that is not loaded yet -/

def BlockEntry.attribute (id : Nat) (name type : String) : BlockEntry where
  id
  tag := "InputBlock"
  name
  fields := [("attributeName", .string name), ("mode", .string "attribute"),
    ("pointType", .string type)]

namespace Document

def planksTexture : BlockEntry :=
  { id := 3, tag := "TextureBlock", name := "wood", links := [⟨"uv", 2, "output"⟩]
    fields := [("textureUrl", .string "wood.png")] }

def planksVertex : BlockEntry :=
  { id := 4, tag := "VertexOutputBlock", name := "place", links := [⟨"vector", 1, "output"⟩] }

def planksFragment : BlockEntry :=
  { id := 5, tag := "FragmentOutputBlock", name := "color", links := [⟨"rgba", 3, "rgba"⟩] }

/-- A textured mesh. -/
def planks : Document where
  name := "planks"
  blocks := [.attribute 1 "position" "Vector3", .attribute 2 "uv" "Vector2", planksTexture,
    planksVertex, planksFragment]
  outputs := [4, 5]

theorem restoreOrder_planks :
    planks.restoreOrder false = [planksVertex, planksTexture, planksFragment] := by cbv

end Document

namespace Graph

def boards : Graph :=
  let texture : TextureBlock := { url := some "wood.png", texture := some { url := "wood.png" } }
  (((((({} : Graph).insert "position" (.input (.ofAttribute "position" .vector3))).insert "uv"
    (.input (.ofAttribute "uv" .vector2))).insert "wood" (.texture texture)).insert "place"
      .vertexOutput).insert "color" (.fragmentOutput {}))

def boardsPlaced : Graph := boards.link ⟨⟨1⟩, 0⟩ ⟨⟨4⟩, 0⟩

def boardsSampled : Graph := boardsPlaced.link ⟨⟨2⟩, 0⟩ ⟨⟨3⟩, 0⟩

def planks : Graph := boardsSampled.link ⟨⟨3⟩, 0⟩ ⟨⟨5⟩, 0⟩

theorem connect_boards : boards.connectNamed ⟨1⟩ "output" ⟨4⟩ "vector" = .ok boardsPlaced := by
  cbv

theorem connect_boardsPlaced :
    boardsPlaced.connectNamed ⟨2⟩ "output" ⟨3⟩ "uv" = .ok boardsSampled := by cbv

theorem connect_boardsSampled :
    boardsSampled.connectNamed ⟨3⟩ "rgba" ⟨5⟩ "rgba" = .ok planks := by cbv

end Graph

def Material.planks : Material where
  name := "planks"
  graph := .planks
  roots := ⟨[⟨4⟩], [⟨5⟩]⟩

theorem Material.ofDocument_eq_ok {d : Document} {r : Registry} {nextId : Nat}
    (h : Load.Gives (d.loader r false) { name := d.name, graph := { nextId } } ids m) :
    (ofDocument d r nextId).1 = .ok m := by
  have run : ({ name := d.name, graph := { nextId } } : Material).load d r false = (.ok ids, m) := h
  unfold ofDocument
  rw [run]
  rfl

theorem Load.gives_single_link {consumer : BlockEntry} {l : LinkEntry} {p id : BlockId}
    {graph : Graph} (hp : ids.lookup l.target = some p) (hid : ids.lookup consumer.id = some id)
    (h : m.graph.connectNamed p l.output id l.input = .ok graph) :
    Gives ([l].forM (restoreLink ids consumer)) m ⟨⟩ { m with graph } := by
  refine gives_forM_cons_iff.mpr ⟨{ m with graph }, ?_, rfl⟩
  unfold restoreLink
  rw [hp, hid]
  exact gives_onGraph_iff.mpr ⟨graph, h, rfl⟩

namespace Material

def planksIds : IdMap := [(1, ⟨1⟩), (2, ⟨2⟩), (3, ⟨3⟩), (4, ⟨4⟩), (5, ⟨5⟩)]

theorem gives_planksLinks : Load.Gives ((Document.planks.restoreOrder false).forM fun consumer =>
    consumer.links.forM (Load.restoreLink planksIds consumer))
    { name := "planks", graph := .boards } ⟨⟩ { name := "planks", graph := .planks } := by
  rw [Document.restoreOrder_planks]
  have place : Load.Gives
      (Document.planksVertex.links.forM (Load.restoreLink planksIds Document.planksVertex))
      { name := "planks", graph := .boards } ⟨⟩ { name := "planks", graph := .boardsPlaced } :=
    Load.gives_single_link rfl rfl Graph.connect_boards
  have sample : Load.Gives
      (Document.planksTexture.links.forM (Load.restoreLink planksIds Document.planksTexture))
      { name := "planks", graph := .boardsPlaced } ⟨⟩
      { name := "planks", graph := .boardsSampled } :=
    Load.gives_single_link rfl rfl Graph.connect_boardsPlaced
  have color : Load.Gives
      (Document.planksFragment.links.forM (Load.restoreLink planksIds Document.planksFragment))
      { name := "planks", graph := .boardsSampled } ⟨⟩ { name := "planks", graph := .planks } :=
    Load.gives_single_link rfl rfl Graph.connect_boardsSampled
  exact Load.gives_forM_cons_iff.mpr ⟨_, place, Load.gives_forM_cons_iff.mpr ⟨_, sample,
    Load.gives_forM_cons_iff.mpr ⟨_, color, rfl⟩⟩⟩

theorem ofDocument_planks : (ofDocument .planks .builtin 1).1 = .ok planks := by
  have loaded : Load.Gives (Document.planks.loader .builtin false) { name := "planks" } planksIds
      planks :=
    Load.gives_loader_iff.mpr ⟨Document.fault?_eq_none_iff.mp rfl,
      { name := "planks", graph := .boards }, { name := "planks", graph := .boards },
      { name := "planks", graph := .planks }, rfl, rfl, gives_planksLinks, rfl⟩
  exact ofDocument_eq_ok loaded

end Material

/-- A document that loads and builds without problems, and is compiled without any define: its
texture is not there yet. -/
theorem Command.planks_compiled_without_defines :
    ∃ m, (Material.ofDocument .planks .builtin 1).1 = .ok m ∧
      ∃ c m' source, m.build = (.ok c, m') ∧ c.errors = [] ∧
        (∀ (σ : Type) (b : Backend σ) (s : σ) (check : ProgramSource → Except String Unit),
          check source = .ok () → compile b s check m = .ok source) ∧
        source.defines = "" ∧ (plainDefines c m'.graph).signature =
          "#define CAMERA_PERSPECTIVE\n#define NORMAL\n#define UV1\n" := by
  obtain ⟨c, m', h, ok⟩ := Material.exists_build_with (m := .planks)
    (p := fun c m' => c.errors.isEmpty && !decide (c.Unblocked m'.graph) &&
      (plainDefines c m'.graph).signature ==
        "#define CAMERA_PERSPECTIVE\n#define NORMAL\n#define UV1\n") (by decide +kernel)
  rw [Bool.and_eq_true, Bool.and_eq_true, List.isEmpty_iff, Bool.not_eq_true',
    decide_eq_false_iff_not, beq_iff_eq] at ok
  have bare : (chosen c m'.graph).defines = "" := by
    rw [chosen, if_neg ok.1.2]
    rfl
  refine ⟨.planks, Material.ofDocument_planks, c, m', chosen c m'.graph, h, ok.1.1,
    fun σ b s check passed => ?_, bare, ok.2⟩
  rw [compile_eq b s check h ok.1.1, passed]
  rfl

end ShaderGraph
