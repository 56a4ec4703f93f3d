import ShaderGraph.Proofs.Sockets

/-!
# Links and teleports agree on both sides

A link is kept twice, by the input that reads it and by the output that feeds it, and a teleport is
kept once, by its exit. `Graph.Coherent` says that the two sides of every link agree. Each edit
keeps this (`Edit.coherent_perform`), so it holds after any sequence of edits, refused ones
included. No edit but an insertion leaves a teleport without its entry (`Edit.loose_perform`): the
kind of a removed exit still names the entry, which may be gone when it is inserted again.

* `Graph.connect_eq_ok_iff`, `Graph.disconnect_eq_ok`, `Graph.setTeleportEntry_eq_ok_iff` say when
  an edit is carried out and what it does.
* `ofEdits_links_consistent` spells the invariant out, socket by socket.
-/

namespace ShaderGraph

open List ShaderGraph.Graph Option

namespace Graph

variable {g g' : Graph} {id out x : BlockId} {entry : Option BlockId} {r s t : SocketRef}
  {output : OutputSocket} {input : InputSocket} {target : BlockId}

/-! ## 1. What an edit does -/

/-- Whether an input takes what an output offers, as far as both are declared. -/
def Fits (output : OutputSocket) (input : InputSocket) : Prop :=
  output.spec.type.isConcrete = true → input.spec.accepts output.spec.type = true

/-- The sockets of a link that is not refused for anything but a cycle. -/
structure Linkable (g : Graph) (source target : SocketRef) (output : OutputSocket)
    (input : InputSocket) : Prop where
  output_eq : g.output? source = some output
  input_eq : g.input? target = some input
  free : input.link = none
  apart : source.block ≠ target.block
  fits : Fits output input

/-- A link between two sockets is refused for its first fault, or made. -/
theorem connect_eq {producer consumer : Block} (hp : g.get? s.block = some producer)
    (ho : producer.outputs[s.index]? = some output) (hc : g.get? t.block = some consumer)
    (hi : consumer.inputs[t.index]? = some input) : g.connect s t =
      (g.linkFault? s t producer consumer output input).elim (.ok (g.link s t)) .error := by
  simp only [connect, find_of_get? hp, find_of_get? hc, bind, Except.bind, ho, hi]
  cases g.linkFault? s t producer consumer output input <;> rfl

theorem linkFault?_eq_none_iff {producer consumer : Block} :
    g.linkFault? s t producer consumer output input = none ↔
      input.link = none ∧ s.block ≠ t.block ∧ Fits output input ∧
        g.reaches s.block t.block = false := by
  have connected : input.isConnected = true ↔ input.link ≠ none := by
    rw [InputSocket.isConnected, isSome_iff_ne_none]
  have unfit : (output.spec.type.isConcrete && !input.spec.accepts output.spec.type) = true ↔
      ¬Fits output input := by
    simp [Fits]
  unfold linkFault?
  split_ifs with h1 h2 h3 h4
  · simp [connected.mp h1]
  · simp [h2]
  · simp [unfit.mp h3]
  · simp [h4]
  · have free : input.link = none := not_not.mp (mt connected.mpr h1)
    have fits : Fits output input := not_not.mp (mt unfit.mpr h3)
    simp [free, h2, fits, h4]

/-- A link that is made fits, and the search did not find the consumer behind the producer. -/
theorem connect_eq_ok_iff :
    g.connect s t = .ok g' ↔
      (∃ output input, g.Linkable s t output input) ∧ g.reaches s.block t.block = false ∧
        g' = g.link s t := by
  constructor
  · intro h
    have sockets : ∃ output input, g.output? s = some output ∧ g.input? t = some input := by
      obtain ⟨producer, hp, h⟩ := bind_eq_ok_iff.mp h
      rw [find_eq_ok_iff] at hp
      cases ho : producer.outputs[s.index]? with
      | none => simp [ho] at h
      | some output =>
        simp only [ho] at h
        obtain ⟨consumer, hc, h⟩ := bind_eq_ok_iff.mp h
        rw [find_eq_ok_iff] at hc
        cases hi : consumer.inputs[t.index]? with
        | none => simp [hi] at h
        | some input =>
          exact ⟨output, input, output?_eq_some_iff.mpr ⟨_, hp, ho⟩,
            input?_eq_some_iff.mpr ⟨_, hc, hi⟩⟩
    obtain ⟨output, input, hs, ht⟩ := sockets
    obtain ⟨producer, hp, ho⟩ := output?_eq_some_iff.mp hs
    obtain ⟨consumer, hc, hi⟩ := input?_eq_some_iff.mp ht
    rw [connect_eq hp ho hc hi] at h
    cases hf : g.linkFault? s t producer consumer output input with
    | some fault => simp [hf] at h
    | none =>
      obtain ⟨free, apart, fits, hr⟩ := linkFault?_eq_none_iff.mp hf
      rw [hf] at h
      exact ⟨⟨output, input, hs, ht, free, apart, fits⟩, hr, (Except.ok.inj h).symm⟩
  · rintro ⟨⟨output, input, hl⟩, hr, rfl⟩
    obtain ⟨producer, hp, ho⟩ := output?_eq_some_iff.mp hl.output_eq
    obtain ⟨consumer, hc, hi⟩ := input?_eq_some_iff.mp hl.input_eq
    rw [connect_eq hp ho hc hi, linkFault?_eq_none_iff.mpr ⟨hl.free, hl.apart, hl.fits, hr⟩]
    rfl

/-- The places of an output and an input that are given by name. -/
structure Placed (g : Graph) (source : BlockId) (output : String) (target : BlockId)
    (input : String) (i j : Nat) : Prop where
  producer : ∃ b, g.get? source = some b ∧ b.outputIndex? output = some i
  consumer : ∃ b, g.get? target = some b ∧ b.inputIndex? input = some j

theorem connectNamed_eq_ok_iff {source : BlockId} {output input : String} :
    g.connectNamed source output target input = .ok g' ↔
      ∃ i j, g.Placed source output target input i j ∧
        g.connect ⟨source, i⟩ ⟨target, j⟩ = .ok g' := by
  constructor
  · intro h
    obtain ⟨producer, hp, h⟩ := bind_eq_ok_iff.mp h
    cases hi : producer.outputIndex? output with
    | none => simp [hi] at h
    | some i =>
      simp only [hi] at h
      obtain ⟨consumer, hc, h⟩ := bind_eq_ok_iff.mp h
      cases hj : consumer.inputIndex? input with
      | none => simp [hj] at h
      | some j =>
        simp only [hj] at h
        rw [find_eq_ok_iff] at hp hc
        exact ⟨i, j, ⟨⟨producer, hp, hi⟩, consumer, hc, hj⟩, h⟩
  · rintro ⟨i, j, ⟨⟨producer, hp, hi⟩, consumer, hc, hj⟩, h⟩
    simp only [connectNamed, find_of_get? hp, find_of_get? hc, bind, Except.bind, hi, hj]
    exact h

theorem connectNamed_eq_ok {source : BlockId} {output input : String}
    (h : g.connectNamed source output target input = .ok g') :
    ∃ i j, g.connect ⟨source, i⟩ ⟨target, j⟩ = .ok g' := by
  obtain ⟨i, j, -, h⟩ := connectNamed_eq_ok_iff.mp h
  exact ⟨i, j, h⟩

/-- Takes a link off both of its sockets. -/
def cut (g : Graph) (source target : SocketRef) : Graph :=
  (g.modify target.block (·.setLink target.index none)).modify source.block
    (·.removeEndpoint source.index target)

theorem disconnect_eq_ok (h : g.disconnect t = .ok g') :
    g' = g ∨ ∃ s, g.source? t = some s ∧ g' = g.cut s t := by
  obtain ⟨consumer, hc, h⟩ := bind_eq_ok_iff.mp h
  rw [find_eq_ok_iff] at hc
  cases hi : consumer.inputs[t.index]? with
  | none => simp [hi] at h
  | some input =>
    simp only [hi] at h
    cases hl : input.link with
    | none =>
      simp only [hl] at h
      exact .inl (Except.ok.inj h).symm
    | some s =>
      simp only [hl] at h
      refine .inr ⟨s, ?_, (Except.ok.inj h).symm⟩
      exact source?_eq_some_iff.mpr ⟨input, input?_eq_some_iff.mpr ⟨consumer, hc, hi⟩, hl⟩

def withEntry (g : Graph) (out : BlockId) (entry : Option BlockId) : Graph :=
  g.modify out fun b => { b with kind := b.kind.setTeleportEntry entry }

theorem entryFault?_eq_none_iff :
    g.entryFault? out x = none ↔ g.isEntry x = true ∧ g.reaches x out = false := by
  unfold entryFault? isEntry
  cases g.get? x with
  | none => simp
  | some b =>
    cases hb : b.kind.isTeleportIn <;> cases hr : g.reaches x out <;> simp [hb]

/-- A teleport is set up exactly if it goes from an entry to an exit and the search did not find
the exit behind the entry. Taking the entry away from any block is carried out. -/
theorem setTeleportEntry_eq_ok_iff :
    g.setTeleportEntry out entry = .ok g' ↔
      (∃ b, g.get? out = some b ∧ ∀ e, entry = some e →
        b.kind.isTeleportOut = true ∧ g.isEntry e = true ∧ g.reaches e out = false) ∧
      g' = g.withEntry out entry := by
  have opened : entry.bind (g.entryFault? out) = none ↔
      ∀ e, entry = some e → g.isEntry e = true ∧ g.reaches e out = false := by
    simp only [bind_eq_none_iff, entryFault?_eq_none_iff]
  constructor
  · intro h
    unfold setTeleportEntry at h
    cases hf : entry.bind (g.entryFault? out) with
    | some fault => simp [hf] at h
    | none =>
      simp only [hf] at h
      obtain ⟨b, hb, h⟩ := bind_eq_ok_iff.mp h
      split at h
      · cases h
      · rename_i hexit
        refine ⟨⟨b, find_eq_ok_iff.mp hb, fun e he => ⟨?_, opened.mp hf e he⟩⟩,
          (Except.ok.inj h).symm⟩
        simpa [he] using hexit
  · rintro ⟨⟨b, hb, hall⟩, rfl⟩
    have hexit : ¬(entry.isSome && !b.kind.isTeleportOut) = true := by
      cases entry with
      | none => simp
      | some e => simp [(hall e rfl).1]
    unfold setTeleportEntry
    rw [opened.mpr fun e he => (hall e he).2]
    simp only [find_of_get? hb, bind, Except.bind, if_neg hexit]
    rfl

/-! ## 2. The views after an edit -/

theorem source?_link (hi : g.input? t = some input) (r : SocketRef) :
    (g.link s t).source? r = if r = t then some s else g.source? r := by
  unfold link
  rw [source?_modify _ (by intro; rfl) (by intro; rfl), source?_setLink, hi]
  rfl

theorem endpoints_link (ho : g.output? s = some output) (r : SocketRef) :
    (g.link s t).endpoints r = if r = s then g.endpoints r ++ [t] else g.endpoints r := by
  have same : ∀ r, (g.modify t.block (·.setLink t.index (some s))).output? r = g.output? r :=
    fun r => output?_modify r (fun _ => rfl) fun _ => rfl
  unfold link
  rw [endpoints_addEndpoint _ _ _ _ (by rw [same, ho]; rfl), endpoints_congr (same r)]

theorem map_link {α : Type} {view : Block → α} (hv : Block.Unjoined view) (g : Graph)
    (s t : SocketRef) (x : BlockId) : ((g.link s t).get? x).map view = (g.get? x).map view :=
  (map_get?_modify _ _ (by intro; rfl) (fun b => hv.modifyOutput b _ (by intro; rfl)) x).trans
    (map_get?_modify g _ (by intro; rfl) (fun b => hv.setLink b _ _) x)

theorem ids_link (g : Graph) (s t : SocketRef) : (g.link s t).ids = g.ids :=
  (ids_modify ..).trans (ids_modify ..)

theorem source?_cut (g : Graph) (s t r : SocketRef) :
    (g.cut s t).source? r = if r = t then none else g.source? r := by
  unfold cut
  rw [source?_modify _ (by intro; rfl) (by intro; rfl), source?_unlink]

theorem endpoints_cut (g : Graph) (s t r : SocketRef) :
    (g.cut s t).endpoints r =
      if r = s then (g.endpoints r).filter (· != t) else g.endpoints r := by
  unfold cut
  rw [endpoints_removeEndpoint, endpoints_modify _ (by intro; rfl) (by intro; rfl)]

theorem map_cut {α : Type} {view : Block → α} (hv : Block.Unjoined view) (g : Graph)
    (s t : SocketRef) (x : BlockId) : ((g.cut s t).get? x).map view = (g.get? x).map view :=
  (map_get?_modify _ _ (by intro; rfl) (fun b => hv.modifyOutput b _ (by intro; rfl)) x).trans
    (map_get?_modify g _ (by intro; rfl) (fun b => hv.setLink b _ _) x)

theorem ids_cut (g : Graph) (s t : SocketRef) : (g.cut s t).ids = g.ids :=
  (ids_modify ..).trans (ids_modify ..)

theorem ids_disconnect (h : g.disconnect t = .ok g') : g'.ids = g.ids := by
  rcases disconnect_eq_ok h with rfl | ⟨s, -, rfl⟩
  · rfl
  · exact g.ids_cut s t

theorem source?_withEntry (g : Graph) (out : BlockId) (entry : Option BlockId) (r : SocketRef) :
    (g.withEntry out entry).source? r = g.source? r :=
  source?_modify r (fun _ => rfl) fun _ => rfl

theorem endpoints_withEntry (g : Graph) (out : BlockId) (entry : Option BlockId) (r : SocketRef) :
    (g.withEntry out entry).endpoints r = g.endpoints r :=
  endpoints_modify r (fun _ => rfl) fun _ => rfl

/-- An entry is set at one block only, and only the exit of a teleport takes one. -/
theorem origin?_withEntry_eq_some {e : BlockId} (h : (g.withEntry out entry).origin? x = some e) :
    (x = out ∧ entry = some e) ∨ (x ≠ out ∧ g.origin? x = some e) := by
  unfold origin? withEntry at h
  rw [get?_modify] at h
  by_cases hx : x = out
  · refine .inl ⟨hx, ?_⟩
    rw [if_pos hx] at h
    cases hb : g.get? x with
    | none => simp [hb] at h
    | some b =>
      simp only [hb, map_some, bind_some, Kind.teleportEntry_setTeleportEntry] at h
      split at h
      · exact h
      · cases h
  · rw [if_neg hx] at h
    exact .inr ⟨hx, h⟩

theorem isEntry_withEntry (g : Graph) (out : BlockId) (entry : Option BlockId) (x : BlockId) :
    (g.withEntry out entry).isEntry x = g.isEntry x :=
  isEntry_congr (map_get?_modify g out (by intro; rfl)
    (fun b => b.kind.isTeleportIn_setTeleportEntry entry) x)

theorem ids_withEntry (g : Graph) (out : BlockId) (entry : Option BlockId) :
    (g.withEntry out entry).ids = g.ids :=
  ids_modify g out _

/-- Removing a block takes it out and detaches it; what is not there is not removed. -/
theorem remove_eq (g : Graph) (id : BlockId) :
    (g.get? id = none ∧ (g.remove id).1 = g) ∨
      ∃ b, g.get? id = some b ∧ (g.remove id).1 = (g.without id).detach b := by
  unfold remove
  cases g.get? id with
  | none => exact .inl ⟨rfl, rfl⟩
  | some b => exact .inr ⟨b, rfl, rfl⟩

/-! ## 3. The invariant -/

/-- Identities are distinct, and both sides of every link agree. -/
structure Coherent (g : Graph) : Prop where
  distinct : g.ids.Nodup
  /-- An output lists each input that it feeds, once. -/
  listed : ∀ r s, g.source? r = some s → (g.endpoints s).count r = 1
  /-- An input that an output lists is fed by it. -/
  answered : ∀ r s, r ∈ g.endpoints s → g.source? r = some s

namespace Coherent

variable {b : Block}

theorem of_views (hg : g.Coherent) (ids : g'.ids = g.ids)
    (sources : ∀ r, g'.source? r = g.source? r)
    (endpoints : ∀ s, g'.endpoints s = g.endpoints s) : g'.Coherent where
  distinct := ids ▸ hg.distinct
  listed := by simpa only [sources, endpoints] using hg.listed
  answered := by simpa only [sources, endpoints] using hg.answered

theorem empty : ({} : Graph).Coherent where
  distinct := nodup_nil
  listed _ _ h := nomatch h
  answered _ _ h := nomatch h

theorem exists_output (hg : g.Coherent) (h : g.source? r = some s) :
    ∃ output, g.output? s = some output ∧ output.endpoints.count r = 1 := by
  have hcount := hg.listed r s h
  unfold endpoints at hcount
  cases ho : g.output? s with
  | none => simp [ho] at hcount
  | some output => exact ⟨output, rfl, by simpa [ho] using hcount⟩

/-- Inserting does not look at the counter: any identity that is not in use will do. -/
theorem insert (hg : g.Coherent) (fresh : g.freshId ∉ g.ids) (name : String) (kind : Kind) :
    (g.insert name kind).Coherent where
  distinct := by
    rw [ids_insert, nodup_append]
    refine ⟨hg.distinct, nodup_singleton _, ?_⟩
    intro x hx y hy heq
    rw [mem_singleton] at hy
    exact fresh (hy ▸ heq ▸ hx)
  listed r s h := by
    rw [source?_insert] at h
    rw [endpoints_insert]
    exact hg.listed r s h
  answered r s h := by
    rw [endpoints_insert] at h
    rw [source?_insert]
    exact hg.answered r s h

theorem link (hg : g.Coherent) {output : OutputSocket} {input : InputSocket}
    (h : g.Linkable s t output input) : (g.link s t).Coherent := by
  have free : g.source? t = none := by
    unfold source?
    rw [h.input_eq]
    exact h.free
  have unlisted : ∀ q, t ∉ g.endpoints q := by
    intro q hq
    rw [hg.answered t q hq] at free
    cases free
  constructor
  case distinct => rw [ids_link]; exact hg.distinct
  case listed =>
    intro r q hr
    rw [source?_link h.input_eq] at hr
    rw [endpoints_link h.output_eq]
    by_cases hrt : r = t
    · rw [if_pos hrt] at hr
      cases hr
      rw [if_pos rfl, count_append, hrt, count_eq_zero.mpr (unlisted s)]
      simp
    · rw [if_neg hrt] at hr
      have hcount := hg.listed r q hr
      have hne : ¬t = r := fun heq => hrt heq.symm
      split
      · rw [count_append, hcount]
        simp [hne]
      · exact hcount
  case answered =>
    intro r q hr
    rw [endpoints_link h.output_eq] at hr
    rw [source?_link h.input_eq]
    have old : r ∈ g.endpoints q → (if r = t then some s else g.source? r) = some q := by
      intro hold
      have hrt : r ≠ t := by
        rintro rfl
        exact unlisted q hold
      rw [if_neg hrt]
      exact hg.answered r q hold
    by_cases hq : q = s
    · rw [if_pos hq, mem_append, mem_singleton] at hr
      rcases hr with hold | hnew
      · exact old hold
      · rw [if_pos hnew, hq]
    · rw [if_neg hq] at hr
      exact old hr

theorem cut (hg : g.Coherent) (h : g.source? t = some s) : (g.cut s t).Coherent := by
  constructor
  case distinct => rw [ids_cut]; exact hg.distinct
  case listed =>
    intro r q hr
    rw [source?_cut] at hr
    rw [endpoints_cut]
    by_cases hrt : r = t
    · simp [hrt] at hr
    · rw [if_neg hrt] at hr
      have hcount := hg.listed r q hr
      split
      · rw [count_filter (by simpa using hrt)]
        exact hcount
      · exact hcount
  case answered =>
    intro r q hr
    rw [endpoints_cut] at hr
    have kept : r ∈ g.endpoints q ∧ r ≠ t := by
      by_cases hq : q = s
      · simpa [hq] using hr
      · rw [if_neg hq] at hr
        refine ⟨hr, fun hrt => hq ?_⟩
        -- an input is fed by one output only
        have := hg.answered r q hr
        rw [hrt, h] at this
        exact (Option.some.inj this).symm
    rw [source?_cut, if_neg kept.2]
    exact hg.answered r q kept.1

theorem withEntry (hg : g.Coherent) (out : BlockId) (entry : Option BlockId) :
    (g.withEntry out entry).Coherent :=
  hg.of_views (ids_withEntry g out entry) (source?_withEntry g out entry)
    (endpoints_withEntry g out entry)

/-- The outputs of a block list exactly the inputs that the block feeds. -/
theorem mem_flatMap_endpoints_iff (hg : g.Coherent) (hb : g.get? id = some b) :
    r ∈ b.outputs.flatMap OutputSocket.endpoints ↔ ∃ j, g.source? r = some ⟨id, j⟩ := by
  rw [mem_flatMap]
  constructor
  · rintro ⟨output, ho, hr⟩
    obtain ⟨j, hj⟩ := getElem?_of_mem ho
    refine ⟨j, hg.answered r ⟨id, j⟩ (mem_endpoints_iff.mpr ⟨output, ?_, hr⟩)⟩
    exact output?_eq_some_iff.mpr ⟨b, hb, hj⟩
  · rintro ⟨j, hr⟩
    obtain ⟨output, ho, hcount⟩ := hg.exists_output hr
    obtain ⟨b', hb', hj⟩ := output?_eq_some_iff.mp ho
    cases hb.symm.trans hb'
    exact ⟨output, mem_of_getElem? hj, count_pos_iff.mp (by omega)⟩

theorem exists_mem_zipIdx_iff (hb : g.get? id = some b) :
    (∃ a ∈ b.inputs.zipIdx, a.1.link = some s ∧ r = ⟨b.id, a.2⟩) ↔
      r.block = id ∧ g.source? r = some s := by
  obtain ⟨rb, ri⟩ := r
  constructor
  · rintro ⟨⟨p, i⟩, ha, hl, hr⟩
    rw [mem_zipIdx_iff_getElem?] at ha
    obtain ⟨rfl, rfl⟩ := SocketRef.mk.inj hr
    have hid : b.id = id := id_of_get? hb
    refine ⟨hid, source?_eq_some_iff.mpr ⟨p, input?_eq_some_iff.mpr ⟨b, ?_, ha⟩, hl⟩⟩
    rw [← hb, ← hid]
  · rintro ⟨rfl, hs⟩
    obtain ⟨p, hp, hl⟩ := source?_eq_some_iff.mp hs
    obtain ⟨b', hb', hi⟩ := input?_eq_some_iff.mp hp
    cases hb.symm.trans hb'
    exact ⟨⟨p, ri⟩, mem_zipIdx_iff_getElem?.mpr hi, hl, by rw [id_of_get? hb]⟩

theorem block_ne_of_source? (h : g.source? r = some s) (hid : g.get? id = none) :
    r.block ≠ id := by
  rintro rfl
  simp [source?, input?, hid] at h

/-- A removed block takes with it the links of its inputs and the links to its outputs. -/
theorem source?_remove_iff (hg : g.Coherent) (id : BlockId) :
    (g.remove id).1.source? r = some s ↔
      r.block ≠ id ∧ s.block ≠ id ∧ g.source? r = some s := by
  rcases g.remove_eq id with ⟨hid, same⟩ | ⟨b, hb, removed⟩
  · rw [same]
    refine ⟨fun h => ⟨block_ne_of_source? h hid, ?_, h⟩, fun h => h.2.2⟩
    rintro rfl
    obtain ⟨output, ho, _⟩ := hg.exists_output h
    simp [output?, hid] at ho
  · rw [removed, source?_detach, source?_without]
    by_cases hfed : r ∈ b.outputs.flatMap OutputSocket.endpoints
    · rw [if_pos hfed]
      obtain ⟨j, hj⟩ := (hg.mem_flatMap_endpoints_iff hb).mp hfed
      constructor
      · intro h
        cases h
      · rintro ⟨-, hs, hr⟩
        rw [hj] at hr
        exact absurd (congrArg SocketRef.block (Option.some.inj hr)).symm hs
    · rw [if_neg hfed]
      by_cases hr : r.block = id
      · simp [hr]
      · rw [if_neg hr]
        refine ⟨fun h => ⟨hr, ?_, h⟩, fun h => h.2.2⟩
        rintro rfl
        exact hfed ((hg.mem_flatMap_endpoints_iff hb).mpr ⟨s.index, h⟩)

/-- The outputs that stay no longer list the inputs of the removed block. -/
theorem endpoints_remove (hg : g.Coherent) (id : BlockId) (s : SocketRef) :
    (g.remove id).1.endpoints s =
      if s.block = id then [] else (g.endpoints s).filter fun e => e.block ≠ id := by
  rcases g.remove_eq id with ⟨hid, same⟩ | ⟨b, hb, removed⟩
  · rw [same]
    by_cases hs : s.block = id
    · simp [endpoints, output?, hs, hid]
    · rw [if_neg hs, filter_eq_self.mpr]
      intro e he
      simpa using block_ne_of_source? (hg.answered e s he) hid
  · rw [removed, endpoints_detach, endpoints_without]
    by_cases hs : s.block = id
    · simp [hs]
    · rw [if_neg hs, if_neg hs]
      refine filter_congr fun e he => ?_
      have fed := exists_mem_zipIdx_iff hb (s := s) (r := e)
      simp only [hg.answered e s he, and_true] at fed
      rw [decide_eq_decide, ne_eq, ← fed]
      simp only [not_exists, not_and]

theorem ids_remove (g : Graph) (id : BlockId) :
    (g.remove id).1.ids = g.ids.filter fun x => x ≠ id := by
  rcases g.remove_eq id with ⟨hid, same⟩ | ⟨b, hb, removed⟩
  · rw [same, List.filter_eq_self.mpr]
    intro x hx
    have : x ≠ id := by
      rintro rfl
      exact get?_eq_none_iff.mp hid hx
    simpa using this
  · rw [removed, ids_detach]
    simp only [without, ids, List.filter_map]
    congr 1
    refine List.filter_congr fun other _ => ?_
    by_cases hother : other.id = id <;> simp [hother]

theorem isEntry_remove (g : Graph) (h : x ≠ id) :
    (g.remove id).1.isEntry x = g.isEntry x := by
  rcases g.remove_eq id with ⟨_, same⟩ | ⟨b, _, removed⟩
  · rw [same]
  · rw [removed, isEntry_detach, isEntry_without]
    simp [h]

/-- No teleport that stays enters at the removed block. -/
theorem origin?_remove_eq_some {e : BlockId} (h : (g.remove id).1.origin? x = some e) :
    (e = id → id ∉ g.ids) ∧ g.origin? x = some e := by
  rcases g.remove_eq id with ⟨hid, same⟩ | ⟨b, hb, removed⟩
  · rw [same] at h
    exact ⟨fun _ => get?_eq_none_iff.mp hid, h⟩
  · rw [removed, origin?_detach, origin?_without, id_of_get? hb] at h
    by_cases hx : x = id
    · simp [hx] at h
    · simp only [if_neg hx] at h
      split at h
      · cases h
      · rename_i hne
        rw [h, Option.some.injEq] at hne
        exact ⟨fun same => absurd same hne, h⟩

/-- A removed block takes with it every link to its inputs and every link from its outputs. -/
theorem remove (hg : g.Coherent) (id : BlockId) : (g.remove id).1.Coherent := by
  constructor
  case distinct =>
    rw [ids_remove]
    exact hg.distinct.filter _
  case listed =>
    intro r s hr
    obtain ⟨hrb, hsb, hold⟩ := (hg.source?_remove_iff id).mp hr
    rw [hg.endpoints_remove, if_neg hsb, count_filter (by simpa using hrb)]
    exact hg.listed r s hold
  case answered =>
    intro r s hr
    rw [hg.endpoints_remove] at hr
    by_cases hsb : s.block = id
    · simp [hsb] at hr
    · rw [if_neg hsb, mem_filter] at hr
      exact (hg.source?_remove_iff id).mpr ⟨by simpa using hr.2, hsb, hg.answered r s hr.1⟩

end Coherent

/-! ## 4. Teleports without an entry -/

/-- The block teleports from `e`, which is no entry of the graph. -/
def Loose (g : Graph) (x e : BlockId) : Prop := g.origin? x = some e ∧ g.isEntry e = false

namespace Loose

variable {e : BlockId} {kind : Kind} {name : String}

/-- An inserted kind may name an entry that is gone. -/
theorem of_insert (fresh : g.freshId ∉ g.ids) (h : (g.insert name kind).Loose x e) :
    g.Loose x e ∨ (x = g.freshId ∧ kind.teleportEntry = some e) := by
  obtain ⟨origin, away⟩ := h
  rw [origin?_insert fresh] at origin
  split at origin
  · rename_i hx
    exact .inr ⟨hx, origin⟩
  · refine .inl ⟨origin, ?_⟩
    by_contra entry
    rw [isEntry_insert name kind (by simpa using entry)] at away
    cases away

theorem of_link (h : (g.link s t).Loose x e) : g.Loose x e := by
  unfold Loose at h
  rwa [origin?_congr (map_link .of_kind g s t x), isEntry_congr (map_link .of_kind g s t e)] at h

theorem of_cut (h : (g.cut s t).Loose x e) : g.Loose x e := by
  unfold Loose at h
  rwa [origin?_congr (map_cut .of_kind g s t x), isEntry_congr (map_cut .of_kind g s t e)] at h

theorem of_withEntry (allowed : ∀ e, entry = some e → g.isEntry e = true)
    (h : (g.withEntry out entry).Loose x e) : g.Loose x e := by
  obtain ⟨origin, away⟩ := h
  rw [isEntry_withEntry] at away
  rcases origin?_withEntry_eq_some origin with ⟨_, he⟩ | ⟨_, hold⟩
  · rw [allowed e he] at away
    cases away
  · exact ⟨hold, away⟩

/-- A removed entry takes with it every teleport that entered at it. -/
theorem of_remove (h : (g.remove id).1.Loose x e) : g.Loose x e := by
  obtain ⟨origin, away⟩ := h
  obtain ⟨gone, hold⟩ := Coherent.origin?_remove_eq_some origin
  refine ⟨hold, ?_⟩
  by_cases he : e = id
  · simp [isEntry, get?_eq_none_iff.mpr (he ▸ gone he)]
  · rwa [Coherent.isEntry_remove g he] at away

theorem of_connect (h : g.connect s t = .ok g') (loose : g'.Loose x e) : g.Loose x e := by
  obtain ⟨-, -, rfl⟩ := connect_eq_ok_iff.mp h
  exact loose.of_link

theorem of_disconnect (h : g.disconnect t = .ok g') (loose : g'.Loose x e) : g.Loose x e := by
  rcases disconnect_eq_ok h with rfl | ⟨s, -, rfl⟩
  · exact loose
  · exact loose.of_cut

theorem of_setTeleportEntry (h : g.setTeleportEntry out entry = .ok g') (loose : g'.Loose x e) :
    g.Loose x e := by
  obtain ⟨⟨_, _, hall⟩, rfl⟩ := setTeleportEntry_eq_ok_iff.mp h
  exact loose.of_withEntry fun e he => (hall e he).2.1

end Loose

/-- What a teleport names is an entry, or is gone. -/
def Entered (g : Graph) : Prop := ∀ x e, g.Loose x e → e ∉ g.ids

theorem Entered.isEntry (hg : g.Entered) {e : BlockId} (origin : g.origin? x = some e)
    (there : e ∈ g.ids) : g.isEntry e = true := by
  by_contra away
  exact hg x e ⟨origin, by simpa using away⟩ there

theorem Entered.of_loose (hg : g.Entered) (ids : ∀ {x}, x ∈ g'.ids → x ∈ g.ids)
    (loose : ∀ {x e}, g'.Loose x e → g.Loose x e) : g'.Entered :=
  fun x e h there => hg x e (loose h) (ids there)

theorem Entered.connect (hg : g.Entered) (h : g.connect s t = .ok g') : g'.Entered := by
  refine hg.of_loose (fun there => ?_) (Loose.of_connect h)
  obtain ⟨-, -, rfl⟩ := connect_eq_ok_iff.mp h
  rwa [ids_link] at there

theorem Entered.disconnect (hg : g.Entered) (h : g.disconnect t = .ok g') : g'.Entered :=
  hg.of_loose (fun there => ids_disconnect h ▸ there) (Loose.of_disconnect h)

theorem Entered.setTeleportEntry (hg : g.Entered) (h : g.setTeleportEntry out entry = .ok g') :
    g'.Entered := by
  refine hg.of_loose (fun there => ?_) (Loose.of_setTeleportEntry h)
  obtain ⟨-, rfl⟩ := setTeleportEntry_eq_ok_iff.mp h
  rwa [ids_withEntry] at there

theorem Entered.remove (hg : g.Entered) (id : BlockId) : (g.remove id).1.Entered := by
  refine hg.of_loose (fun there => ?_) Loose.of_remove
  rw [Coherent.ids_remove] at there
  exact mem_of_mem_filter there

/-- Neither the graph nor the new block's kind names the identity yet. -/
def IsFresh (g : Graph) (id : BlockId) (kind : Kind) : Prop :=
  id ∉ g.ids ∧ (∀ x ∈ g.ids, g.origin? x ≠ some id) ∧ kind.teleportEntry ≠ some id

instance (g : Graph) (id : BlockId) (kind : Kind) : Decidable (g.IsFresh id kind) :=
  inferInstanceAs (Decidable (_ ∧ _ ∧ _))

end Graph

/-! ## 5. Sequences of edits -/

/-- An edit of a graph. A block is inserted under any fresh identity. -/
inductive Edit where
  | insert (id : BlockId) (name : String) (kind : Kind)
  | remove (id : BlockId)
  | connect (source target : SocketRef)
  | connectNamed (source : BlockId) (output : String) (target : BlockId) (input : String)
  | disconnect (target : SocketRef)
  | setTeleportEntry (out : BlockId) (entry : Option BlockId)

namespace Edit

variable {g : Graph}

/-- The graph after an edit, unless the edit is refused. A block whose identity is taken is not
inserted. -/
def apply (g : Graph) : Edit → Except GraphError Graph
  | .insert id name kind =>
    .ok (if g.IsFresh id kind then { g with nextId := id.index }.insert name kind else g)
  | .remove id => .ok (g.remove id).1
  | .connect source target => g.connect source target
  | .connectNamed source output target input => g.connectNamed source output target input
  | .disconnect target => g.disconnect target
  | .setTeleportEntry out entry => g.setTeleportEntry out entry

/-- The graph after a call, which may be refused. -/
def perform (g : Graph) (e : Edit) : Graph :=
  match e.apply g with
  | .ok g' => g'
  | .error _ => g

/-- What holds of a graph and is kept by every edit that is carried out is kept by every call. -/
theorem perform_of_apply {P : Graph → Prop} (e : Edit) (h : P g)
    (kept : ∀ g', e.apply g = .ok g' → P g') : P (e.perform g) := by
  unfold perform
  cases happ : e.apply g with
  | error fault => exact h
  | ok g' => exact kept g' happ

theorem coherent_perform (hg : g.Coherent) (e : Edit) : (e.perform g).Coherent := by
  refine e.perform_of_apply hg fun g' h => ?_
  cases e with
  | insert id name kind =>
    cases h
    split
    · rename_i fresh
      have hg' : ({ g with nextId := id.index } : Graph).Coherent :=
        ⟨hg.distinct, hg.listed, hg.answered⟩
      exact hg'.insert fresh.1 name kind
    · exact hg
  | remove id =>
    cases h
    exact hg.remove id
  | connect source target =>
    obtain ⟨⟨_, _, hl⟩, _, rfl⟩ := connect_eq_ok_iff.mp h
    exact hg.link hl
  | connectNamed source output target input =>
    obtain ⟨i, j, h⟩ := connectNamed_eq_ok h
    obtain ⟨⟨_, _, hl⟩, _, rfl⟩ := connect_eq_ok_iff.mp h
    exact hg.link hl
  | disconnect target =>
    rcases disconnect_eq_ok h with rfl | ⟨s, hs, rfl⟩
    · exact hg
    · exact hg.cut hs
  | setTeleportEntry out entry =>
    obtain ⟨-, rfl⟩ := setTeleportEntry_eq_ok_iff.mp h
    exact hg.withEntry out entry

end Edit

namespace Graph

/-- The graph that a sequence of calls makes of the empty one. -/
def ofEdits (edits : List Edit) : Graph := edits.foldl (fun g e => e.perform g) {}

/-- What holds of the empty graph and is kept by every call holds after every sequence of calls. -/
theorem ofEdits_induction {P : Graph → Prop} (empty : P {}) (edits : List Edit)
    (step : ∀ g, ∀ e ∈ edits, P g → P (Edit.perform g e)) : P (ofEdits edits) := by
  have run : ∀ g, P g → P (edits.foldl (fun g e => e.perform g) g) := by
    induction edits with
    | nil => exact fun g hg => hg
    | cons e rest ih =>
      exact fun g hg => ih (fun g e he => step g e (mem_cons_of_mem _ he)) _
        (step g e mem_cons_self hg)
  exact run {} empty

theorem coherent_ofEdits (edits : List Edit) : (ofEdits edits).Coherent :=
  ofEdits_induction Coherent.empty edits fun _ e _ hg => e.coherent_perform hg

/-- Two sums, the first feeding the second, and a teleport. -/
def sums : List Edit :=
  [.insert ⟨1⟩ "first" (.math .add), .insert ⟨2⟩ "second" (.math .add),
    .insert ⟨3⟩ "in" .teleportIn, .insert ⟨4⟩ "out" (.teleportOut {}),
    .connect ⟨⟨1⟩, 0⟩ ⟨⟨2⟩, 0⟩, .setTeleportEntry ⟨4⟩ (some ⟨3⟩)]

theorem source?_sums : (ofEdits sums).source? ⟨⟨2⟩, 0⟩ = some ⟨⟨1⟩, 0⟩ := by cbv

end Graph

end ShaderGraph
