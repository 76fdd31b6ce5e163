/-
What a guided pool notes down between two answers of its adviser, and why
that is enough.

# Sound pools

`Sound` ties a pool to its graph: states are filed under their own
numbers, trails and notes speak of blocks that the graph has. It holds
throughout every run, whatever else happens to the graph (`sound_run`).

# Nothing goes unnoticed

`Keeps` is one step of note-taking: nothing noted is forgotten, and a
state that is not noted afterwards was not noted before and has not
changed. Every notice is such a step (`keeps_tell`), and it changes no
block that it does not note (`marked_tell`). The two together are all
that a delta has to rely on.
-/
import SymbolicSearch.Proofs.Guided.Step
import SymbolicSearch.Proofs.Scene

namespace SymbolicSearch

namespace FlowGraph

variable {g g' : FlowGraph}

-- ================================================================== coverage

/-- The blocks of one graph are as covered in another. -/
def SameCoverage (g g' : FlowGraph) : Prop :=
  ∀ (i : Nat) (b : Block), g.blocks[i]? = some b →
    ∃ b', g'.blocks[i]? = some b' ∧ b'.covered = b.covered ∧ b'.inZone = b.inZone

theorem SameCoverage.refl (g : FlowGraph) : SameCoverage g g := fun _ b hb => ⟨b, hb, rfl, rfl⟩

theorem SameCoverage.trans {g₁ g₂ g₃ : FlowGraph} (h : SameCoverage g₁ g₂)
    (h' : SameCoverage g₂ g₃) : SameCoverage g₁ g₃ := by
  intro i b hb
  obtain ⟨b₂, hb₂, hc₂, hz₂⟩ := h i b hb
  obtain ⟨b₃, hb₃, hc₃, hz₃⟩ := h' i b₂ hb₂
  exact ⟨b₃, hb₃, hc₃.trans hc₂, hz₃.trans hz₂⟩

theorem sameCoverage_install (g : FlowGraph) (r : Routine) : SameCoverage g (g.install r) := by
  intro i b hb
  exact ⟨b, (getElem?_install_of_lt (lt_size_iff.2 ⟨b, hb⟩)).trans hb, rfl, rfl⟩

/-- A graph has become another in which no old block differs that is not
listed, and in which every old block leads where it led and is as covered
as it was. -/
structure Marked (listed : Nat → Prop) (g g' : FlowGraph) : Prop where
  size : g.size ≤ g'.size
  block : ∀ i : Nat, i < g.size → ¬ listed i → g'.blocks[i]? = g.blocks[i]?
  targets : ∀ (i : Nat) (r : Relation), i < g.size → g'.targets i r = g.targets i r
  coverage : SameCoverage g g'

theorem Marked.refl (listed : Nat → Prop) (g : FlowGraph) : Marked listed g g :=
  ⟨Nat.le_refl _, fun _ _ _ => rfl, fun _ _ _ => rfl, SameCoverage.refl g⟩

theorem Marked.trans {listed : Nat → Prop} {g₁ g₂ g₃ : FlowGraph} (h : Marked listed g₁ g₂)
    (h' : Marked listed g₂ g₃) : Marked listed g₁ g₃ := by
  refine ⟨Nat.le_trans h.size h'.size, fun i hlt hi => ?_, fun i r hlt => ?_,
    h.coverage.trans h'.coverage⟩
  · exact (h'.block i (Nat.lt_of_lt_of_le hlt h.size) hi).trans (h.block i hlt hi)
  · exact (h'.targets i r (Nat.lt_of_lt_of_le hlt h.size)).trans (h.targets i r hlt)

theorem marked_modifyBlock {listed : Nat → Prop} (g : FlowGraph) {id : Nat} {f : Block → Block}
    (hid : listed id) (hf : ∀ b, (f b).bare = b.bare)
    (hcov : ∀ b, (f b).covered = b.covered ∧ (f b).inZone = b.inZone) :
    Marked listed g (g.modifyBlock id f) := by
  have hget : ∀ i : Nat, (g.modifyBlock id f).blocks[i]? =
      if id = i then g.blocks[i]?.map f else g.blocks[i]? := fun i => Array.getElem?_modify
  refine ⟨Nat.le_of_eq (alike_modifyBlock g id hf).size.symm, fun i _ hi => ?_, fun _ _ _ => rfl,
    fun i b hb => ?_⟩
  · have hne : id ≠ i := fun h => hi (h ▸ hid)
    rw [hget, if_neg hne]
  · rw [hget]
    by_cases hne : id = i
    · rw [if_pos hne, hb]
      exact ⟨f b, rfl, hcov b⟩
    · rw [if_neg hne]
      exact ⟨b, hb, rfl, rfl⟩

theorem marked_install (listed : Nat → Prop) (g : FlowGraph) (r : Routine) :
    Marked listed g (g.install r) := by
  refine ⟨?_, fun i hlt _ => getElem?_install_of_lt hlt, fun i rel hlt => ?_,
    sameCoverage_install g r⟩
  · rw [size_install]
    exact Nat.le_add_right _ _
  · refine IdSet.ext_mem fun b => ?_
    rw [mem_targets, mem_targets]
    exact mem_edges_install_of_lt hlt

theorem marked_vacate {listed : Nat → Prop} (g : FlowGraph) (state : StateNo)
    {block : Option BlockNo} (hb : ∀ id, block = some id → listed id) :
    Marked listed g (Trail.vacate state block g) := by
  cases block with
  | none => exact Marked.refl listed g
  | some id => exact marked_modifyBlock g (hb id rfl) (fun _ => rfl) fun _ => ⟨rfl, rfl⟩

/-- Following a state changes the block it leaves and the block it comes
to. -/
theorem marked_follow {listed : Nat → Prop} {t t' : Trail} {h : Handle} {step : Nat}
    (hf : t.follow h step g = .ok (t', g'))
    (hleft : ∀ id, t.block = some id → t.block ≠ t'.block → listed id)
    (hcome : ∀ id, t'.block = some id → listed id) : Marked listed g g' := by
  obtain ⟨-, -, rfl⟩ | ⟨stmt, id, b, -, -, rfl, rfl⟩ := follow_eq_ok hf
  · exact Marked.refl listed g'
  · have harrive : ∀ g₁ : FlowGraph,
        Marked listed g₁ (g₁.modifyBlock id (Trail.trodden t.state stmt.site.index)) :=
      fun g₁ => marked_modifyBlock g₁ (hcome id rfl) (fun _ => rfl) fun _ => ⟨rfl, rfl⟩
    unfold arrival
    split
    next => exact harrive g
    next hne => exact (marked_vacate g _ fun k hk => hleft k hk hne).trans (harrive _)

theorem size_le_act (g : FlowGraph) (a : Act) : g.size ≤ (g.act a).size := by
  rw [(act_spec g a).size, linkAll_size]
  cases g.admits a with
  | none => exact Nat.le_refl _
  | some r =>
      show g.size ≤ (g.install r).size
      rw [size_install]
      exact Nat.le_add_right _ _

end FlowGraph

namespace Trail

variable {t t' : Trail} {g g' : FlowGraph}

-- ================================================================== trails

/-- A trail speaks of blocks that a graph has, each visit filed under its
block. -/
structure Lies (t : Trail) (g : FlowGraph) : Prop where
  history : ∀ k v, t.history.find? k = some v → v.block = k ∧ k < g.size
  block : ∀ b, t.block = some b → b < g.size

theorem lies_fresh (g : FlowGraph) (state : StateNo) (step : Nat) :
    (fresh state step).Lies g := by
  constructor
  · intro k v h
    cases h
  · intro b h
    cases h

theorem Lies.fork (h : t.Lies g) (state : StateNo) (step : Nat) : (t.fork state step).Lies g :=
  ⟨h.history, (lies_fresh g state step).block⟩

theorem Lies.mono (h : t.Lies g) (hle : g.size ≤ g'.size) : t.Lies g' :=
  ⟨fun k v hv => ⟨(h.history k v hv).1, Nat.lt_of_lt_of_le (h.history k v hv).2 hle⟩,
    fun b hb => Nat.lt_of_lt_of_le (h.block b hb) hle⟩

theorem Lies.follow (h : t.Lies g) {hd : Handle} {step : Nat}
    (hf : t.follow hd step g = .ok (t', g')) : t'.Lies g' := by
  have hsize := (FlowGraph.alike_follow hf).size
  obtain ⟨-, rfl, rfl⟩ | ⟨stmt, id, b, -, hb, -, rfl⟩ := FlowGraph.follow_eq_ok hf
  · exact h
  · have hid : id < g'.size := hsize ▸ FlowGraph.lt_size_iff.2 ⟨b, FlowGraph.block_of_locate hb⟩
    refine ⟨fun k v hv => ?_, fun k hk => ?_⟩
    · simp only [recount, stepOn, IdMap.find?_insert] at hv
      split at hv
      next hk =>
        obtain rfl := Option.some.inj hv
        exact ⟨hk.symm, hk ▸ hid⟩
      next => exact ⟨(h.history k v hv).1, hsize ▸ (h.history k v hv).2⟩
    · obtain rfl := Option.some.inj hk
      exact hid

/-- Counting again where coverage is the same comes to the same. -/
theorem Lies.recount_eq (h : t.Lies g) (hcov : FlowGraph.SameCoverage g g') :
    t.recount g' = t.recount g := by
  have hopen : ∀ z : Bool, ∀ v ∈ t.history.values, isOpen g' z v = isOpen g z v := by
    intro z v hv
    obtain ⟨k, hk⟩ := IdMap.mem_values.1 hv
    obtain ⟨rfl, hlt⟩ := h.history k v hk
    obtain ⟨b, hb⟩ := FlowGraph.lt_size_iff.1 hlt
    obtain ⟨b', hb', hc, hz⟩ := hcov _ b hb
    simp only [isOpen, hb, hb', Option.any_some, hc, hz]
  have hcount : ∀ z : Bool,
      t.history.values.countP (isOpen g' z) = t.history.values.countP (isOpen g z) :=
    fun z => List.countP_congr fun v hv => by rw [hopen z v hv]
  simp only [recount, hcount]

end Trail

namespace Guided

variable {p p' : Guided} {g g' : FlowGraph}

-- ============================================================= sound pools

/-- A pool fits its graph: states are filed under their numbers, and it
knows of no block that the graph has not. -/
structure Sound (p : Guided) (g : FlowGraph) : Prop where
  mark : p.mark ≤ g.size
  blocks : ∀ b, b ∈ p.touchedBlocks → b < g.size
  numbered : ∀ id w, p.tracked.find? id = some w → w.handle.id = id ∧ w.trail.state = id
  lies : ∀ id w, p.tracked.find? id = some w → w.trail.Lies g

theorem sound_new (a : Adviser) (policy : Policy) (g : FlowGraph) : (new a policy).Sound g := by
  refine ⟨Nat.zero_le _, fun b hb => ?_, fun id w hw => ?_, fun id w hw => ?_⟩
  · cases hb
  · cases hw
  · cases hw

theorem Sound.mono (hp : p.Sound g) (hle : g.size ≤ g'.size) : p.Sound g' :=
  ⟨Nat.le_trans hp.mark hle, fun b hb => Nat.lt_of_lt_of_le (hp.blocks b hb) hle, hp.numbered,
    fun id w hw => (hp.lies id w hw).mono hle⟩

theorem mem_since {b mark : Nat} : b ∈ g.since mark ↔ mark ≤ b ∧ b < g.size := by
  rw [FlowGraph.since, FlowGraph.freshFrom, List.mem_range'_1]
  omega

theorem Sound.recount (hp : p.Sound g) (g' : FlowGraph) : (p.recount g').Sound g := by
  refine ⟨hp.mark, hp.blocks, fun id w hw => ?_, fun id w hw => ?_⟩
  · rw [find?_recount] at hw
    obtain ⟨w₀, hw₀, rfl⟩ := Option.map_eq_some_iff.1 hw
    exact hp.numbered id w₀ hw₀
  · rw [find?_recount] at hw
    obtain ⟨w₀, hw₀, rfl⟩ := Option.map_eq_some_iff.1 hw
    exact ⟨(hp.lies id w₀ hw₀).history, (hp.lies id w₀ hw₀).block⟩

theorem Sound.consult (hp : p.Sound g) : (p.consult g).2.Sound g := by
  have hq := hp.recount g
  cases h : (p.consult g).1.answer with
  | ok id =>
      rw [consult_of_ok h]
      refine ⟨Nat.le_refl _, fun b hb => ?_, hq.numbered, hq.lies⟩
      cases hb
  | error e =>
      rw [consult_of_error h]
      exact ⟨Nat.le_refl _, hq.blocks, hq.numbered, hq.lies⟩

theorem Sound.choose (hp : p.Sound g) (o : Option StateNo) :
    ({ p with chosen := o } : Guided).Sound g :=
  ⟨hp.mark, hp.blocks, hp.numbered, hp.lies⟩

theorem Sound.peek (hp : p.Sound g) : (peek g p).pool.Sound g := by
  obtain ⟨-, o, h⟩ | ⟨-, o, h⟩ := peek_pool g p
  · rw [h]
    exact hp.choose o
  · rw [h]
    exact hp.consult.choose o

theorem parent?_eq_some {id : StateNo} {t : Trail} (h : p.parent? = some (id, t)) :
    ∃ w, p.tracked.find? id = some w ∧ w.trail = t := by
  obtain ⟨k, -, hk⟩ := Option.bind_eq_some_iff.1 h
  obtain ⟨t', ht', heq⟩ := Option.map_eq_some_iff.1 hk
  obtain ⟨rfl, rfl⟩ := Prod.mk.inj heq
  exact Option.map_eq_some_iff.1 ht'

theorem lies_offspring {parent : Option (StateNo × Trail)} (step : Nat) (h : Handle)
    (hpar : ∀ k t, parent = some (k, t) → t.Lies g) : (offspring step parent h).Lies g := by
  cases parent with
  | none => exact Trail.lies_fresh g _ _
  | some q => exact (hpar q.1 q.2 rfl).fork _ _

theorem state_offspring (step : Nat) (parent : Option (StateNo × Trail)) (h : Handle) :
    (offspring step parent h).state = h.id := by
  cases parent <;> rfl

theorem Sound.track (hp : p.Sound g) {parent : Option (StateNo × Trail)} (step : Nat) (h : Handle)
    (hpar : ∀ k t, parent = some (k, t) → t.Lies g) : (track step parent p h).Sound g := by
  cases ht : p.tracked.contains h.id with
  | true =>
      rw [track_of_tracked ht]
      exact hp
  | false =>
      have hentry : ∀ id w, (Guided.track step parent p h).tracked.find? id = some w →
          (id = h.id ∧ w = ⟨h, offspring step parent h⟩) ∨
            ∃ w₀, p.tracked.find? id = some w₀ ∧ adopting parent h.id id w₀ = w := by
        intro id w hw
        rw [find?_track ht] at hw
        split at hw
        next hid => exact Or.inl ⟨hid, (Option.some.inj hw).symm⟩
        next => exact Or.inr (Option.map_eq_some_iff.1 hw)
      rw [track_eq]
      refine ⟨hp.mark, hp.blocks, fun id w hw => ?_, fun id w hw => ?_⟩
      · obtain ⟨rfl, rfl⟩ | ⟨w₀, hw₀, rfl⟩ := hentry id w hw
        · exact ⟨rfl, state_offspring step parent h⟩
        · unfold adopting
          split <;> exact hp.numbered id w₀ hw₀
      · obtain ⟨rfl, rfl⟩ | ⟨w₀, hw₀, rfl⟩ := hentry id w hw
        · exact lies_offspring step h hpar
        · unfold adopting
          split
          · exact ⟨(hp.lies id w₀ hw₀).history, (hp.lies id w₀ hw₀).block⟩
          · exact hp.lies id w₀ hw₀

theorem Sound.foldl_track {parent : Option (StateNo × Trail)} (step : Nat) (hs : List Handle)
    (hpar : ∀ k t, parent = some (k, t) → t.Lies g) {p : Guided} (hp : p.Sound g) :
    (hs.foldl (Guided.track step parent) p).Sound g := by
  induction hs generalizing p with
  | nil => exact hp
  | cons h rest ih => exact ih (hp.track step h hpar)

theorem Sound.takeIn (hp : p.Sound g) (hs : List Handle) (step : Nat) :
    (p.takeIn hs step g).Sound g := by
  have hpar : ∀ k t, p.parent? = some (k, t) → t.Lies g := by
    intro k t h
    obtain ⟨w, hw, rfl⟩ := parent?_eq_some h
    exact hp.lies k w hw
  have hgrown := Sound.foldl_track step hs hpar hp
  refine ⟨Nat.le_refl _, fun b hb => ?_, hgrown.numbered, hgrown.lies⟩
  rcases IdSet.mem_insertAll.1 hb with hb | hb
  · exact (mem_since.1 hb).2
  · exact hgrown.blocks b hb

theorem mem_leavings {w : Walker} {b : Nat} (hl : w.trail.Lies g) (hb : b ∈ leavings w) :
    b < g.size := by
  rcases List.mem_append.1 hb with hb | hb
  · exact hl.block b (Option.mem_toList.1 hb)
  · split at hb
    next =>
      obtain ⟨v, hv⟩ := IdMap.contains_iff.1 (IdMap.mem_keys.1 hb)
      exact (hl.history b v hv).2
    next => cases hb

theorem Sound.letGo (hp : p.Sound g) (h : Handle) : (p.letGo h g).1.Sound (p.letGo h g).2 := by
  obtain ⟨-, heq⟩ | ⟨w, ht, heq⟩ := letGo_cases p h g
  · rw [heq]
    exact hp
  · have hold : ∀ id w', (p.letGo h g).1.tracked.find? id = some w' →
        ∃ w₀, p.tracked.find? id = some w₀ ∧ parting h.id w.trail id w₀ = w' := by
      intro id w' hw'
      rw [find?_letGo ht] at hw'
      split at hw'
      next => cases hw'
      next => exact Option.map_eq_some_iff.1 hw'
    have hsize : (p.letGo h g).2.size = g.size := by
      rw [heq]
      exact (FlowGraph.alike_vacate g w.trail.state w.trail.block).size
    refine Sound.mono ⟨?_, fun b hb => ?_, fun id w' hw' => ?_, fun id w' hw' => ?_⟩
      (Nat.le_of_eq hsize.symm)
    · have hmark : (p.letGo h g).1.mark = p.mark := by rw [heq]
      rw [hmark]
      exact hp.mark
    · rw [heq] at hb
      rcases IdSet.mem_insertAll.1 hb with hb | hb
      · exact mem_leavings (hp.lies _ w ht) hb
      · exact hp.blocks b hb
    · obtain ⟨w₀, hw₀, rfl⟩ := hold id w' hw'
      unfold parting
      dsimp only
      split <;> split <;> exact hp.numbered id w₀ hw₀
    · obtain ⟨w₀, hw₀, rfl⟩ := hold id w' hw'
      have hl := hp.lies id w₀ hw₀
      unfold parting
      dsimp only
      split <;> split <;> exact ⟨hl.history, hl.block⟩

theorem mem_passage {t t' : Trail} {b : Nat} :
    b ∈ passage t t' ↔ (t.block = some b ∧ t.block ≠ t'.block) ∨ t'.block = some b := by
  unfold passage
  rw [List.mem_append, Option.mem_toList]
  by_cases h : t.block = t'.block
  · rw [if_pos h]
    simp [h]
  · rw [if_neg h, Option.mem_toList]
    simp [h]

theorem state_follow {t t' : Trail} {h : Handle} {step : Nat}
    (hf : t.follow h step g = .ok (t', g')) : t'.state = t.state := by
  obtain ⟨-, rfl, -⟩ | ⟨stmt, id, b, -, -, -, rfl⟩ := FlowGraph.follow_eq_ok hf <;> rfl

theorem Sound.followUp (hp : p.Sound g) (h : Handle) (step : Nat) :
    (p.followUp h step g).pool.Sound (p.followUp h step g).graph := by
  obtain ⟨-, heq⟩ | ⟨w, e, -, -, heq⟩ | ⟨w, t, g', ht, hf, heq⟩ := followUp_cases p h step g
  · rw [heq]
    exact hp
  · rw [heq]
    exact hp
  · rw [heq]
    have hsize := (FlowGraph.alike_follow hf).size
    have hp' : p.Sound g' := hp.mono (Nat.le_of_eq hsize.symm)
    have hl : t.Lies g' := (hp.lies _ w ht).follow hf
    have hold : ∀ id v, (p.tracked.insert h.id ⟨h, t⟩).find? id = some v →
        (id = h.id ∧ v = ⟨h, t⟩) ∨ p.tracked.find? id = some v := by
      intro id v hv
      rw [IdMap.find?_insert] at hv
      split at hv
      next hid => exact Or.inl ⟨hid, (Option.some.inj hv).symm⟩
      next => exact Or.inr hv
    refine ⟨hp'.mark, fun b hb => ?_, fun id v hv => ?_, fun id v hv => ?_⟩
    · rcases IdSet.mem_insertAll.1 hb with hb | hb
      · rcases mem_passage.1 hb with ⟨hb, -⟩ | hb
        · exact (hp'.lies _ w ht).block b hb
        · exact hl.block b hb
      · exact hp'.blocks b hb
    · rcases hold id v hv with ⟨rfl, rfl⟩ | hv
      · exact ⟨rfl, (state_follow hf).trans (hp.numbered _ w ht).2⟩
      · exact hp.numbered id v hv
    · rcases hold id v hv with ⟨rfl, rfl⟩ | hv
      · exact hl
      · exact hp'.lies id v hv

theorem Sound.tell (hp : p.Sound g) (n : Notice) (step : Nat) :
    (p.tell n step g).pool.Sound (p.tell n step g).graph := by
  cases n with
  | added hs => exact hp.takeIn hs step
  | removed h => exact hp.letGo h
  | moved h => exact hp.followUp h step

theorem Sound.act {w : Scene Guided} (hw : w.pool.Sound w.graph) (a : Act) :
    (w.act a).pool.Sound (w.act a).graph := by
  cases a with
  | peek => exact hw.peek
  | tell n step => exact hw.tell n step
  | graph a => exact hw.mono (FlowGraph.size_le_act w.graph a)

theorem sound_run {w : Scene Guided} (hw : w.pool.Sound w.graph) (as : List Act) :
    (w.run as).pool.Sound (w.run as).graph := by
  refine Scene.run_induction (P := fun w : Scene Guided => w.pool.Sound w.graph) ?_ hw as
  intro w a hw
  exact hw.act a

/-- The question that a scene's adviser is asked, and the pool after it. -/
theorem peek_of_asked {w : Scene Guided} {c : Consultation} (hc : w.peek.asked = some c) :
    c = (w.pool.consult w.graph).1 ∧
      ∃ o, (w.act .peek).pool = { (w.pool.consult w.graph).2 with chosen := o } := by
  obtain ⟨h, -⟩ | ⟨h, hpool⟩ := peek_pool w.graph w.pool
  · have hnone := h.symm.trans hc
    cases hnone
  · exact ⟨Option.some.inj (hc.symm.trans h), hpool⟩

/-- What a notice of a state that moves comes to, as it is seen from
outside. -/
theorem moved_cases (v : Scene Guided) (h : Handle) (step : Nat) :
    (v.pool.tracked.find? h.id = none ∧ (v.tell (.moved h) step).result = .ok () ∧
        v.act (.tell (.moved h) step) = v) ∨
      (∃ u e, v.pool.tracked.find? h.id = some u ∧ u.trail.follow h step v.graph = .error e ∧
        (v.tell (.moved h) step).result = .error e ∧ v.act (.tell (.moved h) step) = v) ∨
      ∃ u t g, v.pool.tracked.find? h.id = some u ∧ u.trail.follow h step v.graph = .ok (t, g) ∧
        (v.tell (.moved h) step).result = .ok () ∧
        (v.act (.tell (.moved h) step)).pool.tracked = v.pool.tracked.insert h.id ⟨h, t⟩ := by
  have hact : v.act (.tell (.moved h) step) =
      ⟨(v.pool.followUp h step v.graph).graph, (v.pool.followUp h step v.graph).pool⟩ := rfl
  have hresult : (v.tell (.moved h) step).result = (v.pool.followUp h step v.graph).result := rfl
  rw [hact, hresult]
  obtain ⟨ht, heq⟩ | ⟨u, e, ht, hf, heq⟩ | ⟨u, t, g, ht, hf, heq⟩ :=
    followUp_cases v.pool h step v.graph
  · rw [heq]
    exact Or.inl ⟨ht, rfl, rfl⟩
  · rw [heq]
    exact Or.inr (Or.inl ⟨u, e, ht, hf, rfl, rfl⟩)
  · rw [heq]
    exact Or.inr (Or.inr ⟨u, t, g, ht, hf, rfl, rfl⟩)

/-- A pool on its graph before anything has happened. -/
def opening (a : Adviser) (policy : Policy) : Scene Guided := ⟨.empty, .new a policy⟩

theorem sound_opening (a : Adviser) (policy : Policy) (as : List Act) :
    ((opening a policy).run as).pool.Sound ((opening a policy).run as).graph :=
  sound_run (sound_new a policy .empty) as

-- ============================================================ what is listed

/-- The block is noted, or new to the graph since the pool looked last. -/
def Pending (p : Guided) (g : FlowGraph) (b : Nat) : Prop :=
  b ∈ p.touchedBlocks ∨ (p.mark ≤ b ∧ b < g.size)

/-- The states that the next snapshot lists, those of them that are
tracked. -/
def listedStates (p : Guided) : List StateNo :=
  match p.nextExtent with
  | .full => p.tracked.keys
  | .delta => p.touchedStates.toList

theorem extent_snapshot (p : Guided) (g : FlowGraph) : (p.snapshot g).extent = p.nextExtent := by
  unfold snapshot
  cases p.nextExtent <;> rfl

theorem graph_snapshot (p : Guided) (g : FlowGraph) : (p.snapshot g).graph = g := by
  unfold snapshot
  cases p.nextExtent <;> rfl

theorem mem_blocks_of_full (h : p.nextExtent = .full) {b : Nat} :
    b ∈ (p.snapshot g).blocks ↔ b < g.size := by
  rw [snapshot, h]
  exact List.mem_range

theorem mem_blocks_of_delta (hp : p.Sound g) (h : p.nextExtent = .delta) {b : Nat} :
    b ∈ (p.snapshot g).blocks ↔ p.Pending g b := by
  rw [snapshot, h]
  show b ∈ IdSet.ofList _ ↔ _
  rw [IdSet.mem_ofList, List.mem_filter, decide_eq_true_eq, List.mem_append, mem_since]
  unfold Pending
  constructor
  · intro hb
    exact hb.1
  · intro hb
    exact ⟨hb, hb.elim (hp.blocks b) And.right⟩

theorem lt_size_of_mem_blocks {b : Nat} (hb : b ∈ (p.snapshot g).blocks) : b < g.size := by
  cases h : p.nextExtent with
  | full => exact (mem_blocks_of_full h).1 hb
  | delta =>
      rw [snapshot, h] at hb
      have hmem := IdSet.mem_ofList.1 (IdSet.mem_toList.1 hb)
      exact of_decide_eq_true (List.mem_filter.1 hmem).2

theorem increasing_blocks (p : Guided) (g : FlowGraph) :
    (p.snapshot g).blocks.Pairwise (· < ·) := by
  unfold snapshot
  cases p.nextExtent with
  | full => exact List.pairwise_lt_range
  | delta => exact IdSet.increasing _

theorem nodup_blocks (p : Guided) (g : FlowGraph) : (p.snapshot g).blocks.Nodup :=
  (increasing_blocks p g).imp Nat.ne_of_lt

theorem increasing_listedStates (p : Guided) : p.listedStates.Pairwise (· < ·) := by
  unfold listedStates
  cases p.nextExtent with
  | full => exact p.tracked.keys_increasing
  | delta => exact p.touchedStates.increasing

theorem nodup_listedStates (p : Guided) : p.listedStates.Nodup :=
  (increasing_listedStates p).imp Nat.ne_of_lt

/-- A full snapshot lists every tracked state, a delta those noted. -/
theorem mem_listedStates {id : StateNo} (ht : p.tracked.contains id = true) :
    id ∈ p.listedStates ↔ p.nextExtent = .full ∨ id ∈ p.touchedStates := by
  unfold listedStates
  cases p.nextExtent with
  | full => simp [IdMap.mem_keys.2 ht]
  | delta => simp [IdSet.mem_toList]

theorem trails_eq (p : Guided) : p.trails = p.tracked.keys.filterMap p.trail? := by
  have hfound : ∀ e ∈ p.tracked.entries, p.trail? e.1 = some e.2.trail := by
    intro e he
    rw [trail?, IdMap.find?_eq_some.2 he]
    rfl
  calc p.trails = p.tracked.entries.map fun e => e.2.trail := List.map_map
    _ = p.tracked.entries.filterMap fun e => some e.2.trail :=
        (congrFun List.filterMap_eq_map _).symm
    _ = p.tracked.entries.filterMap fun e => p.trail? e.1 :=
        List.filterMap_congr fun e he => (hfound e he).symm
    _ = p.tracked.keys.filterMap p.trail? := by
        rw [IdMap.keys, List.filterMap_map]
        rfl

theorem trails_snapshot (p : Guided) (g : FlowGraph) :
    (p.snapshot g).trails = p.listedStates.filterMap p.trail? := by
  unfold snapshot listedStates
  cases p.nextExtent with
  | full => exact trails_eq p
  | delta => rfl

/-- The states of a snapshot are those listed that are tracked, in their
order. -/
theorem states_snapshot (hp : p.Sound g) :
    (p.snapshot g).trails.map Trail.state = p.listedStates.filter p.tracked.contains := by
  rw [trails_snapshot, List.map_filterMap, ← List.filterMap_eq_filter]
  refine List.filterMap_congr fun k _ => ?_
  show (p.trail? k).map Trail.state = if p.tracked.contains k = true then some k else none
  unfold trail? IdMap.contains
  cases hw : p.tracked.find? k with
  | none => rfl
  | some u => exact congrArg some (hp.numbered k u hw).2

/-- The states that a snapshot shows are those listed that are tracked. -/
theorem mem_states_snapshot (hp : p.Sound g) {id : StateNo} :
    id ∈ (p.snapshot g).trails.map Trail.state ↔
      id ∈ p.listedStates ∧ p.tracked.contains id = true := by
  rw [states_snapshot hp, List.mem_filter]

-- ====================================================== nothing goes unnoticed

/-- One step of note-taking: nothing noted is forgotten, what the graph has
got since is noted when the pool looks, and a state that is not noted
afterwards was not noted before and has not changed. -/
structure Keeps (p p' : Guided) : Prop where
  adviser : p'.adviser = p.adviser
  extent : p'.nextExtent = p.nextExtent
  mark : p.mark ≤ p'.mark
  blocks : ∀ b, b ∈ p.touchedBlocks → b ∈ p'.touchedBlocks
  looked : ∀ b : Nat, p.mark ≤ b → b < p'.mark → b ∈ p'.touchedBlocks
  states : ∀ id w', p'.tracked.find? id = some w' → id ∉ p'.touchedStates →
    id ∉ p.touchedStates ∧ ∃ w, p.tracked.find? id = some w ∧ w'.trail = w.trail

theorem Keeps.refl (p : Guided) : Keeps p p :=
  ⟨rfl, rfl, Nat.le_refl _, fun _ hb => hb, fun _ hle hlt => absurd hlt (Nat.not_lt.2 hle),
    fun _ w' hw' hid => ⟨hid, w', hw', rfl⟩⟩

/-- If all are tracked already, none is taken in. -/
theorem foldl_track_of_tracked (step : Nat) (parent : Option (StateNo × Trail)) {hs : List Handle}
    (ht : ∀ h ∈ hs, p.tracked.contains h.id = true) : hs.foldl (track step parent) p = p := by
  induction hs with
  | nil => rfl
  | cons h rest ih =>
      rw [List.foldl_cons, track_of_tracked (ht h List.mem_cons_self)]
      exact ih fun x hx => ht x (List.mem_cons_of_mem h hx)

/-- A state that is not noted after others were taken in, and is not their
parent, is as it was. -/
theorem untouched_foldl_track {step : Nat} {parent : Option (StateNo × Trail)} {id : StateNo}
    {w : Walker} (hpar : parent.map Prod.fst ≠ some id) (hs : List Handle) {p : Guided}
    (hw : (hs.foldl (track step parent) p).tracked.find? id = some w)
    (hid : id ∉ (hs.foldl (track step parent) p).touchedStates) :
    id ∉ p.touchedStates ∧ p.tracked.find? id = some w := by
  induction hs generalizing p with
  | nil => exact ⟨hid, hw⟩
  | cons h rest ih =>
      obtain ⟨hid', hw'⟩ := ih hw hid
      cases ht : p.tracked.contains h.id with
      | true =>
          rw [track_of_tracked ht] at hid' hw'
          exact ⟨hid', hw'⟩
      | false =>
          rw [touchedStates_track ht, IdSet.mem_insert, not_or] at hid'
          rw [find?_track ht, if_neg hid'.1] at hw'
          obtain ⟨w₀, hw₀, rfl⟩ := Option.map_eq_some_iff.1 hw'
          refine ⟨hid'.2, hw₀.trans ?_⟩
          rw [adopting, if_neg hpar]

theorem keeps_takeIn (p : Guided) (hs : List Handle) (step : Nat) (hle : p.mark ≤ g.size) :
    Keeps p (p.takeIn hs step g) := by
  rw [takeIn_eq]
  refine ⟨rfl, rfl, hle, fun b hb => IdSet.mem_insertAll.2 (Or.inr hb),
    fun b hm hlt => IdSet.mem_insertAll.2 (Or.inl (mem_since.2 ⟨hm, hlt⟩)),
    fun id w' hw' hid => ?_⟩
  replace hid := not_or.1 (mt IdSet.mem_insertAll.2 hid)
  by_cases hall : ∀ h ∈ hs, p.tracked.contains h.id = true
  · have hsame := foldl_track_of_tracked step p.parent? hall
    rw [hsame] at hw' hid
    exact ⟨hid.2, w', hw', rfl⟩
  · have hany : (hs.any fun h => !p.tracked.contains h.id) = true := by
      obtain ⟨h, hmem⟩ := not_forall.1 hall
      obtain ⟨hmem, hnot⟩ := Classical.not_imp.1 hmem
      exact List.any_eq_true.2 ⟨h, hmem, by simp [hnot]⟩
    have hpar : p.parent?.map Prod.fst ≠ some id := by
      intro h
      rw [elders, if_pos hany, Option.mem_toList] at hid
      exact hid.1 h
    obtain ⟨hid', hw⟩ := untouched_foldl_track hpar hs hw' hid.2
    exact ⟨hid', w', hw, rfl⟩

/-- Those that lose sight of a state are all noted. -/
theorem parting_of_notMem {gone id : StateNo} {t : Trail} (h : id ∉ kin t) (w : Walker) :
    parting gone t id w = w := by
  obtain ⟨hpar, hchild⟩ := not_or.1 (mt mem_kin.2 h)
  simp only [parting, if_neg hpar]
  exact if_neg hchild

theorem keeps_letGo (p : Guided) (h : Handle) : Keeps p (p.letGo h g).1 := by
  obtain ⟨-, heq⟩ | ⟨w, ht, heq⟩ := letGo_cases p h g
  · rw [heq]
    exact Keeps.refl p
  · have hmark : (p.letGo h g).1.mark = p.mark := by rw [heq]
    refine ⟨?_, ?_, Nat.le_of_eq hmark.symm, fun b hb => ?_, fun b hm hlt => ?_,
      fun id w' hw' hid => ?_⟩
    · rw [heq]
    · rw [heq]
      rfl
    · rw [heq]
      exact IdSet.mem_insertAll.2 (Or.inr hb)
    · rw [hmark] at hlt
      exact absurd hlt (Nat.not_lt.2 hm)
    · rw [find?_letGo ht] at hw'
      split at hw'
      next => cases hw'
      next hne =>
        obtain ⟨w₀, hw₀, rfl⟩ := Option.map_eq_some_iff.1 hw'
        have hstays : (p.tracked.erase h.id).contains id = true := by
          rw [IdMap.contains_iff]
          exact ⟨w₀, by rw [IdMap.find?_erase, if_neg hne, hw₀]⟩
        rw [heq] at hid
        have hnot : ¬ (id ∈ (kin w.trail).filter (p.tracked.erase h.id).contains ∨
            id ∈ p.touchedStates) := fun hor =>
          hid (IdSet.mem_erase.2 ⟨IdSet.mem_insertAll.2 hor, hne⟩)
        obtain ⟨hkin, hid⟩ := not_or.1 hnot
        refine ⟨hid, w₀, hw₀, ?_⟩
        rw [parting_of_notMem fun hmem => hkin (List.mem_filter.2 ⟨hmem, hstays⟩)]

theorem keeps_followUp (p : Guided) (h : Handle) (step : Nat) :
    Keeps p (p.followUp h step g).pool := by
  obtain ⟨-, heq⟩ | ⟨w, e, -, -, heq⟩ | ⟨w, t, g', -, -, heq⟩ := followUp_cases p h step g
  · rw [heq]
    exact Keeps.refl p
  · rw [heq]
    exact Keeps.refl p
  · rw [heq]
    refine ⟨rfl, rfl, Nat.le_refl _, fun b hb => IdSet.mem_insertAll.2 (Or.inr hb),
      fun b hm hlt => absurd hlt (Nat.not_lt.2 hm), fun id w' hw' hid => ?_⟩
    obtain ⟨hne, hid⟩ := not_or.1 (mt IdSet.mem_insert.2 hid)
    rw [IdMap.find?_insert, if_neg hne] at hw'
    exact ⟨hid, w', hw', rfl⟩

/-- Every notice is a step of note-taking. -/
theorem Sound.keeps_tell (hp : p.Sound g) (n : Notice) (step : Nat) :
    Keeps p (p.tell n step g).pool := by
  cases n with
  | added hs => exact keeps_takeIn p hs step hp.mark
  | removed h => exact keeps_letGo p h
  | moved h => exact keeps_followUp p h step

/-- A notice moves states about in the graph and makes no block. -/
theorem alike_tell (p : Guided) (n : Notice) (step : Nat) (g : FlowGraph) :
    FlowGraph.Alike g (p.tell n step g).graph := by
  cases n with
  | added hs => exact FlowGraph.Alike.refl g
  | removed h =>
      show FlowGraph.Alike g (p.letGo h g).2
      obtain ⟨-, heq⟩ | ⟨w, -, heq⟩ := letGo_cases p h g
      · rw [heq]
        exact FlowGraph.Alike.refl g
      · rw [heq]
        exact FlowGraph.alike_vacate g w.trail.state w.trail.block
  | moved h =>
      show FlowGraph.Alike g (p.followUp h step g).graph
      obtain ⟨-, heq⟩ | ⟨w, e, -, -, heq⟩ | ⟨w, t, g', -, hf, heq⟩ := followUp_cases p h step g
      · rw [heq]
        exact FlowGraph.Alike.refl g
      · rw [heq]
        exact FlowGraph.Alike.refl g
      · rw [heq]
        exact FlowGraph.alike_follow hf

/-- A notice changes no block that it does not note. -/
theorem marked_tell (p : Guided) (n : Notice) (step : Nat) (g : FlowGraph) :
    FlowGraph.Marked (· ∈ (p.tell n step g).pool.touchedBlocks) g (p.tell n step g).graph := by
  cases n with
  | added hs => exact FlowGraph.Marked.refl _ g
  | removed h =>
      show FlowGraph.Marked (· ∈ (p.letGo h g).1.touchedBlocks) g (p.letGo h g).2
      obtain ⟨-, heq⟩ | ⟨w, -, heq⟩ := letGo_cases p h g
      · rw [heq]
        exact FlowGraph.Marked.refl _ g
      · rw [heq]
        refine FlowGraph.marked_vacate g _ fun id hid => IdSet.mem_insertAll.2 (Or.inl ?_)
        exact List.mem_append_left _ (Option.mem_toList.2 hid)
  | moved h =>
      show FlowGraph.Marked (· ∈ (p.followUp h step g).pool.touchedBlocks) g
        (p.followUp h step g).graph
      obtain ⟨-, heq⟩ | ⟨w, e, -, -, heq⟩ | ⟨w, t, g', -, hf, heq⟩ := followUp_cases p h step g
      · rw [heq]
        exact FlowGraph.Marked.refl _ g
      · rw [heq]
        exact FlowGraph.Marked.refl _ g
      · rw [heq]
        refine FlowGraph.marked_follow hf (fun id hid hne => ?_) fun id hid => ?_
        · exact IdSet.mem_insertAll.2 (Or.inl (mem_passage.2 (Or.inl ⟨hid, hne⟩)))
        · exact IdSet.mem_insertAll.2 (Or.inl (mem_passage.2 (Or.inr hid)))

end Guided

end SymbolicSearch
