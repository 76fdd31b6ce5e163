/-
Who stands where. A pool and its graph both know it: a trail names the
block that its state stands in, and a block lists the states that stand
in it. As long as nothing else moves states on the graph, the two agree
(`occupants_exact`).

# What moves a state

Blocks that come in are empty, and neither relations nor coverage touch
the lists (`hosts_act`). Of what a pool is told, only a state that goes
and a state that moves change who stands where, and each changes both
sides alike (`Exact.letGo`, `Exact.followUp`).
-/
import SymbolicSearch.Proofs.Guided.Notes

namespace SymbolicSearch

namespace FlowGraph

variable {g g' : FlowGraph} {b id : BlockNo} {s x : StateNo}

-- ================================================================ the lists

/-- A block of the graph lists a state among those that stand in it. -/
def Hosts (g : FlowGraph) (b : BlockNo) (s : StateNo) : Prop :=
  ∃ B, g.blocks[b]? = some B ∧ s ∈ B.occupants

theorem Hosts.lt_size (h : g.Hosts b s) : b < g.size := by
  obtain ⟨B, hB, -⟩ := h
  exact lt_size_iff.2 ⟨B, hB⟩

theorem hosts_modifyBlock {f : Block → Block} :
    (g.modifyBlock id f).Hosts b x ↔
      ∃ B, g.blocks[b]? = some B ∧ x ∈ (if id = b then f B else B).occupants := by
  unfold Hosts modifyBlock
  rw [Array.getElem?_modify]
  by_cases h : id = b
  · simp [h]
  · simp [h]

theorem hosts_mapBlocks {f : Block → Block} (hf : ∀ B, (f B).occupants = B.occupants) :
    (g.mapBlocks f).Hosts b x ↔ g.Hosts b x := by
  simp [Hosts, mapBlocks, hf]

/-- A change of anything but the list changes no list. -/
theorem hosts_modifyBlock_of_same {f : Block → Block} (hf : ∀ B, (f B).occupants = B.occupants) :
    (g.modifyBlock id f).Hosts b x ↔ g.Hosts b x := by
  rw [hosts_modifyBlock]
  by_cases h : id = b
  · simp [h, hf, Hosts]
  · simp [h, Hosts]

theorem hosts_vacate {block : Option BlockNo} :
    (Trail.vacate s block g).Hosts b x ↔ g.Hosts b x ∧ ¬ (x = s ∧ block = some b) := by
  cases block with
  | none => simp [Trail.vacate]
  | some id =>
      show (g.modifyBlock id _).Hosts b x ↔ _
      rw [hosts_modifyBlock]
      by_cases h : id = b
      · simp [h, Hosts, ← and_assoc]
      · simp [h, Hosts]

theorem hosts_trodden {i : Nat} (hid : id < g.size) :
    (g.modifyBlock id (Trail.trodden s i)).Hosts b x ↔ g.Hosts b x ∨ (x = s ∧ b = id) := by
  rw [hosts_modifyBlock]
  by_cases h : id = b
  · subst h
    obtain ⟨B, hB⟩ := lt_size_iff.1 hid
    simp [Hosts, hB, Trail.trodden, or_comm]
  · simp [h, Hosts, Ne.symm h]

/-- When a state is followed, it is taken off the list of its block and
put on the list of the block it comes to. -/
theorem hosts_arrival {t : Trail} {i : Nat} (hid : id < g.size)
    (ht : ∀ b, g.Hosts b t.state ↔ t.block = some b) :
    (g.arrival t id i).Hosts b x ↔ if x = t.state then b = id else g.Hosts b x := by
  unfold arrival
  by_cases hblock : t.block = some id
  · rw [if_pos hblock, hosts_trodden hid]
    by_cases hx : x = t.state
    · subst hx
      simp [ht, hblock, eq_comm]
    · simp [hx]
  · have hsize : id < (Trail.vacate t.state t.block g).size := by
      rw [(alike_vacate g t.state t.block).size]
      exact hid
    rw [if_neg hblock, hosts_trodden hsize, hosts_vacate]
    by_cases hx : x = t.state
    · subst hx
      simp [ht]
    · simp [hx]

-- ============================================================ other changes

/-- Blocks that come in are empty. -/
theorem hosts_install (r : Routine) : (g.install r).Hosts b x ↔ g.Hosts b x := by
  by_cases hb : b < g.size
  · unfold Hosts
    rw [getElem?_install_of_lt hb]
  · obtain ⟨k, rfl⟩ := Nat.exists_eq_add_of_le (Nat.le_of_not_lt hb)
    refine iff_of_false (fun h => ?_) (fun h => hb h.lt_size)
    obtain ⟨B, hB, hx⟩ := h
    rw [getElem?_install_add] at hB
    obtain ⟨t, -, rfl⟩ := Option.map_eq_some_iff.1 hB
    exact IdSet.not_mem_empty x hx

theorem hosts_enlarge (o : Option Routine) : (g.enlarge o).Hosts b x ↔ g.Hosts b x := by
  cases o with
  | none => exact Iff.rfl
  | some r => exact hosts_install r

theorem hosts_linkAll (es : List Edge) : (g.linkAll es).Hosts b x ↔ g.Hosts b x := by
  unfold Hosts
  rw [linkAll_blocks]

theorem hosts_enterZone (m : MethodNo) : (g.enterZone m).Hosts b x ↔ g.Hosts b x := by
  apply enterZone_induction (P := fun g' => g'.Hosts b x ↔ g.Hosts b x) m
  · exact Iff.rfl
  · intro g' id h
    refine Iff.trans ?_ h
    apply hosts_modifyBlock_of_same
    intro B
    rfl

/-- The act moves no state. -/
def Act.isStill : Act → Bool
  | .follow _ _ _ => false
  | .leave _ => false
  | _ => true

/-- What moves no state changes no list. -/
theorem hosts_act {a : Act} (ha : a.isStill = true) : (g.act a).Hosts b x ↔ g.Hosts b x := by
  cases a with
  | register r =>
      show (g.register r).Hosts b x ↔ _
      unfold register
      split
      · exact Iff.rfl
      · exact hosts_install r
  | discover load m =>
      simp only [act]
      cases hd : g.discover load m with
      | error e => exact Iff.rfl
      | ok g' =>
          rw [discover_eq_ok hd]
          exact hosts_enlarge _
  | observe load site back entry =>
      show (g.observe load site back entry).1.Hosts b x ↔ _
      rw [observe_fst, hosts_linkAll, hosts_enlarge]
  | enterZone m => exact hosts_enterZone m
  | clearZone => exact hosts_mapBlocks fun _ => rfl
  | cover i => exact hosts_modifyBlock_of_same fun _ => rfl
  | uncover => exact hosts_mapBlocks fun _ => rfl
  | follow t h step => cases ha
  | leave t => cases ha

end FlowGraph

/-- Acts of a pool that is the only one to move states on its graph. -/
def Act.isSole : Act → Bool
  | .graph a => a.isStill
  | _ => true

namespace Guided

variable {p : Guided} {g : FlowGraph}

-- =============================================================== the trails

/-- The block that a tracked state stands in, once it has moved. -/
def block? (p : Guided) (id : StateNo) : Option BlockNo := (p.trail? id).bind (·.block)

theorem block?_of_tracked {id : StateNo} {w : Walker} (hw : p.tracked.find? id = some w) :
    p.block? id = w.trail.block := by
  rw [block?, trail?, hw]
  rfl

theorem block?_of_not_tracked {id : StateNo} (hw : p.tracked.find? id = none) :
    p.block? id = none := by
  rw [block?, trail?, hw]
  rfl

/-- Whatever is done to the trails of tracked states without moving them
leaves them where they stand. -/
theorem block?_map {p' : Guided} {id : StateNo} {f : Walker → Walker}
    (hfind : p'.tracked.find? id = (p.tracked.find? id).map f)
    (hf : ∀ w, (f w).trail.block = w.trail.block) : p'.block? id = p.block? id := by
  simp only [block?, trail?, hfind, Option.map_map, Option.bind_map]
  exact Option.bind_congr fun w _ => hf w

/-- A state that is taken in stands nowhere yet. -/
theorem block?_track (step : Nat) (parent : Option (StateNo × Trail)) (p : Guided) (h : Handle)
    (id : StateNo) : (track step parent p h).block? id = p.block? id := by
  cases ht : p.tracked.contains h.id with
  | true => rw [track_of_tracked ht]
  | false =>
      have hfind : (track step parent p h).tracked.find? id = _ := find?_track ht id
      by_cases hid : id = h.id
      · rw [if_pos hid] at hfind
        rw [block?_of_tracked hfind, block?_of_not_tracked (hid ▸ IdMap.contains_eq_false.1 ht)]
        cases parent <;> rfl
      · rw [if_neg hid] at hfind
        refine block?_map hfind fun w => ?_
        unfold adopting
        split <;> rfl

theorem block?_takeIn (p : Guided) (hs : List Handle) (step : Nat) (g : FlowGraph)
    (id : StateNo) : (p.takeIn hs step g).block? id = p.block? id := by
  have hfold : ∀ (parent : Option (StateNo × Trail)) (p : Guided),
      (hs.foldl (track step parent) p).block? id = p.block? id := by
    intro parent
    induction hs with
    | nil => exact fun p => rfl
    | cons h rest ih =>
        intro p
        rw [List.foldl_cons, ih, block?_track]
  rw [takeIn_eq]
  exact hfold p.parent? p

theorem block?_letGo {h : Handle} {w : Walker} (ht : p.tracked.find? h.id = some w)
    (id : StateNo) :
    (p.letGo h g).1.block? id = if id = h.id then none else p.block? id := by
  have hfind := find?_letGo (g := g) ht id
  by_cases hid : id = h.id
  · rw [if_pos hid] at hfind
    rw [if_pos hid, block?_of_not_tracked hfind]
  · rw [if_neg hid] at hfind
    rw [if_neg hid]
    refine block?_map hfind fun v => ?_
    unfold parting
    dsimp only
    split <;> split <;> rfl

theorem block?_peek (g : FlowGraph) (p : Guided) (id : StateNo) :
    (peek g p).pool.block? id = p.block? id := by
  obtain ⟨-, o, h⟩ | ⟨-, o, h⟩ := peek_pool g p
  · rw [h]
    rfl
  · rw [h]
    exact block?_map (find?_consult p g id) fun _ => rfl

-- ================================================================ agreement

/-- A block lists a state just if the state is tracked and its trail
stands in that block. -/
def Exact (p : Guided) (g : FlowGraph) : Prop := ∀ b s, g.Hosts b s ↔ p.block? s = some b

theorem Exact.letGo (he : p.Exact g) (hp : p.Sound g) (h : Handle) :
    (p.letGo h g).1.Exact (p.letGo h g).2 := by
  intro b s
  obtain ⟨-, heq⟩ | ⟨w, ht, heq⟩ := letGo_cases p h g
  · rw [heq]
    exact he b s
  · have hstate : w.trail.state = h.id := (hp.numbered _ w ht).2
    have hgraph : (p.letGo h g).2 = Trail.vacate h.id w.trail.block g := by
      rw [heq, ← hstate]
      rfl
    rw [hgraph, FlowGraph.hosts_vacate, block?_letGo ht, he b s]
    by_cases hs : s = h.id
    · subst hs
      simp [block?_of_tracked ht]
    · simp [hs]

theorem Exact.followUp (he : p.Exact g) (hp : p.Sound g) (h : Handle) (step : Nat) :
    (p.followUp h step g).pool.Exact (p.followUp h step g).graph := by
  intro b s
  obtain ⟨-, heq⟩ | ⟨w, e, -, -, heq⟩ | ⟨w, t, g', ht, hf, heq⟩ := followUp_cases p h step g
  · rw [heq]
    exact he b s
  · rw [heq]
    exact he b s
  · -- the state's own trail is replaced, every other one stays
    have hother : (p.followUp h step g).pool.block? s =
        if s = h.id then t.block else p.block? s := by
      rw [heq, block?, trail?, IdMap.find?_insert]
      split
      · rfl
      · rfl
    have hstate : w.trail.state = h.id := (hp.numbered _ w ht).2
    have hown : ∀ b, g.Hosts b w.trail.state ↔ w.trail.block = some b := by
      intro b
      rw [he, hstate, block?_of_tracked ht]
    rw [hother, heq]
    obtain ⟨-, rfl, rfl⟩ | ⟨stmt, id, B, -, hB, rfl, rfl⟩ := FlowGraph.follow_eq_ok hf
    · -- the state has executed nothing
      by_cases hs : s = h.id
      · rw [if_pos hs, hs, ← hstate]
        exact hown b
      · rw [if_neg hs]
        exact he b s
    · have hid : id < g.size := FlowGraph.lt_size_iff.2 ⟨B, FlowGraph.block_of_locate hB⟩
      show (g.arrival w.trail id stmt.site.index).Hosts b s ↔ _
      rw [FlowGraph.hosts_arrival hid hown, hstate]
      by_cases hs : s = h.id
      · rw [if_pos hs, if_pos hs]
        exact ⟨fun hb => hb ▸ rfl, fun hb => (Option.some.inj hb).symm⟩
      · rw [if_neg hs, if_neg hs]
        exact he b s

theorem Exact.act {w : Scene Guided} (he : w.pool.Exact w.graph) (hw : w.pool.Sound w.graph)
    {a : Act} (ha : a.isSole = true) : (w.act a).pool.Exact (w.act a).graph := by
  cases a with
  | peek =>
      intro b s
      show w.graph.Hosts b s ↔ (peek w.graph w.pool).pool.block? s = some b
      rw [block?_peek]
      exact he b s
  | tell n step =>
      cases n with
      | added hs =>
          intro b s
          show w.graph.Hosts b s ↔ (w.pool.takeIn hs step w.graph).block? s = some b
          rw [block?_takeIn]
          exact he b s
      | removed h => exact he.letGo hw h
      | moved h => exact he.followUp hw h step
  | graph a =>
      intro b s
      show (w.graph.act a).Hosts b s ↔ w.pool.block? s = some b
      rw [FlowGraph.hosts_act ha]
      exact he b s

theorem exact_opening (a : Adviser) (policy : Policy) :
    (opening a policy).pool.Exact (opening a policy).graph := by
  intro b s
  refine iff_of_false (fun h => ?_) (fun h => ?_)
  · exact Nat.not_lt_zero b h.lt_size
  · cases h

/-- However a pool is asked and told and its graph grows and is covered, as
long as nothing else moves states there: a block lists a state just if the
state is tracked and stands in that block. So no state is in two blocks,
and no block lists a state when none is tracked. -/
theorem occupants_exact (a : Adviser) (policy : Policy) (as : List Act)
    (hsole : ∀ x ∈ as, x.isSole = true) :
    (∀ b s, ((opening a policy).run as).graph.Hosts b s ↔
        ((opening a policy).run as).pool.block? s = some b) ∧
      (∀ b b' s, ((opening a policy).run as).graph.Hosts b s →
        ((opening a policy).run as).graph.Hosts b' s → b = b') ∧
      (((opening a policy).run as).pool.tracked.isEmpty = true →
        ∀ (b : BlockNo) B, ((opening a policy).run as).graph.blocks[b]? = some B →
          B.occupants = ∅) := by
  have hrun : ((opening a policy).run as).pool.Sound ((opening a policy).run as).graph ∧
      ((opening a policy).run as).pool.Exact ((opening a policy).run as).graph := by
    refine Scene.run_induction_of
      (P := fun w : Scene Guided => w.pool.Sound w.graph ∧ w.pool.Exact w.graph)
      (fun w x hx hw => ⟨hw.1.act x, hw.2.act hw.1 hx⟩) ?_ hsole
    exact ⟨sound_new a policy .empty, exact_opening a policy⟩
  obtain ⟨-, he⟩ := hrun
  refine ⟨he, fun b b' s hb hb' => ?_, fun hempty b B hB => ?_⟩
  · rw [he] at hb hb'
    exact Option.some.inj (hb.symm.trans hb')
  · apply IdSet.ext_mem
    intro s
    refine iff_of_false (fun hs => ?_) (IdSet.not_mem_empty s)
    have hblock := (he b s).1 ⟨B, hB, hs⟩
    have hnone : ((opening a policy).run as).pool.tracked.find? s = none := by
      rw [IdMap.find?, List.isEmpty_iff.1 hempty]
      rfl
    rw [block?_of_not_tracked hnone] at hblock
    cases hblock

/-- Two states come in and move. One goes on into the next block and is
then reported where there is none; the other goes and comes in again. -/
def bustle : List Act :=
  [.graph (.register (looping 0)), .tell (.added [standing 0 0 0, standing 1 0 0]) 0,
    .tell (.moved (standing 0 0 1)) 1, .tell (.moved (standing 1 0 1)) 1, .peek,
    .tell (.moved (standing 0 0 2)) 2, .tell (.moved (standing 0 5 0)) 3, .graph (.cover 0),
    .tell (.removed (standing 1 0 1)) 4, .tell (.added [standing 1 0 0]) 5]

theorem occupants_exact_bustle :
    (∀ x ∈ bustle, x.isSole = true) ∧
      ((opening (.oracle (.live (fun _ => .ok 0) [])) .auto).run bustle).graph.Hosts 1 0 ∧
      ¬ ((opening (.oracle (.live (fun _ => .ok 0) [])) .auto).run bustle).graph.Hosts 0 0 ∧
      ¬ ((opening (.oracle (.live (fun _ => .ok 0) [])) .auto).run bustle).graph.Hosts 0 1 := by
  have hexact := (occupants_exact (.oracle (.live (fun _ => .ok 0) [])) .auto bustle (by decide)).1
  exact ⟨by decide, (hexact 1 0).2 (by decide), mt (hexact 0 0).1 (by decide),
    mt (hexact 0 1).1 (by decide)⟩

end Guided

end SymbolicSearch
