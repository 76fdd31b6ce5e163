/-
What an adviser is told of a state's history is never out of date. The
counters of a trail are copied when a state forks, and worked out when it
moves; in between coverage may change at any moment, and a state may never
move at all. Yet whatever is shown to an adviser has the counters that the
history comes to at that moment (`counters_current`).

# Counting blocks

A trail counts its visits by looking at the block of each. `Counted` says
the same of the blocks themselves: those of the graph that are in the
history. The two agree because a visit is filed under its block and a block
under its place, so neither is met twice (`Lies.countP_isOpen`).
-/
import SymbolicSearch.Proofs.Exchange
import SymbolicSearch.Proofs.Guided.Choice
import SymbolicSearch.Proofs.Guided.Failure
import SymbolicSearch.Proofs.Ranking.Retelling

namespace SymbolicSearch

open Binary

-- ================================================================ counting

/-- The blocks in a trail's history that are uncovered, inside the zone or
outside it. -/
def FlowGraph.openBlocks (g : FlowGraph) (t : Trail) (inZone : Bool) : List Block :=
  g.blocks.toList.filter fun b => t.history.contains b.id && (!b.covered && b.inZone == inZone)

/-- Blocks stand at the places of their numbers. -/
theorem FlowGraph.Closed.map_id_blocks {g : FlowGraph} (hg : g.Closed) :
    g.blocks.toList.map Block.id = List.range g.size := by
  refine List.ext_getElem (by simp [size]) fun i hi hi' => ?_
  have hlt : i < g.blocks.size := by simpa using hi
  rw [List.getElem_map, List.getElem_range]
  exact hg.numbered i _ (Array.getElem?_eq_getElem hlt)

namespace Trail

variable {t : Trail} {g : FlowGraph}

/-- Three numbers are what a trail's history comes to on a graph: the
blocks visited more than once, and the uncovered ones inside and outside
the zone. -/
structure Counted (t : Trail) (g : FlowGraph) (again inside outside : Nat) : Prop where
  again : again = (t.history.values.filter (1 < ·.count)).length
  inside : inside = (g.openBlocks t true).length
  outside : outside = (g.openBlocks t false).length

/-- Visits are filed under their blocks. -/
theorem Lies.map_block_values (h : t.Lies g) :
    t.history.values.map Visit.block = t.history.keys := by
  rw [IdMap.values, IdMap.keys, List.map_map]
  exact List.map_congr_left fun e he => (h.history e.1 e.2 (IdMap.find?_eq_some.2 he)).1

theorem isOpen_iff {inZone : Bool} {v : Visit} :
    isOpen g inZone v = true ↔
      ∃ b, g.blocks[v.block]? = some b ∧ (!b.covered && b.inZone == inZone) = true := by
  rw [isOpen]
  cases g.blocks[v.block]? <;> simp

/-- The open blocks that have been visited are the open ones in the
history. -/
theorem Lies.mem_open (h : t.Lies g) (hg : g.Closed) {inZone : Bool} {k : Nat} :
    k ∈ (t.history.values.filter (isOpen g inZone)).map Visit.block ↔
      k ∈ (g.openBlocks t inZone).map Block.id := by
  simp only [List.mem_map, List.mem_filter, FlowGraph.openBlocks, isOpen_iff]
  constructor
  · rintro ⟨v, ⟨hv, b, hb, hopen⟩, rfl⟩
    obtain ⟨k, hk⟩ := IdMap.mem_values.1 hv
    have hid : b.id = v.block := hg.numbered _ b hb
    have hin : t.history.contains b.id = true := by
      rw [hid, (h.history k v hk).1]
      exact IdMap.contains_iff.2 ⟨v, hk⟩
    exact ⟨b, ⟨Array.mem_toList_iff.2 (Array.mem_of_getElem? hb), by rw [hin, hopen]; rfl⟩, hid⟩
  · rintro ⟨b, ⟨hb, hboth⟩, rfl⟩
    obtain ⟨hin, hopen⟩ := Bool.and_eq_true_iff.1 hboth
    obtain ⟨v, hv⟩ := IdMap.contains_iff.1 hin
    have hblock : v.block = b.id := (h.history _ v hv).1
    obtain ⟨i, hi⟩ := Array.mem_iff_getElem?.1 (Array.mem_toList_iff.1 hb)
    have hid : b.id = i := hg.numbered i b hi
    exact ⟨v, ⟨IdMap.mem_values.2 ⟨_, hv⟩, b, by rw [hblock, hid, hi], hopen⟩, hblock⟩

theorem Lies.countP_isOpen (h : t.Lies g) (hg : g.Closed) (inZone : Bool) :
    t.history.values.countP (isOpen g inZone) = (g.openBlocks t inZone).length := by
  have hvisits : ((t.history.values.filter (isOpen g inZone)).map Visit.block).Nodup := by
    refine (List.filter_sublist.map Visit.block).nodup ?_
    rw [h.map_block_values]
    exact t.history.keys_increasing.imp Nat.ne_of_lt
  have hblocks : ((g.openBlocks t inZone).map Block.id).Nodup := by
    refine (List.filter_sublist.map Block.id).nodup ?_
    rw [hg.map_id_blocks]
    exact List.nodup_range
  have hperm := (List.perm_ext_iff_of_nodup hvisits hblocks).2 fun _ => h.mem_open hg
  have hlength := hperm.length_eq
  rwa [List.length_map, List.length_map, ← List.countP_eq_length_filter] at hlength

/-- A trail whose counters have just been worked out is counted. -/
theorem Lies.counted_recount (h : t.Lies g) (hg : g.Closed) :
    t.Counted g (t.recount g).again (t.recount g).openInZone (t.recount g).openOutside :=
  ⟨List.countP_eq_length_filter, h.countP_isOpen hg true, h.countP_isOpen hg false⟩

end Trail

-- ========================================================== what is shown

/-- Every state that a report lists is tracked, and is listed with its
history and with the counters that it comes to. -/
def Report.Current (r : Report) (p : Guided) (g : FlowGraph) : Prop :=
  ∀ s ∈ r.states, ∃ t, p.trail? s.id = some t ∧ s.history = t.history.values ∧
    t.Counted g s.again s.openInZone s.openOutside

/-- A table of states has one row for each tracked state, in the order of
their numbers, with the counters that its history comes to in the third,
the fourth and the fifth column. -/
def Ranking.Current (inputs : NamedTensors) (p : Guided) (g : FlowGraph) : Prop :=
  ∃ rows, (inputs.lookup "state_vertex").bind Tensor.rows? = some rows ∧
    List.Forall₂ (fun id row => ∃ t again inside outside, p.trail? id = some t ∧
      t.Counted g again inside outside ∧ row[2]? = some (Single.ofNat again) ∧
      row[3]? = some (Single.ofNat inside) ∧ row[4]? = some (Single.ofNat outside))
      p.tracked.keys rows

/-- Whatever an adviser is shown has the counters of the moment. -/
def Shown.Current (p : Guided) (g : FlowGraph) : Shown → Prop
  | .inputs l => Ranking.Current l p g
  | .report r => r.Current p g
  | .line text => ∃ r, text = requestLine r ∧ r.Current p g

/-- An adviser is shown a ranking of the snapshot, if it is a model, or else
its report, as it is or as a line. -/
theorem Adviser.shown_cases {a : Adviser} {s : Snapshot} {x : Shown}
    (hx : (a.consult s).1.shown = some x) :
    ((∃ m, a = .model m) ∧ x = .inputs (Ranking.ofSnapshot s).inputs) ∨
      x = .report (.ofSnapshot s) ∨ x = .line (requestLine (.ofSnapshot s)) := by
  cases a with
  | model m => exact Or.inl ⟨⟨m, rfl⟩, (Option.some.inj hx).symm⟩
  | oracle o =>
      right
      cases o with
      | live reply told => exact Or.inl (Option.some.inj hx).symm
      | remote d =>
          right
          have hsent : (d.ask (.ofSnapshot s)).sent.map Shown.line = some x := hx
          obtain hnone | hsome := sent_ask d (.ofSnapshot s)
          · rw [hnone] at hsent
            cases hsent
          · rw [hsome] at hsent
            exact (Option.some.inj hsent).symm

namespace Guided

variable {p : Guided} {g : FlowGraph}

/-- A state that is shown is shown with its trail, counted. -/
theorem Sound.of_mem_trails (hp : p.Sound g) {t : Trail}
    (ht : t ∈ ((p.recount g).snapshot g).trails) :
    ∃ t₀, p.trail? t.state = some t₀ ∧ t = t₀.recount g ∧ t₀.Lies g := by
  rw [trails_snapshot] at ht
  obtain ⟨id, -, hid⟩ := List.mem_filterMap.1 ht
  rw [trail?, find?_recount, Option.map_map] at hid
  obtain ⟨w, hw, rfl⟩ := Option.map_eq_some_iff.1 hid
  have hstate : w.trail.state = id := (hp.numbered id w hw).2
  refine ⟨w.trail, ?_, rfl, hp.lies id w hw⟩
  show p.trail? w.trail.state = _
  rw [hstate, trail?, hw]
  rfl

theorem Sound.current_report (hp : p.Sound g) (hg : g.Closed) :
    (Report.ofSnapshot ((p.recount g).snapshot g)).Current p g := by
  intro s hs
  obtain ⟨t, ht, rfl⟩ := List.mem_map.1 hs
  obtain ⟨t₀, hfound, rfl, hlies⟩ := hp.of_mem_trails ht
  exact ⟨t₀, hfound, rfl, hlies.counted_recount hg⟩

/-- A full ranking has a row for every state. -/
theorem Sound.current_inputs (hp : p.Sound g) (hg : g.Closed) (hfull : p.nextExtent = .full) :
    Ranking.Current (Ranking.ofSnapshot ((p.recount g).snapshot g)).inputs p g := by
  refine ⟨_, Tensor.rows?_ofRows (Ranking.length_stateFeatures _), ?_⟩
  have hkeys : p.tracked.keys = ((p.recount g).snapshot g).trails.map Trail.state := by
    have hfull' : (p.recount g).nextExtent = .full := hfull
    rw [← keys_recount p g, ← states_trails (hp.recount g), snapshot, hfull']
    rfl
  rw [hkeys]
  show List.Forall₂ _ _ (((p.recount g).snapshot g).trails.map (Ranking.stateFeatures _))
  rw [List.forall₂_map_left_iff, List.forall₂_map_right_iff, List.forall₂_same]
  intro t ht
  obtain ⟨t₀, hfound, rfl, hlies⟩ := hp.of_mem_trails ht
  exact ⟨t₀, _, _, _, hfound, hlies.counted_recount hg, rfl, rfl, rfl⟩

/-- Whatever an adviser is shown is shown with the counters of the moment. -/
theorem Sound.current_consult (hp : p.Sound g) (hg : g.Closed) {x : Shown}
    (hx : (p.consult g).1.shown = some x) : x.Current p g := by
  rw [consult_fst] at hx
  obtain ⟨⟨m, hm⟩, rfl⟩ | rfl | rfl := Adviser.shown_cases hx
  · refine hp.current_inputs hg ?_
    rw [nextExtent, if_pos]
    exact Or.inr (Or.inl (by rw [hm]; rfl))
  · exact hp.current_report hg
  · exact ⟨_, rfl, hp.current_report hg⟩

/-- At every moment of every run, whatever the adviser and the policy, all
that the adviser is shown has the counters that the histories come to at
that moment. -/
theorem counters_current (a : Adviser) (policy : Policy) (as : List Act) {c : Consultation}
    {x : Shown} (hc : ((opening a policy).run as).peek.asked = some c) (hx : c.shown = some x) :
    x.Current ((opening a policy).run as).pool ((opening a policy).run as).graph := by
  obtain ⟨rfl, -⟩ := peek_of_asked hc
  exact (sound_opening a policy as).current_consult (closed_opening a policy as) hx

/-- A state goes round a loop, once and again, and out of it into another
method. The oracle is asked, and the state forks. -/
def roundabout : List Act :=
  [.graph (.register (looping 0)), .graph (.register (looping 1)),
    .tell (.added [standing 0 0 0, standing 1 0 0]) 0, .tell (.moved (standing 0 0 0)) 1,
    .tell (.moved (standing 0 0 0)) 2, .tell (.moved (standing 0 0 2)) 3,
    .tell (.moved (standing 0 1 0)) 4, .peek, .tell (.added [standing 2 0 0]) 5]

/-- Behind the pool's back a zone is entered and a block covered. -/
def behindItsBack : List Act := [.graph (.enterZone 0), .graph (.cover 0)]

def roundaboutEnd : Scene Guided :=
  (opening (.oracle loyal) .auto).run (roundabout ++ behindItsBack)

def roundaboutQuestion : Consultation := roundaboutEnd.peek.asked.get (by decide)

/-- The fork has never moved, and its trail still has the counters that it
was copied with; the delta has those of the moment. -/
theorem counters_current_fork :
    roundaboutQuestion.snapshot.extent = .delta ∧
      (roundaboutEnd.pool.trail? 2).map (fun t => (t.again, t.openInZone, t.openOutside)) =
        some (1, 0, 3) ∧
      (Report.ofSnapshot roundaboutQuestion.snapshot).states.map
          (fun s => (s.id, s.again, s.openInZone, s.openOutside)) = [(0, 1, 1, 1), (2, 1, 1, 1)] ∧
      (Report.ofSnapshot roundaboutQuestion.snapshot).Current roundaboutEnd.pool
        roundaboutEnd.graph := by
  have hasked : roundaboutEnd.peek.asked = some roundaboutQuestion := (Option.some_get _).symm
  have hshown : roundaboutQuestion.shown =
      some (.report (.ofSnapshot roundaboutQuestion.snapshot)) := rfl
  exact ⟨by decide, by decide, by decide, counters_current _ _ _ hasked hshown⟩

end Guided

end SymbolicSearch
