/-
What deltas leave out. A pool notes what it is told. Of what happens to its
graph otherwise it sees the new blocks and no more, so what changes about a
block that has been shown is not shown again until some notice has the pool
note the block.

# Coverage

A delta shows the flags and the counters as they are when it is made, but
those of noted blocks and remarked states alone. A test that covers a block
is told of no block and no state (`coverage_shown`, `coverage_hidden`).

# Calls

Relations are shown with the block that they go out of. One that is drawn
between two blocks shown before is shown when a question lists its source
after that, which may be never (`crossings_shown`, `return_hidden`).
-/
import SymbolicSearch.Proofs.Flow.Calls
import SymbolicSearch.Proofs.Guided.Round

namespace SymbolicSearch

open Report

-- ========================================================== shown relations

/-- A relation is among those that an adviser was shown. -/
def Edge.ShownIn (e : Edge) (c : Consultation) : Prop :=
  ∃ a ∈ (Report.ofSnapshot c.snapshot).arrows,
    a.source = e.source ∧ a.target = e.target ∧ e.relation.token? = some a.token

instance (e : Edge) (c : Consultation) : Decidable (e.ShownIn c) :=
  inferInstanceAs (Decidable (∃ a ∈ (Report.ofSnapshot c.snapshot).arrows,
    a.source = e.source ∧ a.target = e.target ∧ e.relation.token? = some a.token))

/-- No two relations are reported under one number. -/
theorem Relation.eq_of_token? {r r' : Relation} {t : Int} (h : r.token? = some t)
    (h' : r'.token? = some t) : r = r' := by
  cases r <;> cases r' <;> simp_all [token?, eq_comm]

theorem Report.mem_arrowsAt {g : FlowGraph} {k : Nat} {a : Arrow} :
    a ∈ arrowsAt g k ↔
      a.source = k ∧
        ∃ r : Relation, r.token? = some a.token ∧ (⟨k, a.target, r⟩ : Edge) ∈ g.edges := by
  rw [arrowsAt, List.mem_flatMap]
  constructor
  · rintro ⟨⟨r, t⟩, hr, ha⟩
    obtain ⟨b, hb, rfl⟩ := List.mem_map.1 ha
    exact ⟨rfl, r, Relation.mem_reported.1 hr, FlowGraph.mem_targets.1 (IdSet.mem_toList.1 hb)⟩
  · rintro ⟨rfl, r, hr, he⟩
    refine ⟨(r, a.token), Relation.mem_reported.2 hr, List.mem_map.2 ⟨a.target, ?_, rfl⟩⟩
    exact IdSet.mem_toList.2 (FlowGraph.mem_targets.2 he)

/-- A relation between methods is shown if it is there and the block that
it goes out of is listed. -/
theorem Edge.Crosses.shownIn_iff {e : Edge} (he : e.Crosses) {c : Consultation} :
    e.ShownIn c ↔ e.source ∈ c.snapshot.blocks ∧ e ∈ c.snapshot.graph.edges := by
  obtain ⟨t, ht⟩ : ∃ t, e.relation.token? = some t := by
    rcases he with he | he <;> rw [he] <;> exact ⟨_, rfl⟩
  unfold ShownIn
  rw [arrows_eq]
  constructor
  · rintro ⟨a, ha, hsource, htarget, htoken⟩
    obtain ⟨k, hk, ha⟩ := List.mem_flatMap.1 ha
    obtain ⟨hak, r, hr, hmem⟩ := mem_arrowsAt.1 ha
    obtain rfl := hsource.symm.trans hak
    rw [htarget, Relation.eq_of_token? hr htoken] at hmem
    exact ⟨hk, hmem⟩
  · rintro ⟨hk, hmem⟩
    refine ⟨⟨e.source, e.target, t⟩, List.mem_flatMap.2 ⟨e.source, hk, ?_⟩, rfl, rfl, ht⟩
    exact mem_arrowsAt.2 ⟨rfl, e.relation, ht, hmem⟩

namespace Guided

/-- A pool under an oracle, and its graph, after a run. -/
def led (o : Oracle) (as : List Act) : Scene Guided := (opening (.oracle o) .auto).run as

variable {o : Oracle} {as before between : List Act} {c c' : Consultation}

theorem led_append (o : Oracle) (as bs : List Act) : led o (as ++ bs) = (led o as).run bs :=
  Scene.run_append _ as bs

theorem sound_led (o : Oracle) (as : List Act) : (led o as).pool.Sound (led o as).graph :=
  sound_opening _ _ as

theorem forest_led (o : Oracle) (as : List Act) : (led o as).pool.Forest :=
  (forest_new _ _).run (sound_new _ _ _) as

theorem attentive_led (o : Oracle) (as : List Act) : (led o as).pool.Attentive := by
  refine Attentive.run (w := opening (.oracle o) .auto) ?_ as
  exact ⟨rfl, o, rfl⟩

theorem closed_led (o : Oracle) (as : List Act) : (led o as).graph.Closed :=
  closed_opening _ _ as

/-- Two questions in a row in a run make a round. -/
theorem round_led (hc : (led o before).peek.asked = some c) (hok : c.Answered)
    (hnone : (led o (before ++ [.peek])).consultations between = [])
    (hc' : (led o (before ++ [.peek] ++ between)).peek.asked = some c') :
    Round (led o before) (led o (before ++ [.peek] ++ between)) between c' where
  sound := sound_led o before
  forest := forest_led o before
  closed := closed_led o before
  attentive := attentive_led o before
  answered := ⟨c, hc, hok⟩
  unasked := by
    rw [led_append] at hnone
    exact hnone
  later := by
    rw [led_append, led_append]
    rfl
  asked := hc'

theorem tells_led (hc : c ∈ (opening (.oracle o) .auto).consultations as) (hok : c.Answered) :
    c.Tells (.ofSnapshot c.snapshot) :=
  tells_run ⟨o, rfl⟩ as c hc hok

theorem graph_asked (hc : (led o as).peek.asked = some c) :
    c.snapshot.graph = (led o as).graph := by
  rw [snapshot_of_asked hc, graph_snapshot]

-- ================================================================== coverage

/-- What the question after an answered one shows: of the blocks those
noted since or made since, each as it is now; of the tracked states those
remarked since, with the counters that they come to now. If the pool has
been told nothing in between, that is no state and no block that was there,
whatever has become of the coverage. -/
theorem coverage_shown (o : Oracle) (before between : List Act) {c c' : Consultation}
    (hc : (led o before).peek.asked = some c) (hok : c.Answered)
    (hnone : (led o (before ++ [.peek])).consultations between = [])
    (hc' : (led o (before ++ [.peek] ++ between)).peek.asked = some c') (hok' : c'.Answered) :
    c'.Tells (.ofSnapshot c'.snapshot) ∧
      (∀ b, under Vertex.id b (ofSnapshot c'.snapshot).vertices =
        if b ∈ noted (led o (before ++ [.peek])) between ∨ (led o before).graph.size ≤ b then
          vertexAt (led o (before ++ [.peek] ++ between)).graph b
        else []) ∧
      (∀ id w, (led o (before ++ [.peek] ++ between)).pool.tracked.find? id = some w →
        under State.id id (ofSnapshot c'.snapshot).states =
          if id ∈ remarked (led o (before ++ [.peek])) between then
            [.ofTrail (w.trail.recount (led o (before ++ [.peek] ++ between)).graph)]
          else []) ∧
      ((∀ a ∈ between, a.notice? = none) →
        (ofSnapshot c'.snapshot).states = [] ∧
          ∀ v ∈ (ofSnapshot c'.snapshot).vertices, (led o before).graph.size ≤ v.id) := by
  have hround := round_led hc hok hnone hc'
  have hpeeked : led o (before ++ [.peek]) = (led o before).act .peek := led_append o before _
  rw [hpeeked]
  refine ⟨?_, hround.vertices, fun id w hw => hround.states hw, hround.untold⟩
  have hmem : c' ∈ (opening (.oracle o) .auto).consultations
      (before ++ [.peek] ++ between ++ [.peek]) :=
    Scene.mem_consultations.2 ⟨_, List.prefix_refl _, hc'⟩
  exact tells_led hmem hok'

/-- Two states are taken in, and one of them makes its first step. -/
def patrol : List Act :=
  [.graph (.register (looping 0)), .tell (.added [standing 0 0 0, standing 1 0 0]) 0,
    .tell (.moved (standing 0 0 0)) 1]

def firstRound : Consultation := (led loyal patrol).peek.asked.get (by decide)

/-- The question after a test has covered the block that a state is in. -/
def afterCovering : Consultation :=
  (led loyal (patrol ++ [.peek] ++ [.graph (.cover 0)])).peek.asked.get (by decide)

/-- The block has become covered and the state has one uncovered block less
behind it, and the oracle is told neither. -/
theorem coverage_hidden :
    (led loyal patrol).graph.blocks[0]?.map Block.covered = some false ∧
      (led loyal (patrol ++ [.peek] ++ [.graph (.cover 0)])).graph.blocks[0]?.map Block.covered =
        some true ∧
      (under State.id 0 (ofSnapshot firstRound.snapshot).states).map State.openOutside = [1] ∧
      ((led loyal (patrol ++ [.peek] ++ [.graph (.cover 0)])).pool.trail? 0).map (fun t =>
        (t.recount (led loyal (patrol ++ [.peek] ++ [.graph (.cover 0)])).graph).openOutside) =
          some 0 ∧
      under Vertex.id 0 (ofSnapshot afterCovering.snapshot).vertices = [] ∧
      (ofSnapshot afterCovering.snapshot).states = [] := by
  have hfirst : (led loyal patrol).peek.asked = some firstRound := (Option.some_get _).symm
  have hnext : (led loyal (patrol ++ [.peek] ++ [.graph (.cover 0)])).peek.asked =
      some afterCovering := (Option.some_get _).symm
  obtain ⟨-, hblocks, -, hstates⟩ := coverage_shown loyal patrol [.graph (.cover 0)] hfirst
    (by decide) rfl hnext (by decide)
  refine ⟨by decide, by decide, by decide, by decide, ?_, (hstates (by decide)).1⟩
  rw [hblocks 0, if_neg (by decide)]

-- ===================================================================== calls

/-- The question after a run lists a block that is there by then: it is the
first question, or the block has been noted or made since the last one. -/
def Due (o : Oracle) (before : List Act) (b : BlockNo) : Prop :=
  (opening (.oracle o) .auto).consultations before = [] ∨
    ∃ earlier between, before = earlier ++ [.peek] ++ between ∧
      (led o earlier).peek.asked.isSome = true ∧
      (led o (earlier ++ [.peek])).consultations between = [] ∧
      (b ∈ noted (led o (earlier ++ [.peek])) between ∨ (led o earlier).graph.size ≤ b)

/-- The first question lists every block. -/
theorem mem_blocks_of_first (hfirst : (opening (.oracle o) .auto).consultations before = [])
    (hc : (led o before).peek.asked = some c) {b : Nat} :
    b ∈ c.snapshot.blocks ↔ b < (led o before).graph.size := by
  have hext : ((led o before).pool.recount (led o before).graph).nextExtent = .full :=
    (keeps_run (sound_new _ _ _) before hfirst).1.extent
  rw [snapshot_of_asked hc]
  exact mem_blocks_of_full hext

/-- A question lists the blocks that are due. -/
theorem mem_blocks_asked (hok : ∀ x ∈ (opening (.oracle o) .auto).consultations before, x.Answered)
    (hc : (led o before).peek.asked = some c) {b : Nat} (hb : b < (led o before).graph.size) :
    b ∈ c.snapshot.blocks ↔ Due o before b := by
  -- either way the question before, if there is one, says what is listed
  have hround : ∀ {earlier between : List Act} {c₀ : Consultation},
      before = earlier ++ [.peek] ++ between → (led o earlier).peek.asked = some c₀ →
      (led o (earlier ++ [.peek])).consultations between = [] →
      (b ∈ c.snapshot.blocks ↔
        b ∈ noted (led o (earlier ++ [.peek])) between ∨ (led o earlier).graph.size ≤ b) := by
    intro earlier between c₀ heq hc₀ hnone
    subst heq
    have hanswered : c₀.Answered := by
      refine hok c₀ (Scene.mem_consultations.2 ⟨earlier, ?_, hc₀⟩)
      exact List.prefix_append _ _
    have hpeeked : led o (earlier ++ [.peek]) = (led o earlier).act .peek := led_append o earlier _
    rw [(round_led hc₀ hanswered hnone hc).mem_blocks, hpeeked]
    exact or_congr_right (and_iff_left hb)
  unfold Due
  constructor
  · intro hmem
    refine (Scene.last_question _ before).imp id ?_
    rintro ⟨earlier, between, c₀, heq, hc₀, hnone⟩
    exact ⟨earlier, between, heq, Option.isSome_iff_exists.2 ⟨c₀, hc₀⟩, hnone,
      (hround heq hc₀ hnone).1 hmem⟩
  · rintro (hfirst | ⟨earlier, between, heq, hasked, hnone, hdue⟩)
    · exact (mem_blocks_of_first hfirst hc).2 hb
    · obtain ⟨c₀, hc₀⟩ := Option.isSome_iff_exists.1 hasked
      exact (hround heq hc₀ hnone).2 hdue

/-- What an oracle has been told of the relations between methods. One of
them is told just if it was there at some question that its source was due
at. -/
theorem crossings_shown (o : Oracle) (as : List Act)
    (hok : ∀ c ∈ (opening (.oracle o) .auto).consultations as, c.Answered) :
    (∀ c ∈ (opening (.oracle o) .auto).consultations as, c.Tells (.ofSnapshot c.snapshot)) ∧
      ∀ e : Edge, e.Crosses →
        ((∃ c ∈ (opening (.oracle o) .auto).consultations as, e.ShownIn c) ↔
          ∃ before, before ++ [.peek] <+: as ∧ (led o before).peek.asked.isSome = true ∧
            e ∈ (led o before).graph.edges ∧ Due o before e.source) := by
  refine ⟨fun c hc => tells_led hc (hok c hc), fun e he => ?_⟩
  -- at one question
  have hasked : ∀ {before : List Act} {c : Consultation}, before ++ [.peek] <+: as →
      (led o before).peek.asked = some c →
      (e.ShownIn c ↔ e ∈ (led o before).graph.edges ∧ Due o before e.source) := by
    intro before c hprefix hc
    have hearlier : ∀ x ∈ (opening (.oracle o) .auto).consultations before, x.Answered := by
      intro x hx
      obtain ⟨earlier, hpre, hx⟩ := Scene.mem_consultations.1 hx
      have hpre' := (hpre.trans (List.prefix_append before [.peek])).trans hprefix
      exact hok x (Scene.mem_consultations.2 ⟨earlier, hpre', hx⟩)
    rw [he.shownIn_iff, graph_asked hc, and_comm]
    refine and_congr_right fun hmem => ?_
    exact mem_blocks_asked hearlier hc ((closed_led o before).edge e hmem).1
  constructor
  · rintro ⟨c, hc, hshown⟩
    obtain ⟨before, hprefix, hc⟩ := Scene.mem_consultations.1 hc
    exact ⟨before, hprefix, Option.isSome_iff_exists.2 ⟨c, hc⟩, (hasked hprefix hc).1 hshown⟩
  · rintro ⟨before, hprefix, hsome, hdue⟩
    obtain ⟨c, hc⟩ := Option.isSome_iff_exists.1 hsome
    exact ⟨c, Scene.mem_consultations.2 ⟨before, hprefix, hc⟩, (hasked hprefix hc).2 hdue⟩

/-- Two methods have been shown before one of them is seen to call the
other, and then the state that called goes on. -/
def lateCall : List Act :=
  [.graph (.register FlowGraph.caller), .graph (.register (looping 1)),
    .tell (.added [standing 0 0 0, standing 1 0 0]) 0, .tell (.moved (standing 0 0 0)) 1, .peek,
    .graph (.observe (Routine.loader []) (.instr ⟨0, 0⟩) (.instr ⟨0, 1⟩) (.instr ⟨1, 0⟩)), .peek]

/-- The call is hidden until the state that called moves, and the return
from it even then. -/
theorem return_hidden :
    (⟨0, 2, .call⟩ : Edge) ∈ (led loyal lateCall).graph.edges ∧
      (⟨3, 1, .back⟩ : Edge) ∈ (led loyal lateCall).graph.edges ∧
      (¬ ∃ c ∈ (opening (.oracle loyal) .auto).consultations lateCall,
        (⟨0, 2, .call⟩ : Edge).ShownIn c) ∧
      (∃ before, before ++ [.peek] <+: lateCall ++ [.tell (.moved (standing 0 0 1)) 2, .peek] ∧
        (led loyal before).peek.asked.isSome = true ∧
          (⟨0, 2, .call⟩ : Edge) ∈ (led loyal before).graph.edges ∧ Due loyal before 0) ∧
      ¬ ∃ before, before ++ [.peek] <+: lateCall ++ [.tell (.moved (standing 0 0 1)) 2, .peek] ∧
        (led loyal before).peek.asked.isSome = true ∧
          (⟨3, 1, .back⟩ : Edge) ∈ (led loyal before).graph.edges ∧ Due loyal before 3 := by
  obtain ⟨-, htold⟩ := crossings_shown loyal
    (lateCall ++ [.tell (.moved (standing 0 0 1)) 2, .peek]) (by decide)
  refine ⟨by decide, by decide, by decide, ?_, ?_⟩
  · exact (htold ⟨0, 2, .call⟩ (Or.inl rfl)).1 (by decide)
  · exact mt (htold ⟨3, 1, .back⟩ (Or.inr rfl)).2 (by decide)

end Guided

end SymbolicSearch
