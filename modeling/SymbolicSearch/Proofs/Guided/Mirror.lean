/-
Deltas are enough. Whoever starts from the first full report and lays
every delta over it knows, after every answer, what a full report would
say at that moment (`mirror_agrees`).

# The invariant

`Synced` is what holds between two answers: whatever the pool has not
noted is known as it is. Each step of note-taking keeps it
(`Synced.step`), since what changes is noted, and an answer restores it
for everything (`Synced.consult`), since what is noted is shown.
-/
import SymbolicSearch.Proofs.Guided.Notes
import SymbolicSearch.Proofs.Mirror

namespace SymbolicSearch

/-- Acts that change neither coverage nor calls: the pool is asked or told
something, or a method comes in. -/
def Act.isQuiet : Act → Bool
  | .peek => true
  | .tell _ _ => true
  | .graph (.register _) => true
  | .graph (.discover _ _) => true
  | .graph _ => false

/-- What is known after a question, from what was known before it. -/
def Report.hear (known : Report) (c : Consultation) : Report :=
  known.lay c.snapshot.extent (.ofSnapshot c.snapshot)

/-- What is known after some questions to one who knew nothing. -/
def Report.heard (cs : List Consultation) : Report := cs.foldl hear ⟨[], [], []⟩

/-- A method that comes in is put beside what is there, or not at all. -/
theorem FlowGraph.act_of_isQuiet {a : FlowGraph.Act} (ha : (Act.graph a).isQuiet = true)
    (g : FlowGraph) : ∃ o, g.act a = g.enlarge o := by
  cases a with
  | register r =>
      refine ⟨g.admits (.register r), ?_⟩
      simp only [act, register, admits]
      split <;> rfl
  | discover load m =>
      cases hd : g.discover load m with
      | ok g' => exact ⟨g.brought load m, by simp only [act, hd]; exact discover_eq_ok hd⟩
      | error e => exact ⟨none, by simp only [act, hd]; rfl⟩
  | _ => cases ha

theorem FlowGraph.marked_enlarge (listed : Nat → Prop) (g : FlowGraph) (o : Option Routine) :
    Marked listed g (g.enlarge o) := by
  cases o with
  | none => exact Marked.refl listed g
  | some r => exact marked_install listed g r

/-- An adviser after some questions. -/
def Adviser.through (a : Adviser) (cs : List Consultation) : Adviser :=
  cs.foldl (fun a c => (a.consult c.snapshot).2) a

namespace Guided

open Report

variable {p p' : Guided} {g g' : FlowGraph} {known : Report}

-- ============================================================ the invariant

/-- Of every block that is not pending and of every tracked state that is
not noted, what is known is what there is. -/
structure Synced (known : Report) (p : Guided) (g : FlowGraph) : Prop where
  vertices : ∀ k, ¬ p.Pending g k → under Vertex.id k known.vertices = vertexAt g k
  arrows : ∀ k, ¬ p.Pending g k → under Arrow.source k known.arrows = arrowsAt g k
  states : ∀ id w, p.tracked.find? id = some w → id ∉ p.touchedStates →
    under State.id id known.states = [.ofTrail (w.trail.recount g)]

/-- A block that is not pending after a step was not pending before it,
and the step has not made it. -/
theorem not_pending_of_keeps (hk : Keeps p p') (hsize : g.size ≤ g'.size)
    (hmark : p'.mark ≤ g.size) {k : Nat} (hn : ¬ p'.Pending g' k) :
    ¬ p.Pending g k ∧ (k < g.size ∨ g'.size ≤ k) := by
  obtain ⟨hnot, hold⟩ := not_or.1 hn
  have hout : ∀ {n : Nat}, p'.mark ≤ k → n ≤ g'.size → ¬ k < n :=
    fun hm hle hlt => hold ⟨hm, Nat.lt_of_lt_of_le hlt hle⟩
  constructor
  · intro h
    rcases h with h | h
    · exact hnot (hk.blocks k h)
    · by_cases hm : p'.mark ≤ k
      · exact hout hm hsize h.2
      · exact hnot (hk.looked k h.1 (Nat.lt_of_not_le hm))
  · by_cases hlt : k < g.size
    · exact Or.inl hlt
    · have hm := Nat.le_trans hmark (Nat.le_of_not_lt hlt)
      exact Or.inr (Nat.le_of_not_lt (hout hm (Nat.le_refl _)))

theorem Synced.step (hs : Synced known p g) (hp : p.Sound g) (hg : g.Closed) (hg' : g'.Closed)
    (hk : Keeps p p') (hm : FlowGraph.Marked (· ∈ p'.touchedBlocks) g g')
    (hmark : p'.mark ≤ g.size) : Synced known p' g' := by
  refine ⟨fun k hn => ?_, fun k hn => ?_, fun id w' hw' hid => ?_⟩
  · obtain ⟨hn', hlt | hle⟩ := not_pending_of_keeps hk hm.size hmark hn
    · have hnot : k ∉ p'.touchedBlocks := fun h => hn (Or.inl h)
      rw [hs.vertices k hn', vertexAt, vertexAt, hm.block k hlt hnot]
    · rw [hs.vertices k hn', vertexAt_of_le hle, vertexAt_of_le (Nat.le_trans hm.size hle)]
  · obtain ⟨hn', hlt | hle⟩ := not_pending_of_keeps hk hm.size hmark hn
    · rw [hs.arrows k hn', arrowsAt, arrowsAt]
      exact List.flatMap_congr fun r _ => by rw [hm.targets k r.1 hlt]
    · rw [hs.arrows k hn', arrowsAt_of_le hg' hle, arrowsAt_of_le hg (Nat.le_trans hm.size hle)]
  · obtain ⟨hid', w, hw, heq⟩ := hk.states id w' hw' hid
    rw [hs.states id w hw hid', heq, (hp.lies id w hw).recount_eq hm.coverage]

theorem Synced.tell (hs : Synced known p g) (hp : p.Sound g) (hg : g.Closed) (n : Notice)
    (step : Nat) : Synced known (p.tell n step g).pool (p.tell n step g).graph := by
  have halike := alike_tell p n step g
  have hmark : (p.tell n step g).pool.mark ≤ g.size := halike.size ▸ (hp.tell n step).mark
  exact hs.step hp hg (hg.of_alike halike) (hp.keeps_tell n step) (marked_tell p n step g) hmark

-- ============================================================= an answer

/-- The states of a list that are tracked, read by number. -/
theorem under_states (hp : p.Sound g) {ids : List StateNo} (hids : ids.Nodup) {id : StateNo}
    {w : Walker} (hw : p.tracked.find? id = some w) :
    under State.id id ((ids.filterMap p.trail?).map .ofTrail) =
      if id ∈ ids then [.ofTrail w.trail] else [] := by
  have hkey : ∀ k, ∀ s ∈ ((p.trail? k).map State.ofTrail).toList, s.id = k := by
    intro k s hs
    obtain ⟨t, ht, rfl⟩ := Option.map_eq_some_iff.1 (Option.mem_toList.1 hs)
    obtain ⟨v, hv, rfl⟩ := Option.map_eq_some_iff.1 ht
    exact (hp.numbered k v hv).2
  rw [List.map_filterMap, List.filterMap_eq_flatMap_toList]
  rw [under_flatMap hkey hids, trail?, hw]
  rfl

/-- The states that a snapshot lists, read by number. -/
theorem states_ofSnapshot (hp : p.Sound g) {id : StateNo} {w : Walker}
    (hw : p.tracked.find? id = some w) :
    under State.id id (ofSnapshot (p.snapshot g)).states =
      if id ∈ p.listedStates then [.ofTrail w.trail] else [] := by
  show under State.id id ((p.snapshot g).trails.map State.ofTrail) = _
  rw [trails_snapshot]
  exact under_states hp (nodup_listedStates p) hw

/-- The states of a pool that has just counted again are counted. -/
theorem recount_of_find?_recount {id : StateNo} {w : Walker}
    (hw : (p.recount g).tracked.find? id = some w) : w.trail.recount g = w.trail := by
  rw [find?_recount] at hw
  obtain ⟨w₀, -, rfl⟩ := Option.map_eq_some_iff.1 hw
  rfl

/-- A full report makes everything known, whatever was. -/
theorem synced_of_full (hext : p.nextExtent = .full) (hp : p.Sound g) (hg : g.Closed) :
    Synced (.ofSnapshot ((p.recount g).snapshot g))
      { p.recount g with mark := g.size, touchedStates := ∅, touchedBlocks := ∅ } g := by
  have hext' : (p.recount g).nextExtent = .full := hext
  have hgraph := graph_snapshot (p.recount g) g
  refine ⟨fun k _ => ?_, fun k _ => ?_, fun id w hw _ => ?_⟩
  · show under Vertex.id k (ofSnapshot ((p.recount g).snapshot g)).vertices = _
    rw [vertices_ofSnapshot (hgraph.symm ▸ hg) (nodup_blocks _ g), hgraph]
    split
    next => rfl
    next hk =>
      exact (vertexAt_of_le (Nat.le_of_not_lt (mt (mem_blocks_of_full hext').2 hk))).symm
  · show under Arrow.source k (ofSnapshot ((p.recount g).snapshot g)).arrows = _
    rw [arrows_ofSnapshot (nodup_blocks _ g), hgraph]
    split
    next => rfl
    next hk =>
      exact (arrowsAt_of_le hg (Nat.le_of_not_lt (mt (mem_blocks_of_full hext').2 hk))).symm
  · show under State.id id (ofSnapshot ((p.recount g).snapshot g)).states = _
    have htracked : (p.recount g).tracked.contains id = true := IdMap.contains_iff.2 ⟨w, hw⟩
    have hlisted := (mem_listedStates htracked).2 (Or.inl hext')
    rw [states_ofSnapshot (hp.recount g) hw, if_pos hlisted]
    rw [recount_of_find?_recount hw]

/-- A delta makes known what was not. -/
theorem Synced.of_delta (hs : Synced known p g) (hext : p.nextExtent = .delta) (hp : p.Sound g)
    (hg : g.Closed) :
    Synced (known.lay .delta (.ofSnapshot ((p.recount g).snapshot g)))
      { p.recount g with mark := g.size, touchedStates := ∅, touchedBlocks := ∅ } g := by
  have hext' : (p.recount g).nextExtent = .delta := hext
  have hgraph := graph_snapshot (p.recount g) g
  have hlisted : ∀ {k : Nat},
      k ∈ (ofSnapshot ((p.recount g).snapshot g)).vertices.map Vertex.id ↔
        k ∈ ((p.recount g).snapshot g).blocks :=
    mem_numbers (hgraph.symm ▸ hg) fun j hj => hgraph.symm ▸ lt_size_of_mem_blocks hj
  have hpending : ∀ {k : Nat}, k ∈ ((p.recount g).snapshot g).blocks ↔ p.Pending g k :=
    mem_blocks_of_delta (hp.recount g) hext'
  refine ⟨fun k _ => ?_, fun k _ => ?_, fun id w hw _ => ?_⟩
  · have hvert := vertices_ofSnapshot (hgraph.symm ▸ hg) (nodup_blocks (p.recount g) g) k
    rw [lay, under_overwrite fun x hx => List.mem_map_of_mem hx]
    split
    next hk => rw [hvert, if_pos (hlisted.1 hk), hgraph]
    next hk => exact hs.vertices k fun h => hk (hlisted.2 (hpending.2 h))
  · have harr := arrows_ofSnapshot (nodup_blocks (p.recount g) g) k
    have hsource : ∀ a ∈ (ofSnapshot ((p.recount g).snapshot g)).arrows,
        a.source ∈ (ofSnapshot ((p.recount g).snapshot g)).vertices.map Vertex.id := by
      intro a ha
      rw [arrows_eq] at ha
      obtain ⟨j, hj, ha⟩ := List.mem_flatMap.1 ha
      exact hlisted.2 (source_of_mem_arrowsAt ha ▸ hj)
    rw [lay, under_overwrite hsource]
    split
    next hk => rw [harr, if_pos (hlisted.1 hk), hgraph]
    next hk => exact hs.arrows k fun h => hk (hlisted.2 (hpending.2 h))
  · have hshown := states_ofSnapshot (g := g) (hp.recount g) hw
    have hlists : (p.recount g).listedStates = p.touchedStates.toList := by
      rw [listedStates, hext']
      rfl
    rw [hlists, ← recount_of_find?_recount hw] at hshown
    rw [lay, under_overwrite fun x hx => List.mem_map_of_mem hx, hshown]
    by_cases hid : id ∈ p.touchedStates.toList
    · have hmem : id ∈ (ofSnapshot ((p.recount g).snapshot g)).states.map State.id := by
        rw [if_pos hid] at hshown
        obtain ⟨hmem, hkey⟩ := mem_under.1 (hshown ▸ List.mem_singleton_self _)
        exact List.mem_map.2 ⟨_, hmem, hkey⟩
      rw [if_pos hmem, if_pos hid]
    · have hnot : id ∉ (ofSnapshot ((p.recount g).snapshot g)).states.map State.id := by
        intro hmem
        obtain ⟨s, hs, hkey⟩ := List.mem_map.1 hmem
        rw [if_neg hid] at hshown
        exact List.not_mem_nil (hshown ▸ mem_under.2 ⟨hs, hkey⟩)
      rw [if_neg hnot]
      rw [find?_recount] at hw
      obtain ⟨w₀, hw₀, rfl⟩ := Option.map_eq_some_iff.1 hw
      exact hs.states id w₀ hw₀ hid

theorem Synced.consult (hs : p.nextExtent = .delta → Synced known p g) (hp : p.Sound g)
    (hg : g.Closed) (hc : (p.consult g).1.Answered) :
    Synced (known.hear (p.consult g).1) (p.consult g).2 g := by
  obtain ⟨id, hid⟩ := hc
  rw [hear, snapshot_consult, extent_snapshot, consult_of_ok hid]
  show Synced (known.lay p.nextExtent _) _ g
  cases hext : p.nextExtent with
  | full =>
      obtain ⟨hv, ha, hst⟩ := synced_of_full hext hp hg
      exact ⟨hv, ha, hst⟩
  | delta =>
      obtain ⟨hv, ha, hst⟩ := (hs hext).of_delta hext hp hg
      exact ⟨hv, ha, hst⟩

-- ================================================================== a run

/-- What holds throughout a run of one who keeps in mind what it is told:
once the next report is a delta, all that the delta leaves out is known. -/
structure Mirrored (known : Report) (w : Scene Guided) : Prop where
  closed : w.graph.Closed
  sound : w.pool.Sound w.graph
  synced : w.pool.nextExtent = .delta → Synced known w.pool w.graph

theorem Synced.choose (hs : Synced known p g) (o : Option StateNo) :
    Synced known { p with chosen := o } g := ⟨hs.vertices, hs.arrows, hs.states⟩

/-- What a full report says of a pool on its graph. -/
def fullReport (w : Scene Guided) : Report := .ofSnapshot (.full w.graph w.pool.trails)

/-- Where nothing is pending, what is known is what a full report says. -/
theorem Synced.agrees (hs : Synced known p g) (hp : p.Sound g) (hg : g.Closed)
    (hmark : p.mark = g.size) (hblocks : p.touchedBlocks = ∅) (hstates : p.touchedStates = ∅)
    (hcount : ∀ id w, p.tracked.find? id = some w → w.trail.recount g = w.trail) :
    known.Agrees (.ofSnapshot (.full g p.trails)) := by
  have hnone : ∀ k, ¬ p.Pending g k := by
    intro k h
    rw [Pending, hblocks, hmark] at h
    exact h.elim (IdSet.not_mem_empty k) fun h => Nat.not_lt.2 h.1 h.2
  refine ⟨perm_of_under Vertex.id fun k => ?_,
    perm_of_under Arrow.source fun k => ?_, fun s hmem => ?_⟩
  · rw [hs.vertices k (hnone k)]
    rw [vertices_ofSnapshot (s := .full g p.trails) hg List.nodup_range]
    split
    next => rfl
    next hk => exact vertexAt_of_le (Nat.le_of_not_lt (mt List.mem_range.2 hk))
  · rw [hs.arrows k (hnone k), arrows_ofSnapshot (s := .full g p.trails) List.nodup_range]
    split
    next => rfl
    next hk => exact arrowsAt_of_le hg (Nat.le_of_not_lt (mt List.mem_range.2 hk))
  · obtain ⟨t, ht, rfl⟩ := List.mem_map.1 hmem
    obtain ⟨w, hw, rfl⟩ := List.mem_map.1 ht
    obtain ⟨id, hid⟩ := IdMap.mem_values.1 hw
    have hnum : w.trail.state = id := (hp.numbered id w hid).2
    have hknown := hs.states id w hid (hstates ▸ IdSet.not_mem_empty id)
    rw [hcount id w hid] at hknown
    show under State.id w.trail.state known.states = _
    rw [hnum, hknown]

theorem closed_act {w : Scene Guided} (hg : w.graph.Closed) (a : Act) :
    (w.act a).graph.Closed := by
  cases a with
  | peek => exact hg
  | tell n step => exact hg.of_alike (alike_tell w.pool n step w.graph)
  | graph a => exact hg.act a

theorem closed_opening (a : Adviser) (policy : Policy) (as : List Act) :
    ((opening a policy).run as).graph.Closed :=
  Scene.run_induction (P := fun w : Scene Guided => w.graph.Closed)
    (fun _ a hw => closed_act hw a) FlowGraph.closed_empty as

theorem adviser_consult (p : Guided) (g : FlowGraph) :
    (p.consult g).2.adviser = (p.adviser.consult ((p.recount g).snapshot g)).2 := by
  cases h : (p.consult g).1.answer with
  | ok id => rw [consult_of_ok h]
  | error e => rw [consult_of_error h]

/-- The adviser after an act has been through the question of that act, if
there was one, and through nothing else. -/
theorem adviser_act (w : Scene Guided) (a : Act) :
    (w.act a).pool.adviser = w.pool.adviser.through (w.outcome a).consultation?.toList := by
  cases a with
  | peek =>
      show (peek w.graph w.pool).pool.adviser =
        w.pool.adviser.through (peek w.graph w.pool).asked.toList
      obtain ⟨hnone, o, h⟩ | ⟨hasked, o, h⟩ := peek_pool w.graph w.pool
      · rw [h, hnone]
        rfl
      · rw [h, hasked]
        show (w.pool.consult w.graph).2.adviser =
          (w.pool.adviser.consult (w.pool.consult w.graph).1.snapshot).2
        rw [adviser_consult, snapshot_consult]
  | tell n step =>
      show (w.pool.tell n step w.graph).pool.adviser = _
      obtain ⟨_, _, _, _, _, h⟩ := tell_pool w.pool n step w.graph
      rw [h]
      rfl
  | graph a => rfl

/-- Once an oracle, always an oracle. -/
theorem oracle_act {w : Scene Guided} (ho : ∃ o, w.pool.adviser = .oracle o) (a : Act) :
    ∃ o, (w.act a).pool.adviser = .oracle o := by
  obtain ⟨o, ho⟩ := ho
  rw [adviser_act, ho]
  cases (w.outcome a).consultation? with
  | none => exact ⟨o, rfl⟩
  | some c => exact Adviser.oracle_consult o c.snapshot

/-- Throughout a run an oracle that answers has been told the report of
the snapshot. -/
theorem tells_run {w : Scene Guided} (ho : ∃ o, w.pool.adviser = .oracle o) (as : List Act) :
    ∀ c ∈ w.consultations as, c.Answered → c.Tells (.ofSnapshot c.snapshot) := by
  induction as generalizing w with
  | nil =>
      intro c hc
      cases hc
  | cons a as ih =>
      intro c hc hanswered
      rw [Scene.consultations_cons] at hc
      rcases List.mem_append.1 hc with hc | hc
      · cases a with
        | peek =>
            have hasked : (peek w.graph w.pool).asked = some c := Option.mem_toList.1 hc
            obtain ⟨h, -⟩ | ⟨h, -⟩ := peek_pool w.graph w.pool
            · rw [h] at hasked
              cases hasked
            · obtain rfl := Option.some.inj (h.symm.trans hasked)
              obtain ⟨o, ho⟩ := ho
              rw [snapshot_consult]
              rw [consult_fst, ho] at hanswered ⊢
              exact Adviser.tells_of_answered hanswered
        | tell n step => cases hc
        | graph a => cases hc
      · exact ih (oracle_act ho a) c hc hanswered

/-- Before the adviser is asked, whatever happens to the pool and its
graph leaves the next report a full one. -/
theorem mirrored_early {w : Scene Guided} (hw : Mirrored known w)
    (hfull : w.pool.nextExtent = .full) (as : List Act) (hnone : w.consultations as = []) :
    Mirrored known (w.run as) := by
  induction as generalizing w with
  | nil => exact hw
  | cons a as ih =>
      rw [Scene.consultations_cons] at hnone
      obtain ⟨hasked, hrest⟩ := List.append_eq_nil_iff.1 hnone
      have hext : (w.act a).pool.nextExtent = .full := by
        cases a with
        | peek =>
            show (peek w.graph w.pool).pool.nextExtent = _
            obtain ⟨-, o, h⟩ | ⟨h, -⟩ := peek_pool w.graph w.pool
            · rw [h]
              exact hfull
            · have hsome : (w.outcome .peek).consultation? = some (w.pool.consult w.graph).1 := h
              rw [hsome] at hasked
              cases hasked
        | tell n step => exact (hw.sound.keeps_tell n step).extent.trans hfull
        | graph a => exact hfull
      refine ih ⟨closed_act hw.closed a, hw.sound.act a, fun hdelta => ?_⟩ hext hrest
      rw [hext] at hdelta
      cases hdelta

theorem Mirrored.act {w : Scene Guided} (hw : Mirrored known w) {a : Act} (ha : a.isQuiet = true)
    (hok : ∀ c ∈ (w.outcome a).consultation?.toList, c.Answered) :
    Mirrored ((w.outcome a).consultation?.toList.foldl hear known) (w.act a) := by
  refine ⟨closed_act hw.closed a, hw.sound.act a, fun hdelta => ?_⟩
  cases a with
  | peek =>
      show Synced ((peek w.graph w.pool).asked.toList.foldl hear known)
        (peek w.graph w.pool).pool w.graph
      obtain ⟨hasked, o, h⟩ | ⟨hasked, o, h⟩ := peek_pool w.graph w.pool
      · rw [hasked, h]
        have hext : w.pool.nextExtent = .delta := by
          have hpool : (w.act .peek).pool = { w.pool with chosen := o } := h
          rw [hpool] at hdelta
          exact hdelta
        exact (hw.synced hext).choose o
      · rw [hasked, h]
        have hanswered : (w.pool.consult w.graph).1.Answered :=
          hok _ (Option.mem_toList.2 hasked)
        exact (Synced.consult hw.synced hw.sound hw.closed hanswered).choose o
  | tell n step =>
      have hext := (hw.sound.keeps_tell n step).extent.symm.trans hdelta
      exact (hw.synced hext).tell hw.sound hw.closed n step
  | graph a =>
      obtain ⟨o, ho⟩ := FlowGraph.act_of_isQuiet ha w.graph
      show Synced known w.pool (w.graph.act a)
      have hclosed : (w.graph.act a).Closed := hw.closed.act a
      rw [ho] at hclosed ⊢
      exact (hw.synced hdelta).step hw.sound hw.closed hclosed (Keeps.refl w.pool)
        (FlowGraph.marked_enlarge _ w.graph o) hw.sound.mark

theorem Mirrored.run {w : Scene Guided} (hw : Mirrored known w) (as : List Act)
    (has : ∀ a ∈ as, a.isQuiet = true) (hok : ∀ c ∈ w.consultations as, c.Answered) :
    Mirrored ((w.consultations as).foldl hear known) (w.run as) := by
  induction as generalizing w known with
  | nil => exact hw
  | cons a as ih =>
      rw [Scene.consultations_cons] at hok ⊢
      rw [List.foldl_append]
      exact ih (hw.act (has a List.mem_cons_self) fun c hc => hok c (List.mem_append_left _ hc))
        (fun x hx => has x (List.mem_cons_of_mem a hx))
        fun c hc => hok c (List.mem_append_right _ hc)

/-- An answer leaves nothing pending. -/
theorem Mirrored.agrees {w : Scene Guided} (hw : Mirrored known w)
    (hasked : w.peek.asked = some (w.pool.consult w.graph).1)
    (hc : (w.pool.consult w.graph).1.Answered) :
    (known.hear (w.pool.consult w.graph).1).Agrees (fullReport (w.act .peek)) := by
  have hsynced := Synced.consult hw.synced hw.sound hw.closed hc
  have hsound := hw.sound.consult
  obtain ⟨id, hid⟩ := hc
  have hafter := consult_of_ok hid
  obtain ⟨hnone, -⟩ | ⟨-, o, h⟩ := peek_pool w.graph w.pool
  · have hsome := hasked.symm.trans hnone
    cases hsome
  · have htrails : (w.act .peek).pool.trails = (w.pool.consult w.graph).2.trails := by
      show (peek w.graph w.pool).pool.trails = _
      rw [h]
      rfl
    show Report.Agrees _ (.ofSnapshot (.full w.graph (w.act .peek).pool.trails))
    rw [htrails]
    refine hsynced.agrees hsound hw.closed ?_ ?_ ?_ fun i v hv => ?_
    · rw [hafter]
    · rw [hafter]
    · rw [hafter]
    · rw [hafter] at hv
      exact recount_of_find?_recount hv

/-- Whenever an oracle has been asked, one who heard all it was told knows
what a full report would say now. Before the first question anything may
happen; after it, coverage and calls stay as they are. Every question is
answered. What is heard is what the oracle itself was told. -/
theorem mirror_agrees (o : Oracle) (early late : List Act)
    (hearly : (opening (.oracle o) .auto).consultations early = [])
    (hlate : ∀ a ∈ late, a.isQuiet = true)
    (hok : ∀ c ∈ (opening (.oracle o) .auto).consultations (early ++ late ++ [.peek]), c.Answered)
    (hasked : ((opening (.oracle o) .auto).run (early ++ late)).peek.asked.isSome = true) :
    (∀ c ∈ (opening (.oracle o) .auto).consultations (early ++ late ++ [.peek]),
        c.Tells (.ofSnapshot c.snapshot)) ∧
      (heard ((opening (.oracle o) .auto).consultations (early ++ late ++ [.peek]))).Agrees
        (fullReport ((opening (.oracle o) .auto).run (early ++ late ++ [.peek]))) := by
  have hopening : Mirrored ⟨[], [], []⟩ (opening (.oracle o) .auto) := by
    refine ⟨FlowGraph.closed_empty, sound_new _ _ _, fun hdelta => ?_⟩
    cases hdelta
  refine ⟨fun c hc => tells_run ⟨o, rfl⟩ _ c hc (hok c hc), ?_⟩
  have hmiddle := mirrored_early hopening rfl early hearly
  have htold : (opening (.oracle o) .auto).consultations (early ++ late) =
      ((opening (.oracle o) .auto).run early).consultations late := by
    rw [Scene.consultations_append, hearly, List.nil_append]
  have hlast : ∀ w : Scene Guided, w.peek.asked.isSome = true →
      w.peek.asked = some (w.pool.consult w.graph).1 ∧
        w.consultations [.peek] = [(w.pool.consult w.graph).1] := by
    intro w hsome
    obtain ⟨hnone, -⟩ | ⟨h, -⟩ := peek_pool w.graph w.pool
    · have hfalse : w.peek.asked = none := hnone
      rw [hfalse] at hsome
      cases hsome
    · have hconsulted : (w.outcome .peek).consultation? = some (w.pool.consult w.graph).1 := h
      refine ⟨h, ?_⟩
      rw [Scene.consultations_cons, hconsulted]
      rfl
  obtain ⟨hpeek, hcons⟩ := hlast _ hasked
  rw [Scene.consultations_append, hcons, htold] at hok ⊢
  have hrun := hmiddle.run late hlate fun c hc => hok c (List.mem_append_left _ hc)
  rw [← Scene.run_append] at hrun
  rw [heard, List.foldl_append, Scene.run_append _ (early ++ late)]
  exact hrun.agrees hpeek (hok _ (List.mem_append_right _ (List.mem_singleton_self _)))

/-- An oracle that always chooses the first state. -/
def loyal : Oracle := .live (fun _ => .ok 0) []

/-- A method comes in, a test covers a block, and two states are taken in. -/
def arrivals : List Act :=
  [.graph (.register (looping 0)), .graph (.cover 1),
    .tell (.added [standing 0 0 0, standing 1 0 0]) 0]

/-- The oracle is asked, the state it chose moves and forks, and the fork
goes on in a method that comes in meanwhile. -/
def forking : List Act :=
  [.peek, .tell (.moved (standing 0 0 1)) 1, .graph (.register (looping 1)),
    .tell (.added [standing 2 0 2]) 2, .tell (.moved (standing 2 1 0)) 3]

theorem mirror_agrees_forking :
    ((opening (.oracle loyal) .auto).run (arrivals ++ forking)).peek.asked.isSome = true ∧
      (heard ((opening (.oracle loyal) .auto).consultations
        (arrivals ++ forking ++ [.peek]))).Agrees
        (fullReport ((opening (.oracle loyal) .auto).run (arrivals ++ forking ++ [.peek]))) :=
  ⟨by decide,
    (mirror_agrees loyal arrivals forking (by decide) (by decide) (by decide) (by decide)).2⟩

end Guided

end SymbolicSearch
