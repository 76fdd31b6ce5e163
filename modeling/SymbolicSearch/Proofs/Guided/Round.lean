/-
One round: what is listed by the question after an answered one. An answer
clears the pool's notes, so at the next question the notes are those of the
notices in between, no more and no less. `noted` reads the blocks off these
notices, `remarked` the states; what the next delta lists is said in these
words alone (`Round.mem_blocks`, `Round.mem_states`).

# Tracked in the end

A state that goes takes its note along, so `remarked` may name states that
are no longer noted. It does so only of states that are not tracked: one
that has come again has been remarked again (`mem_touchedStates_run`).
-/
import SymbolicSearch.Proofs.Guided.Failure
import SymbolicSearch.Proofs.Guided.Family
import SymbolicSearch.Proofs.Guided.Mirror

namespace SymbolicSearch.Guided

variable {p : Guided} {g : FlowGraph}

-- ========================================================= states in notices

/-- The states that a notice has the pool note: those that come in and the
parent that they come to, the kin of one that goes, one that is followed. -/
def remarks (p : Guided) (n : Notice) (step : Nat) (g : FlowGraph) : List StateNo :=
  match n with
  | .added hs => (hs.map Handle.id).filter (fun id => !p.tracked.contains id) ++ p.elders hs
  | .removed h =>
    match p.tracked.find? h.id with
    | none => []
    | some w => kin w.trail
  | .moved h =>
    match p.tracked.find? h.id with
    | none => []
    | some w =>
      match w.trail.follow h step g with
      | .error _ => []
      | .ok _ => [h.id]

/-- Of the states that come in, those not tracked yet are noted. -/
theorem mem_touchedStates_foldl_track {step : Nat} {parent : Option (StateNo × Trail)}
    {hs : List Handle} {id : StateNo} :
    id ∈ (hs.foldl (track step parent) p).touchedStates ↔
      (id ∈ hs.map Handle.id ∧ p.tracked.contains id = false) ∨ id ∈ p.touchedStates := by
  induction hs generalizing p with
  | nil => simp
  | cons h rest ih =>
      rw [List.foldl_cons, ih, List.map_cons, List.mem_cons]
      cases ht : p.tracked.contains h.id with
      | true =>
          rw [track_of_tracked ht]
          have hne : p.tracked.contains id = false → id ≠ h.id := by
            rintro hid rfl
            rw [ht] at hid
            cases hid
          tauto
      | false =>
          have hcontains : (track step parent p h).tracked.contains id = false ↔
              id ≠ h.id ∧ p.tracked.contains id = false := by
            rw [← Bool.not_eq_true, ← Bool.not_eq_true, contains_track, not_or]
          rw [hcontains, touchedStates_track ht, IdSet.mem_insert]
          by_cases hid : id = h.id
          · simp [hid, ht]
          · simp [hid]

/-- After a notice the tracked states that are noted are those it has the
pool note, and those noted before. -/
theorem mem_touchedStates_tell {n : Notice} {step : Nat} {id : StateNo}
    (ht : (p.tell n step g).pool.tracked.contains id = true) :
    id ∈ (p.tell n step g).pool.touchedStates ↔
      id ∈ p.remarks n step g ∨ id ∈ p.touchedStates := by
  cases n with
  | added hs =>
      show id ∈ (p.takeIn hs step g).touchedStates ↔ _
      rw [takeIn_eq]
      show id ∈ IdSet.insertAll _ _ ↔ _
      rw [IdSet.mem_insertAll, mem_touchedStates_foldl_track, remarks, List.mem_append,
        List.mem_filter, Bool.not_eq_true']
      tauto
  | removed h =>
      have ht : (p.letGo h g).1.tracked.contains id = true := ht
      show id ∈ (p.letGo h g).1.touchedStates ↔ _
      obtain ⟨hw, heq⟩ | ⟨w, hw, heq⟩ := letGo_cases p h g
      · rw [heq]
        simp only [remarks, hw, List.not_mem_nil, false_or]
      · obtain ⟨hne, hstill⟩ := (contains_letGo hw).1 ht
        have hrest : (p.tracked.erase h.id).contains id = true := by
          rw [IdMap.contains, IdMap.find?_erase, if_neg hne]
          exact hstill
        rw [heq]
        simp only [remarks, hw]
        rw [IdSet.mem_erase, IdSet.mem_insertAll, List.mem_filter]
        simp only [hrest, and_true, hne, ne_eq, not_false_eq_true]
  | moved h =>
      show id ∈ (p.followUp h step g).pool.touchedStates ↔ _
      obtain ⟨hw, heq⟩ | ⟨w, e, hw, hf, heq⟩ | ⟨w, t, g', hw, hf, heq⟩ :=
        followUp_cases p h step g
      · rw [heq]
        simp only [remarks, hw, List.not_mem_nil, false_or]
      · rw [heq]
        simp only [remarks, hw, hf, List.not_mem_nil, false_or]
      · rw [heq]
        simp only [remarks, hw, hf, List.mem_singleton]
        exact IdSet.mem_insert

/-- The states that are noted in a run. -/
def remarked (w : Scene Guided) : List Act → List StateNo
  | [] => []
  | a :: as =>
    (match a with
      | .tell n step => w.pool.remarks n step w.graph
      | _ => []) ++ remarked (w.act a) as

theorem remarked_append (w : Scene Guided) (as bs : List Act) :
    remarked w (as ++ bs) = remarked w as ++ remarked (w.run as) bs := by
  induction as generalizing w with
  | nil => rfl
  | cons a as ih => simp only [List.cons_append, remarked, ih, Scene.run_cons, List.append_assoc]

/-- Nothing is noted where the pool is told nothing. -/
theorem noted_of_untold {w : Scene Guided} {as : List Act} (has : ∀ a ∈ as, a.notice? = none) :
    noted w as = [] ∧ remarked w as = [] := by
  induction as generalizing w with
  | nil => exact ⟨rfl, rfl⟩
  | cons a as ih =>
      rw [List.forall_mem_cons] at has
      obtain ⟨hnoted, hremarked⟩ := ih (w := w.act a) has.2
      cases a with
      | peek => exact ⟨hnoted, hremarked⟩
      | tell n step => cases has.1
      | graph a => exact ⟨hnoted, hremarked⟩

theorem mem_touchedStates_act {w : Scene Guided} {a : Act} {id : StateNo}
    (hnone : (w.outcome a).consultation? = none)
    (ht : (w.act a).pool.tracked.contains id = true) :
    id ∈ (w.act a).pool.touchedStates ↔ id ∈ remarked w [a] ∨ id ∈ w.pool.touchedStates := by
  cases a with
  | peek =>
      obtain ⟨-, o, h⟩ | ⟨h, -⟩ := peek_pool w.graph w.pool
      · have hpool : (w.act .peek).pool = { w.pool with chosen := o } := h
        rw [hpool]
        simp [remarked]
      · have hsome : (w.outcome .peek).consultation? = some (w.pool.consult w.graph).1 := h
        rw [hsome] at hnone
        cases hnone
  | tell n step =>
      have hremarked : remarked w [.tell n step] = w.pool.remarks n step w.graph :=
        List.append_nil _
      rw [hremarked]
      exact mem_touchedStates_tell ht
  | graph a => simp [remarked, Scene.act]

theorem Forest.run {w : Scene Guided} (hf : w.pool.Forest) (hw : w.pool.Sound w.graph)
    (as : List Act) : (w.run as).pool.Forest := by
  induction as generalizing w with
  | nil => exact hf
  | cons a as ih => exact ih (hf.act hw a) (hw.act a)

/-- After a run in which the adviser is not asked, the tracked states that
are noted are those remarked in it, and those noted before. -/
theorem mem_touchedStates_run {w : Scene Guided} (hw : w.pool.Sound w.graph)
    (hf : w.pool.Forest) {as : List Act} (hnone : w.consultations as = []) {id : StateNo}
    (ht : (w.run as).pool.tracked.contains id = true) :
    id ∈ (w.run as).pool.touchedStates ↔ id ∈ remarked w as ∨ id ∈ w.pool.touchedStates := by
  -- from the end, so that a state which comes again is met at its last coming
  induction as using List.reverseRecOn with
  | nil => simp [remarked]
  | append_singleton as a ih =>
      rw [Scene.consultations_append, List.append_eq_nil_iff, Scene.consultations_cons,
        List.append_eq_nil_iff, Option.toList_eq_nil_iff] at hnone
      rw [Scene.run_append] at ht ⊢
      have hact := mem_touchedStates_act hnone.2.1 ht
      rw [remarked_append, List.mem_append, Scene.run_cons, Scene.run_nil, hact]
      cases hold : (w.run as).pool.tracked.contains id with
      | true => rw [ih hnone.1 hold, or_left_comm, or_assoc]
      | false =>
          have hnot : id ∉ (w.run as).pool.touchedStates := by
            intro hmem
            rw [(hf.run hw as).touched id hmem] at hold
            cases hold
          -- what has just come in is noted, so it has been remarked
          have hnew : id ∈ ((w.run as).act a).pool.touchedStates := by
            by_contra hid
            obtain ⟨v, hv⟩ := IdMap.contains_iff.1 ht
            obtain ⟨v', hv', -⟩ :=
              ((keeps_act (sound_run hw as) hnone.2.1).1.states id v hv hid).2
            rw [IdMap.contains_iff.2 ⟨v', hv'⟩] at hold
            cases hold
          have hremarked := (hact.1 hnew).resolve_right hnot
          exact iff_of_true (Or.inl hremarked) (Or.inl (Or.inr hremarked))

-- ============================================================ attentive pools

/-- The pool shows its adviser deltas whenever it can. -/
def Attentive (p : Guided) : Prop := p.policy = .auto ∧ ∃ o, p.adviser = .oracle o

theorem nextExtent_of_attentive (hp : p.Attentive) :
    p.nextExtent = if p.answered then .delta else .full := by
  obtain ⟨hpolicy, o, ho⟩ := hp
  unfold nextExtent
  rw [hpolicy, ho]
  cases p.answered <;> rfl

theorem policy_act (w : Scene Guided) (a : Act) : (w.act a).pool.policy = w.pool.policy := by
  cases a with
  | peek =>
      show (peek w.graph w.pool).pool.policy = _
      obtain ⟨-, o, h⟩ | ⟨-, o, h⟩ := peek_pool w.graph w.pool
      · rw [h]
      · rw [h]
        exact (consult_keeps w.pool w.graph).1
  | tell n step =>
      show (w.pool.tell n step w.graph).pool.policy = _
      obtain ⟨_, _, _, _, _, h⟩ := tell_pool w.pool n step w.graph
      rw [h]
  | graph a => rfl

theorem Attentive.act {w : Scene Guided} (hp : w.pool.Attentive) (a : Act) :
    (w.act a).pool.Attentive :=
  ⟨(policy_act w a).trans hp.1, oracle_act hp.2 a⟩

theorem Attentive.run {w : Scene Guided} (hp : w.pool.Attentive) (as : List Act) :
    (w.run as).pool.Attentive :=
  Scene.run_induction (P := fun w : Scene Guided => w.pool.Attentive) (fun _ a hp => hp.act a) hp as

-- ================================================================= a round

/-- An answer leaves nothing noted. -/
theorem pool_of_answered {w : Scene Guided} {c : Consultation} (hc : w.peek.asked = some c)
    (hok : c.Answered) :
    (w.act .peek).pool.answered = true ∧ (w.act .peek).pool.mark = w.graph.size ∧
      (w.act .peek).pool.touchedBlocks = ∅ ∧ (w.act .peek).pool.touchedStates = ∅ := by
  obtain ⟨rfl, o, hpool⟩ := peek_of_asked hc
  obtain ⟨id, hid⟩ := hok
  rw [hpool, consult_of_ok hid]
  exact ⟨rfl, rfl, rfl, rfl⟩

/-- Two questions in a row to an attentive pool on its graph: one is
answered at the first scene, and the next comes up at the second, after some
acts without one. -/
structure Round (w w' : Scene Guided) (between : List Act) (c : Consultation) : Prop where
  sound : w.pool.Sound w.graph
  forest : w.pool.Forest
  closed : w.graph.Closed
  attentive : w.pool.Attentive
  answered : ∃ c₀, w.peek.asked = some c₀ ∧ c₀.Answered
  unasked : (w.act .peek).consultations between = []
  later : (w.act .peek).run between = w'
  asked : w'.peek.asked = some c

section

variable {w w' : Scene Guided} {between : List Act} {c : Consultation}

theorem Round.sound_later (hr : Round w w' between c) : w'.pool.Sound w'.graph :=
  hr.later ▸ sound_run (hr.sound.act .peek) between

theorem Round.closed_later (hr : Round w w' between c) : w'.graph.Closed :=
  hr.later ▸ Scene.run_induction (P := fun w : Scene Guided => w.graph.Closed)
    (fun _ a hw => closed_act hw a) (closed_act hr.closed .peek) between

theorem Round.graph (hr : Round w w' between c) : c.snapshot.graph = w'.graph := by
  rw [snapshot_of_asked hr.asked, graph_snapshot]

theorem Round.keeps (hr : Round w w' between c) :
    Keeps (w.act .peek).pool w'.pool ∧ ∀ b, b ∈ w'.pool.touchedBlocks ↔
      b ∈ noted (w.act .peek) between ∨ b ∈ (w.act .peek).pool.touchedBlocks :=
  hr.later ▸ keeps_run (hr.sound.act .peek) between hr.unasked

/-- The second question is asked by a delta. -/
theorem Round.extent (hr : Round w w' between c) : w'.pool.nextExtent = .delta := by
  obtain ⟨c₀, hc₀, hok⟩ := hr.answered
  rw [hr.keeps.1.extent, nextExtent_of_attentive (hr.attentive.act .peek)]
  rw [(pool_of_answered hc₀ hok).1]
  rfl

/-- The blocks that the second question lists are those noted since the
first, and those made since. -/
theorem Round.mem_blocks (hr : Round w w' between c) {b : Nat} :
    b ∈ c.snapshot.blocks ↔
      b ∈ noted (w.act .peek) between ∨ (w.graph.size ≤ b ∧ b < w'.graph.size) := by
  obtain ⟨c₀, hc₀, hok⟩ := hr.answered
  obtain ⟨-, hmark, hblocks, -⟩ := pool_of_answered hc₀ hok
  obtain ⟨hkeep, htouched⟩ := hr.keeps
  have hnoted : b ∈ w'.pool.touchedBlocks ↔ b ∈ noted (w.act .peek) between := by
    rw [htouched, hblocks]
    exact or_iff_left (IdSet.not_mem_empty b)
  rw [snapshot_of_asked hr.asked, mem_blocks_of_delta (hr.sound_later.recount _) hr.extent]
  show b ∈ w'.pool.touchedBlocks ∨ (w'.pool.mark ≤ b ∧ _) ↔ _
  constructor
  · rintro (h | ⟨hle, hlt⟩)
    · exact Or.inl (hnoted.1 h)
    · exact Or.inr ⟨hmark ▸ Nat.le_trans hkeep.mark hle, hlt⟩
  · rintro (h | ⟨hle, hlt⟩)
    · exact Or.inl (hnoted.2 h)
    · by_cases hm : w'.pool.mark ≤ b
      · exact Or.inr ⟨hm, hlt⟩
      · exact Or.inl (hkeep.looked b (hmark.symm ▸ hle) (Nat.lt_of_not_le hm))

/-- The states that the second question lists are those remarked since the
first. -/
theorem Round.mem_states (hr : Round w w' between c) {id : StateNo}
    (ht : w'.pool.tracked.contains id = true) :
    id ∈ (w'.pool.recount w'.graph).listedStates ↔ id ∈ remarked (w.act .peek) between := by
  obtain ⟨c₀, hc₀, hok⟩ := hr.answered
  obtain ⟨-, -, -, hstates⟩ := pool_of_answered hc₀ hok
  have hremarked : id ∈ w'.pool.touchedStates ↔ id ∈ remarked (w.act .peek) between := by
    have hlater := hr.later
    subst hlater
    rw [mem_touchedStates_run (hr.sound.act .peek) (hr.forest.act hr.sound .peek) hr.unasked ht,
      hstates]
    exact or_iff_left (IdSet.not_mem_empty id)
  rw [mem_listedStates ((contains_recount _ _ id).trans ht)]
  refine (or_iff_right fun hfull => ?_).trans hremarked
  cases hr.extent.symm.trans hfull

/-- Under each number the second question shows the block as it is then, if
it lists it. -/
theorem Round.vertices (hr : Round w w' between c) (b : Nat) :
    Report.under Report.Vertex.id b (Report.ofSnapshot c.snapshot).vertices =
      if b ∈ noted (w.act .peek) between ∨ w.graph.size ≤ b then Report.vertexAt w'.graph b
      else [] := by
  have hnodup : c.snapshot.blocks.Nodup := by
    rw [snapshot_of_asked hr.asked]
    exact nodup_blocks _ _
  rw [Report.vertices_ofSnapshot (hr.graph.symm ▸ hr.closed_later) hnodup, hr.graph]
  by_cases hlt : b < w'.graph.size
  · simp only [hr.mem_blocks, hlt, and_true]
  · rw [Report.vertexAt_of_le (Nat.le_of_not_lt hlt), ite_self, ite_self]

/-- Under its number the second question shows a state as it is then, if it
lists it. -/
theorem Round.states (hr : Round w w' between c) {id : StateNo} {v : Walker}
    (hv : w'.pool.tracked.find? id = some v) :
    Report.under Report.State.id id (Report.ofSnapshot c.snapshot).states =
      if id ∈ remarked (w.act .peek) between then [.ofTrail (v.trail.recount w'.graph)]
      else [] := by
  have hrecount : (w'.pool.recount w'.graph).tracked.find? id =
      some { v with trail := v.trail.recount w'.graph } := by
    rw [find?_recount, hv]
    rfl
  rw [snapshot_of_asked hr.asked, states_ofSnapshot (hr.sound_later.recount _) hrecount]
  simp only [hr.mem_states (IdMap.contains_iff.2 ⟨v, hv⟩)]

/-- If the pool is told nothing in between, the second question shows the
new blocks and nothing else. -/
theorem Round.untold (hr : Round w w' between c) (hbetween : ∀ a ∈ between, a.notice? = none) :
    (Report.ofSnapshot c.snapshot).states = [] ∧
      ∀ v ∈ (Report.ofSnapshot c.snapshot).vertices, w.graph.size ≤ v.id := by
  obtain ⟨hnoted, hremarked⟩ := noted_of_untold (w := w.act .peek) hbetween
  constructor
  · refine List.map_eq_nil_iff.2 (List.eq_nil_iff_forall_not_mem.2 fun t ht => ?_)
    have hid := List.mem_map_of_mem (f := Trail.state) ht
    rw [snapshot_of_asked hr.asked, mem_states_snapshot (hr.sound_later.recount _),
      contains_recount] at hid
    rw [hr.mem_states hid.2, hremarked] at hid
    exact List.not_mem_nil hid.1
  · intro v hv
    have hnumber := List.mem_map_of_mem (f := Report.Vertex.id) hv
    have hbound : ∀ k ∈ c.snapshot.blocks, k < c.snapshot.graph.size := by
      rw [hr.graph, snapshot_of_asked hr.asked]
      exact fun k hk => lt_size_of_mem_blocks hk
    rw [Report.mem_numbers (hr.graph.symm ▸ hr.closed_later) hbound, hr.mem_blocks, hnoted]
      at hnumber
    exact (hnumber.resolve_left List.not_mem_nil).1

end

end SymbolicSearch.Guided
