/-
What a failed question costs. A pool whose adviser has failed keeps its
notes, so the next snapshot lists every state that the failed one listed
and that is still tracked. It does not keep what it had not noted yet: the
blocks that were new when it asked count as looked at, although nobody has
seen them. `failed_snapshot_kept` says exactly which blocks the next
snapshot lacks.

# Why

Between two questions every act is a step of note-taking (`Keeps`), and
such steps chain. The failed question itself is not one, by its mark
alone: it moves on without the blocks below it being noted.
-/
import SymbolicSearch.Proofs.Guided.Notes

namespace SymbolicSearch.Guided

variable {p p' : Guided} {g : FlowGraph}

-- ==================================================================== notes

/-- The blocks that a notice has the pool note. -/
def notes (p : Guided) (n : Notice) (step : Nat) (g : FlowGraph) : List BlockNo :=
  match n with
  | .added _ => g.since p.mark
  | .removed h =>
    match p.tracked.find? h.id with
    | none => []
    | some w => leavings w
  | .moved h =>
    match p.tracked.find? h.id with
    | none => []
    | some w =>
      match w.trail.follow h step g with
      | .error _ => []
      | .ok (t, _) => passage w.trail t

theorem mem_touchedBlocks_tell {n : Notice} {step : Nat} {b : Nat} :
    b ∈ (p.tell n step g).pool.touchedBlocks ↔ b ∈ p.notes n step g ∨ b ∈ p.touchedBlocks := by
  cases n with
  | added hs =>
      show b ∈ (p.takeIn hs step g).touchedBlocks ↔ _
      rw [takeIn_eq]
      exact IdSet.mem_insertAll
  | removed h =>
      show b ∈ (p.letGo h g).1.touchedBlocks ↔ _
      obtain ⟨ht, heq⟩ | ⟨w, ht, heq⟩ := letGo_cases p h g
      · rw [heq]
        simp only [notes, ht, List.not_mem_nil, false_or]
      · rw [heq]
        simp only [notes, ht]
        exact IdSet.mem_insertAll
  | moved h =>
      show b ∈ (p.followUp h step g).pool.touchedBlocks ↔ _
      obtain ⟨ht, heq⟩ | ⟨w, e, ht, hf, heq⟩ | ⟨w, t, g', ht, hf, heq⟩ :=
        followUp_cases p h step g
      · rw [heq]
        simp only [notes, ht, List.not_mem_nil, false_or]
      · rw [heq]
        simp only [notes, ht, hf, List.not_mem_nil, false_or]
      · rw [heq]
        simp only [notes, ht, hf]
        exact IdSet.mem_insertAll

/-- The blocks that are noted in a run. -/
def noted (w : Scene Guided) : List Act → List BlockNo
  | [] => []
  | a :: as =>
    (match a with
      | .tell n step => w.pool.notes n step w.graph
      | _ => []) ++ noted (w.act a) as

-- =========================================================== between questions

theorem Keeps.trans {p'' : Guided} (h : Keeps p p') (h' : Keeps p' p'') : Keeps p p'' := by
  refine ⟨h'.adviser.trans h.adviser, h'.extent.trans h.extent, Nat.le_trans h.mark h'.mark,
    fun b hb => h'.blocks b (h.blocks b hb), fun b hle hlt => ?_, fun id w'' hw'' hid => ?_⟩
  · by_cases hm : b < p'.mark
    · exact h'.blocks b (h.looked b hle hm)
    · exact h'.looked b (Nat.le_of_not_lt hm) hlt
  · obtain ⟨hid', w', hw', heq'⟩ := h'.states id w'' hw'' hid
    obtain ⟨hid, w, hw, heq⟩ := h.states id w' hw' hid'
    exact ⟨hid, w, hw, heq'.trans heq⟩

/-- What an act keeps and notes at which the adviser is not asked. -/
theorem keeps_act {w : Scene Guided} (hw : w.pool.Sound w.graph) {a : Act}
    (hnone : (w.outcome a).consultation? = none) :
    Keeps w.pool (w.act a).pool ∧
      ∀ b, b ∈ (w.act a).pool.touchedBlocks ↔ b ∈ noted w [a] ∨ b ∈ w.pool.touchedBlocks := by
  cases a with
  | peek =>
      obtain ⟨-, o, h⟩ | ⟨h, -⟩ := peek_pool w.graph w.pool
      · have hpool : (w.act .peek).pool = { w.pool with chosen := o } := h
        rw [hpool]
        refine ⟨?_, fun b => ?_⟩
        · obtain ⟨h₁, h₂, h₃, h₄, h₅, h₆⟩ := Keeps.refl w.pool
          exact ⟨h₁, h₂, h₃, h₄, h₅, h₆⟩
        · simp [noted]
      · have hsome : (w.outcome .peek).consultation? = some (w.pool.consult w.graph).1 := h
        rw [hsome] at hnone
        cases hnone
  | tell n step =>
      refine ⟨hw.keeps_tell n step, fun b => ?_⟩
      have hnoted : noted w [.tell n step] = w.pool.notes n step w.graph := List.append_nil _
      rw [hnoted]
      exact mem_touchedBlocks_tell
  | graph a =>
      refine ⟨Keeps.refl w.pool, fun b => ?_⟩
      simp [noted, Scene.act]

theorem keeps_run {w : Scene Guided} (hw : w.pool.Sound w.graph) (as : List Act)
    (hnone : w.consultations as = []) :
    Keeps w.pool (w.run as).pool ∧
      ∀ b, b ∈ (w.run as).pool.touchedBlocks ↔ b ∈ noted w as ∨ b ∈ w.pool.touchedBlocks := by
  induction as generalizing w with
  | nil =>
      refine ⟨Keeps.refl w.pool, fun b => ?_⟩
      simp [noted]
  | cons a as ih =>
      rw [Scene.consultations_cons] at hnone
      obtain ⟨hasked, hrest⟩ := List.append_eq_nil_iff.1 hnone
      obtain ⟨hkeep, hblocks⟩ := keeps_act hw (Option.toList_eq_nil_iff.1 hasked)
      obtain ⟨hkeep', hblocks'⟩ := ih (hw.act a) hrest
      refine ⟨hkeep.trans hkeep', fun b => ?_⟩
      have hnoted : noted w (a :: as) = noted w [a] ++ noted (w.act a) as := by
        simp [noted]
      rw [Scene.run_cons, hblocks', hblocks, hnoted, List.mem_append]
      tauto

-- ======================================================== after a failure

/-- A failure changes nothing that the next snapshot goes by but the mark. -/
theorem nextExtent_of_error {e : Fault} (h : (p.consult g).1.answer = .error e) :
    (p.consult g).2.nextExtent = p.nextExtent := by
  rw [consult_of_error h]
  simp only [nextExtent, recount, Adviser.remembers_consult]

theorem contains_recount (p : Guided) (g : FlowGraph) (id : StateNo) :
    (p.recount g).tracked.contains id = p.tracked.contains id := by
  rw [IdMap.contains, IdMap.contains, find?_recount]
  exact Option.isSome_map

/-- The snapshot of a question that is asked. -/
theorem snapshot_of_asked {w : Scene Guided} {c : Consultation} (hc : w.peek.asked = some c) :
    c.snapshot = (w.pool.recount w.graph).snapshot w.graph := by
  rw [(peek_of_asked hc).1, snapshot_consult]

section

variable {w : Scene Guided} {c c' : Consultation} {e : Fault} {between : List Act}

/-- The next question after a failure is as full as the failed one. -/
theorem nextExtent_after (hw : w.pool.Sound w.graph) (hc : w.peek.asked = some c)
    (hfail : c.answer = .error e) (hnone : (w.act .peek).consultations between = []) :
    ((w.act .peek).run between).pool.nextExtent = w.pool.nextExtent := by
  obtain ⟨rfl, o, hpool⟩ := peek_of_asked hc
  rw [(keeps_run (hw.act .peek) between hnone).1.extent, hpool]
  exact nextExtent_of_error hfail

/-- A state that a failed snapshot listed is listed by the next one, if it
is still tracked. -/
theorem states_after (hw : w.pool.Sound w.graph) (hc : w.peek.asked = some c)
    (hfail : c.answer = .error e) (hnone : (w.act .peek).consultations between = [])
    (hc' : ((w.act .peek).run between).peek.asked = some c') {id : StateNo}
    (hid : id ∈ c.snapshot.trails.map Trail.state)
    (hstill : ((w.act .peek).run between).pool.tracked.contains id = true) :
    id ∈ c'.snapshot.trails.map Trail.state := by
  have hext := nextExtent_after hw hc hfail hnone
  have hkeep := (keeps_run (hw.act .peek) between hnone).1
  have hsound := sound_run (hw.act .peek) between
  rw [snapshot_of_asked hc, mem_states_snapshot (hw.recount _)] at hid
  rw [snapshot_of_asked hc', mem_states_snapshot (hsound.recount _), contains_recount]
  refine ⟨?_, hstill⟩
  have hlisted := (mem_listedStates hid.2).1 hid.1
  refine (mem_listedStates ((contains_recount _ _ id).trans hstill)).2 ?_
  rcases hlisted with hfull | htouched
  · exact Or.inl (hext.trans hfull)
  · right
    by_contra hnot
    obtain ⟨v, hv⟩ := IdMap.contains_iff.1 hstill
    obtain ⟨rfl, o, hpool⟩ := peek_of_asked hc
    have hbefore := (hkeep.states id v hv hnot).1
    rw [hpool, consult_of_error hfail] at hbefore
    exact hbefore htouched

/-- A block that a failed snapshot listed is missing from the next one just
when it was listed as a new one only, and nothing has noted it since. -/
theorem blocks_after (hw : w.pool.Sound w.graph) (hc : w.peek.asked = some c)
    (hfail : c.answer = .error e) (hnone : (w.act .peek).consultations between = [])
    (hc' : ((w.act .peek).run between).peek.asked = some c') {b : Nat}
    (hb : b ∈ c.snapshot.blocks) :
    b ∉ c'.snapshot.blocks ↔
      c.snapshot.extent = .delta ∧ b ∉ w.pool.touchedBlocks ∧
        b ∉ noted (w.act .peek) between := by
  have hext := nextExtent_after hw hc hfail hnone
  obtain ⟨hkeep, htouched⟩ := keeps_run (hw.act .peek) between hnone
  have hsound := sound_run (hw.act .peek) between
  generalize hw' : (w.act .peek).run between = w' at hext hkeep htouched hsound hc'
  rw [snapshot_of_asked hc] at hb ⊢
  rw [snapshot_of_asked hc', extent_snapshot]
  obtain ⟨rfl, o, hpool⟩ := peek_of_asked hc
  have hmark : b < w'.pool.mark := by
    have hle := hkeep.mark
    rw [hpool, consult_of_error hfail] at hle
    exact Nat.lt_of_lt_of_le (lt_size_of_mem_blocks hb) hle
  have hsame : b ∈ (w.act .peek).pool.touchedBlocks ↔ b ∈ w.pool.touchedBlocks := by
    rw [hpool, consult_of_error hfail]
    rfl
  have hextent : (w'.pool.recount w'.graph).nextExtent = w.pool.nextExtent := hext
  show _ ↔ w.pool.nextExtent = .delta ∧ _
  cases hfull : w.pool.nextExtent with
  | full =>
      have hlisted := (mem_blocks_of_full (g := w'.graph) (hextent.trans hfull)).2
        (Nat.lt_of_lt_of_le hmark hsound.mark)
      exact ⟨fun hnot => absurd hlisted hnot, fun h => nomatch h.1⟩
  | delta =>
      rw [mem_blocks_of_delta (hsound.recount _) (hextent.trans hfull)]
      have hpending : (w'.pool.recount w'.graph).Pending w'.graph b ↔
          b ∈ noted (w.act .peek) between ∨ b ∈ w.pool.touchedBlocks := by
        rw [← hsame, ← htouched b]
        exact or_iff_left fun h => Nat.not_lt.2 h.1 hmark
      rw [hpending, not_or]
      exact ⟨fun h => ⟨rfl, h.2, h.1⟩, fun h => ⟨h.2.2, h.2.1⟩⟩

end

/-- A snapshot after a failed one lists every state that the failed one
listed and that is still tracked, and every block but those of a delta that
were new when the adviser was asked and have not been noted before or
since. -/
theorem failed_snapshot_kept (a : Adviser) (policy : Policy) (before between : List Act)
    {c c' : Consultation} {e : Fault}
    (hc : ((opening a policy).run before).peek.asked = some c) (hfail : c.answer = .error e)
    (hnone : ((opening a policy).run (before ++ [.peek])).consultations between = [])
    (hc' : ((opening a policy).run (before ++ [.peek] ++ between)).peek.asked = some c') :
    (∀ id ∈ c.snapshot.trails.map Trail.state,
      ((opening a policy).run (before ++ [.peek] ++ between)).pool.tracked.contains id = true →
        id ∈ c'.snapshot.trails.map Trail.state) ∧
      ∀ b ∈ c.snapshot.blocks, b ∉ c'.snapshot.blocks ↔
        c.snapshot.extent = .delta ∧
          b ∉ ((opening a policy).run before).pool.touchedBlocks ∧
          b ∉ noted ((opening a policy).run (before ++ [.peek])) between := by
  have hw := sound_opening a policy before
  rw [Scene.run_append] at hnone hc' ⊢
  rw [Scene.run_append] at hc' ⊢
  exact ⟨fun id hid hstill => states_after hw hc hfail hnone hc' hid hstill,
    fun b hb => blocks_after hw hc hfail hnone hc' hb⟩

/-- An oracle that fails the second time. -/
def flaky : Oracle := .live (fun told => if told.length = 2 then .error "busy" else .ok 0) []

/-- The oracle has answered once when a method comes in. -/
def mishap : List Act :=
  [.tell (.added [standing 0 0 0, standing 1 0 0]) 0, .peek, .graph (.register (looping 0))]

def failedQuestion : Consultation :=
  ((opening (.oracle flaky) .auto).run mishap).peek.asked.get (by decide)

/-- The question after the failed one, when a state has moved into one of
the two new blocks. -/
def nextQuestion : Consultation :=
  ((opening (.oracle flaky) .auto).run
    (mishap ++ [.peek] ++ [.tell (.moved (standing 1 0 2)) 1])).peek.asked.get (by decide)

/-- The new block that nobody has stood in is lost. -/
theorem new_block_lost :
    failedQuestion.snapshot.blocks = [0, 1] ∧ nextQuestion.snapshot.blocks = [1] ∧
      0 ∉ nextQuestion.snapshot.blocks := by
  have hfailed : ((opening (.oracle flaky) .auto).run mishap).peek.asked = some failedQuestion :=
    (Option.some_get _).symm
  have hnext : ((opening (.oracle flaky) .auto).run
      (mishap ++ [.peek] ++ [.tell (.moved (standing 1 0 2)) 1])).peek.asked =
        some nextQuestion := (Option.some_get _).symm
  have hkept := failed_snapshot_kept (.oracle flaky) .auto mishap _ hfailed rfl rfl hnext
  exact ⟨by decide, by decide, (hkept.2 0 (by decide)).2 ⟨by decide, by decide, by decide⟩⟩

end SymbolicSearch.Guided
