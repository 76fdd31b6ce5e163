/-
When a guided pool asks, and what it shows. Two states are enough to ask,
and less are too few; who is asked is asked once. An oracle that can do
with deltas is shown everything until it has answered once, and deltas from
then on; any other adviser is shown everything each time. A question that
fails changes neither what was chosen last, nor the handles, nor the kind
of the next snapshot, but for one: an oracle that has chosen a state which
is not tracked has answered (`protocol_kept`).

# The run so far

What the pool keeps of its questions is one bit, that there has been an
answer, and the adviser itself. Both are read off the questions of the run:
the bit says that one of them was answered, and the adviser is as these
questions, and nothing else, have left it (`Recalls.run`).
-/
import SymbolicSearch.Proofs.Guided.Counters
import SymbolicSearch.Proofs.Guided.Round

namespace SymbolicSearch

theorem Adviser.remembers_through (a : Adviser) (cs : List Consultation) :
    (a.through cs).remembers = a.remembers := by
  induction cs generalizing a with
  | nil => rfl
  | cons c cs ih => exact (ih _).trans (a.remembers_consult c.snapshot)

namespace Guided

variable {p : Guided} {g : FlowGraph}

-- ============================================================ the run so far

/-- There has been an answer after an act if there had been one before, or
the act has led to one. -/
theorem answered_act (w : Scene Guided) (a : Act) :
    (w.act a).pool.answered = true ↔
      w.pool.answered = true ∨ ∃ c ∈ (w.outcome a).consultation?.toList, c.Answered := by
  cases a with
  | peek =>
      show (peek w.graph w.pool).pool.answered = true ↔
        _ ∨ ∃ c ∈ (peek w.graph w.pool).asked.toList, c.Answered
      obtain ⟨hnone, o, h⟩ | ⟨hasked, o, h⟩ := peek_pool w.graph w.pool
      · rw [h, hnone]
        simp
      · rw [h, hasked]
        simp only [Option.toList_some, List.mem_singleton, exists_eq_left]
        cases hanswer : (w.pool.consult w.graph).1.answer with
        | ok id =>
            rw [consult_of_ok hanswer]
            exact iff_of_true rfl (Or.inr ⟨id, hanswer⟩)
        | error e =>
            have hnot : ¬ (w.pool.consult w.graph).1.Answered := by
              rintro ⟨id, hid⟩
              cases hanswer.symm.trans hid
            rw [consult_of_error hanswer]
            exact (or_iff_left hnot).symm
  | tell n step =>
      show (w.pool.tell n step w.graph).pool.answered = true ↔
        _ ∨ ∃ c ∈ ([] : List Consultation), c.Answered
      obtain ⟨_, _, _, _, _, h⟩ := tell_pool w.pool n step w.graph
      rw [h]
      simp
  | graph a =>
      show w.pool.answered = true ↔ _ ∨ ∃ c ∈ ([] : List Consultation), c.Answered
      simp

/-- What a pool keeps of the questions to its adviser. -/
structure Recalls (a : Adviser) (policy : Policy) (past : List Consultation)
    (w : Scene Guided) : Prop where
  sound : w.pool.Sound w.graph
  policy : w.pool.policy = policy
  adviser : w.pool.adviser = a.through past
  answered : w.pool.answered = true ↔ ∃ c ∈ past, c.Answered

section

variable {a : Adviser} {policy : Policy} {past more : List Consultation} {w : Scene Guided}

theorem Recalls.act (h : Recalls a policy past w) (b : Act) :
    Recalls a policy (past ++ (w.outcome b).consultation?.toList) (w.act b) := by
  refine ⟨h.sound.act b, (policy_act w b).trans h.policy, ?_, ?_⟩
  · rw [adviser_act, h.adviser]
    exact List.foldl_append.symm
  · rw [answered_act, h.answered]
    simp only [List.mem_append, or_and_right, exists_or]

theorem Recalls.run (h : Recalls a policy past w) (as : List Act) :
    Recalls a policy (past ++ w.consultations as) (w.run as) := by
  induction as generalizing past w with
  | nil => simpa [Scene.consultations, Scene.outcomes] using h
  | cons b as ih =>
      rw [Scene.consultations_cons, ← List.append_assoc]
      exact ih (h.act b)

theorem recalls_opening (a : Adviser) (policy : Policy) (g : FlowGraph) :
    Recalls a policy [] ⟨g, .new a policy⟩ :=
  ⟨sound_new a policy g, rfl, rfl, iff_of_false (fun h => nomatch h) fun h => nomatch h⟩

/-- How much a snapshot shows that is due after some questions. -/
def due (a : Adviser) (policy : Policy) (past : List Consultation) : Extent :=
  if policy = .auto ∧ a.remembers = true ∧ ∃ c ∈ past, c.Answered then .delta else .full

theorem due_of_unanswered (h : ∀ c ∈ more, ¬ c.Answered) :
    due a policy (past ++ more) = due a policy past := by
  refine if_congr (and_congr_right fun _ => and_congr_right fun _ => ?_) rfl rfl
  constructor
  · rintro ⟨c, hc, hanswered⟩
    exact ⟨c, (List.mem_append.1 hc).resolve_right fun hmore => h c hmore hanswered, hanswered⟩
  · rintro ⟨c, hc, hanswered⟩
    exact ⟨c, List.mem_append_left _ hc, hanswered⟩

theorem due_of_answered (h : ∃ c ∈ past, c.Answered) :
    due a policy past = if policy = .auto ∧ a.remembers = true then .delta else .full :=
  if_congr (and_congr_right fun _ => and_iff_left h) rfl rfl

/-- How much the next snapshot shows is settled by the questions so far. -/
theorem Recalls.extent (h : Recalls a policy past w) :
    w.pool.nextExtent = due a policy past := by
  rw [nextExtent, due, ← ite_not]
  refine if_congr ?_ rfl rfl
  rw [h.policy, h.adviser, a.remembers_through, ← h.answered]
  cases policy <;> simp

end

-- ================================================================ a question

/-- The snapshot shows all there is: every block as it is in the graph, and
every tracked state with its counters worked out, in the order of the
numbers. -/
structure Whole (s : Snapshot) (p : Guided) (g : FlowGraph) : Prop where
  extent : s.extent = .full
  blocks : s.vertices = g.blocks.toList
  states : s.trails.map Trail.state = p.tracked.keys
  trails : s.trails = p.tracked.values.map fun w => w.trail.recount g

/-- A full snapshot shows the blocks of the graph. -/
theorem vertices_full (g : FlowGraph) (trails : List Trail) :
    (Snapshot.full g trails).vertices = g.blocks.toList := by
  have hblocks : (List.range g.size).map (g.blocks[·]?) = g.blocks.toList.map some := by
    refine List.ext_getElem (by simp [FlowGraph.size]) fun i hi hi' => ?_
    have hlt : i < g.blocks.size := by simpa using hi'
    simp [hlt]
  show (List.range g.size).filterMap (id ∘ (g.blocks[·]?)) = _
  rw [← List.filterMap_map, hblocks, List.filterMap_map]
  exact List.filterMap_some

theorem whole_snapshot (hp : p.Sound g) (h : p.nextExtent = .full) :
    Whole ((p.recount g).snapshot g) p g := by
  have hext : (p.recount g).nextExtent = .full := h
  rw [snapshot, hext]
  refine ⟨rfl, vertices_full g _, ?_, ?_⟩
  · exact (states_trails (hp.recount g)).trans (keys_recount p g)
  · simp [Snapshot.full, trails, recount, IdMap.values, IdMap.map]

/-- Asking that fails. Either the adviser has chosen a state that is not
tracked, or there has been no answer. -/
theorem peek_eq_error {e : Fault} (h : (peek g p).result = .error e) :
    (peek g p).pool.chosen = p.chosen ∧
      ((∃ id, e = .breach (.untracked id) ∧ p.handle? id = none ∧
          ∃ c, (peek g p).asked = some c ∧ c.answer = .ok id) ∨
        (∀ id, e ≠ .breach (.untracked id)) ∧ ∀ c, (peek g p).asked = some c → ¬ c.Answered) := by
  obtain ⟨-, heq⟩ | ⟨id, w, -, heq⟩ | ⟨-, e', he, heq⟩ | ⟨-, id, hid, hnone, heq⟩ |
    ⟨-, id, w, -, -, heq⟩ := peek_cases g p
  · rw [heq] at h ⊢
    obtain rfl := Except.error.inj h
    exact ⟨rfl, Or.inr ⟨(fun id h => nomatch h), fun c hc => nomatch hc⟩⟩
  · rw [heq] at h
    cases h
  · rw [heq] at h ⊢
    obtain rfl := Except.error.inj h
    refine ⟨(consult_keeps p g).2, Or.inr ⟨fun id hid => ?_, fun c hc hanswered => ?_⟩⟩
    · rw [hid, consult_fst] at he
      obtain ⟨k, h⟩ | ⟨reason, h⟩ | ⟨cause, h, hcause⟩ :=
        p.adviser.answer_cases ((p.recount g).snapshot g)
      · cases h.symm.trans he
      · cases h.symm.trans he
      · exact hcause id (Fault.breach.inj (Except.error.inj (h.symm.trans he)))
    · obtain rfl := Option.some.inj hc
      obtain ⟨id, hid⟩ := hanswered
      cases hid.symm.trans he
  · rw [heq] at h ⊢
    obtain rfl := Except.error.inj h
    refine ⟨(consult_keeps p g).2, Or.inl ⟨id, rfl, ?_, _, rfl, hid⟩⟩
    rw [← handle?_consult p g, handle?, hnone]
    rfl
  · rw [heq] at h
    cases h

-- ============================================================== the protocol

/-- The rules that a guided pool keeps when it is asked for a state, if its
adviser has been asked the given questions before. -/
structure Protocol (a : Adviser) (policy : Policy) (past : List Consultation)
    (w : Scene Guided) : Prop where
  /-- The adviser has been through these questions, and through nothing
  else. -/
  through : w.pool.adviser = a.through past
  /-- If there are states to choose between, it is asked once. -/
  asks : 2 ≤ w.pool.size → ∃ s, w.peek.asked = some (w.pool.adviser.consult s).1 ∧
    w.peek.pool.adviser = (w.pool.adviser.consult s).2
  /-- Otherwise it is left alone. -/
  spares : w.pool.size < 2 → w.peek.asked = none ∧ w.peek.pool.adviser = w.pool.adviser
  /-- What it is shown is the snapshot, ranked or told. -/
  shows : ∀ c x, w.peek.asked = some c → c.shown = some x →
    x = .inputs (Ranking.ofSnapshot c.snapshot).inputs ∨ x = .report (.ofSnapshot c.snapshot) ∨
      x = .line (requestLine (.ofSnapshot c.snapshot))
  /-- An oracle is shown everything up to its first answer. -/
  first : policy = .auto → (∃ o, a = .oracle o) → (∀ c ∈ past, ¬ c.Answered) →
    ∀ c, w.peek.asked = some c → Whole c.snapshot w.pool w.graph
  /-- After its first answer it is shown what has changed. -/
  later : policy = .auto → (∃ o, a = .oracle o) → (∃ c ∈ past, c.Answered) →
    ∀ c, w.peek.asked = some c → c.snapshot.extent = .delta
  /-- A model is shown everything, and an oracle if the plan says so. -/
  always : (policy = .alwaysFull ∨ ∃ m, a = .model m) →
    ∀ c, w.peek.asked = some c → Whole c.snapshot w.pool w.graph
  /-- A failure leaves the pool as it was, and there has been no answer
  unless a state was chosen that is not tracked. -/
  fails : ∀ e, w.peek.result = .error e →
    w.peek.pool.chosen = w.pool.chosen ∧ w.peek.pool.handle? = w.pool.handle? ∧
      ((∀ id, e ≠ .breach (.untracked id)) →
        (∀ c, w.peek.asked = some c → ¬ c.Answered) ∧
          w.peek.pool.nextExtent = w.pool.nextExtent)
  /-- Who has chosen a state that is not tracked has answered. -/
  strays : ∀ id, w.peek.result = .error (.breach (.untracked id)) →
    w.pool.handle? id = none ∧ ∃ c, w.peek.asked = some c ∧ c.answer = .ok id ∧
      w.peek.pool.nextExtent =
        if policy = .auto ∧ a.remembers = true then .delta else .full

section

variable {a : Adviser} {policy : Policy} {past : List Consultation} {w : Scene Guided}

/-- The adviser is asked just if there are two states. -/
theorem asked_eq_none_iff : w.peek.asked = none ↔ w.pool.size < 2 := by
  show (peek w.graph w.pool).asked = none ↔ w.pool.tracked.entries.length < 2
  obtain ⟨hnil, h⟩ | ⟨id, v, hone, h⟩ | ⟨htwo, e, -, h⟩ | ⟨htwo, id, -, -, h⟩ |
    ⟨htwo, id, v, -, -, h⟩ := peek_cases w.graph w.pool
  · rw [h, hnil]
    exact iff_of_true rfl Nat.zero_lt_two
  · rw [h, hone]
    exact iff_of_true rfl Nat.one_lt_two
  all_goals
    rw [h]
    exact iff_of_false (fun hnone => nomatch hnone) (Nat.not_lt.2 htwo)

/-- A question shows as much as is due. -/
theorem Recalls.shown (h : Recalls a policy past w) {c : Consultation}
    (hc : w.peek.asked = some c) :
    c.snapshot.extent = due a policy past ∧
      (due a policy past = .full → Whole c.snapshot w.pool w.graph) := by
  rw [snapshot_of_asked hc, extent_snapshot, ← h.extent]
  exact ⟨rfl, whole_snapshot h.sound⟩

/-- How much is due after a question that has been asked. -/
theorem Recalls.extent_peek (h : Recalls a policy past w) :
    w.peek.pool.nextExtent = due a policy (past ++ w.peek.asked.toList) := (h.act .peek).extent

theorem Recalls.protocol (h : Recalls a policy past w) : Protocol a policy past w where
  through := h.adviser
  asks htwo := by
    have hasked : w.peek.asked = some (w.pool.consult w.graph).1 := (peek_of_two htwo).1
    have hadviser : w.peek.pool.adviser = w.pool.adviser.through w.peek.asked.toList :=
      adviser_act w .peek
    rw [hasked] at hadviser
    refine ⟨(w.pool.consult w.graph).1.snapshot, ?_, hadviser⟩
    rw [hasked, snapshot_consult, consult_fst]
  spares hfew := by
    have hnone := asked_eq_none_iff.2 hfew
    have hadviser : w.peek.pool.adviser = w.pool.adviser.through w.peek.asked.toList :=
      adviser_act w .peek
    rw [hnone] at hadviser
    exact ⟨hnone, hadviser⟩
  shows c x hc hx := by
    obtain ⟨rfl, -⟩ := peek_of_asked hc
    rw [snapshot_consult]
    rw [consult_fst] at hx
    exact (Adviser.shown_cases hx).imp_left And.right
  first _ _ hnone c hc := by
    refine (h.shown hc).2 (if_neg fun hdue => ?_)
    obtain ⟨-, -, c', hc', hanswered⟩ := hdue
    exact hnone c' hc' hanswered
  later hpolicy horacle hsome c hc := by
    obtain ⟨o, rfl⟩ := horacle
    exact (h.shown hc).1.trans (if_pos ⟨hpolicy, rfl, hsome⟩)
  always hfull c hc := by
    refine (h.shown hc).2 (if_neg fun hdue => ?_)
    obtain hpolicy | ⟨m, rfl⟩ := hfull
    · cases hpolicy.symm.trans hdue.1
    · cases hdue.2.1
  fails e he := by
    obtain ⟨hchosen, hcases⟩ := peek_eq_error he
    refine ⟨hchosen, pool_peek w.graph w.pool, fun hne => ?_⟩
    obtain ⟨id, hid, -⟩ | ⟨-, hnone⟩ := hcases
    · exact absurd hid (hne id)
    · refine ⟨hnone, ?_⟩
      rw [h.extent_peek, h.extent]
      exact due_of_unanswered fun c hc => hnone c (Option.mem_toList.1 hc)
  strays id he := by
    obtain ⟨-, hcases⟩ := peek_eq_error he
    obtain ⟨id', hid, hgone, c, hc, hok⟩ | ⟨hne, -⟩ := hcases
    · obtain rfl := Breach.untracked.inj (Fault.breach.inj hid)
      refine ⟨hgone, c, hc, hok, h.extent_peek.trans (due_of_answered ⟨c, ?_, id, hok⟩)⟩
      exact List.mem_append_right _ (Option.mem_toList.2 hc)
    · exact absurd rfl (hne id)

/-- Whatever a pool is told, however often it is asked, and whatever becomes
of its graph meanwhile: it keeps the rules at every moment. -/
theorem protocol_kept (a : Adviser) (policy : Policy) (g : FlowGraph) (as : List Act) :
    Protocol a policy ((⟨g, .new a policy⟩ : Scene Guided).consultations as)
      ((⟨g, .new a policy⟩ : Scene Guided).run as) :=
  ((recalls_opening a policy g).run as).protocol

end

/-- An oracle that fails, then chooses a state that is not tracked, and
comes to its senses. -/
def wayward : Oracle :=
  .live (fun told => match told.length with
    | 1 => .error "busy"
    | 2 => .ok 9
    | _ => .ok 0) []

example :
    ((opening (.oracle wayward) .auto).consultations (arrivals ++ [.peek, .peek, .peek])).map
        (fun c => (c.snapshot.extent, c.answer)) =
      [(.full, .error (.adviserFailed "busy")), (.full, .ok 9), (.delta, .ok 0)] := by
  decide

end Guided

end SymbolicSearch
