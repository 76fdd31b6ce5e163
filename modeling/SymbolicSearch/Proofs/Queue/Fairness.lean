/-
Breadth is fair. Where only the state chosen last is moved, those queued
take turns: between two moves of a state that stays queued, every other
state that stays queued is moved once, and none that comes in meanwhile is
chosen.

# Those ahead

A state that has just moved stands last, so that all others are ahead of it.
From then on nobody joins those ahead: states come in behind, and one that
moves goes behind. So whoever is ahead stays there until it moves or is
removed (`mem_ahead_hear`), and whoever is chosen while the state waits is
ahead. When the state is chosen again nobody is ahead of it, so that the
others have moved, and none of them twice.

A state that does not stay queued has no such claim. One that is removed and
comes in again goes behind those that have moved since, and they may move
again before it (`unfair_to_returned`).
-/
import SymbolicSearch.Proofs.Queue.Order

namespace SymbolicSearch

-- ============================================================ whose move

/-- The state that is told to have moved. -/
def Act.mover? : Act → Option StateNo
  | .tell (.moved h) _ => some h.id
  | _ => none

/-- A notice takes a state from its place: it is removed, or moves. -/
def Notice.Takes (id : StateNo) : Notice → Prop
  | .added _ => False
  | .removed h => h.id = id
  | .moved h => h.id = id

namespace Queue

variable {q : Queue} {w : Scene Queue} {id mine : StateNo} {h : Handle} {due : Option StateNo}

/-- The number of the state that the queue serves. -/
def chosen? (w : Scene Queue) : Option StateNo := w.peek.result.toOption.map Handle.id

/-- The state that is due to move after an act, if one was due before: the
one chosen last, until something has moved. -/
def dueAfter (w : Scene Queue) (due : Option StateNo) : Act → Option StateNo
  | .peek => chosen? w
  | .tell (.moved _) _ => none
  | _ => due

/-- Nothing but the state that is due moves in a run. -/
def TurnByTurn (w : Scene Queue) (due : Option StateNo) : List Act → Prop
  | [] => True
  | a :: as => (a.mover? = none ∨ a.mover? = due) ∧ TurnByTurn (w.act a) (dueAfter w due a) as

/-- A state is queued all through a run. -/
def Stays (w : Scene Queue) (id : StateNo) : List Act → Prop
  | [] => w.pool.holds id = true
  | a :: as => w.pool.holds id = true ∧ Stays (w.act a) id as

instance decidableTurnByTurn (w : Scene Queue) (due : Option StateNo) (as : List Act) :
    Decidable (TurnByTurn w due as) :=
  match as with
  | [] => .isTrue trivial
  | a :: as =>
    have := decidableTurnByTurn (w.act a) (dueAfter w due a) as
    inferInstanceAs (Decidable ((_ ∨ _) ∧ _))

instance decidableStays (w : Scene Queue) (id : StateNo) (as : List Act) :
    Decidable (Stays w id as) :=
  match as with
  | [] => inferInstanceAs (Decidable (_ = true))
  | a :: as =>
    have := decidableStays (w.act a) id as
    inferInstanceAs (Decidable (_ = true ∧ _))

-- ============================================================ those ahead

/-- The states that stand before another. -/
def ahead (q : Queue) (mine : StateNo) : List StateNo := q.ids.takeWhile (· ≠ mine)

theorem mem_ids_of_mem_ahead (hid : id ∈ q.ahead mine) : id ∈ q.ids :=
  (List.takeWhile_sublist _).subset hid

theorem ahead_eq {front : List StateNo} (behind : List StateNo)
    (hids : q.ids = front ++ mine :: behind) (hfront : mine ∉ front) : q.ahead mine = front := by
  have hpos : ∀ id ∈ front, decide (id ≠ mine) = true := by
    intro id hid
    exact decide_eq_true fun heq => hfront (heq ▸ hid)
  rw [ahead, hids, List.takeWhile_append_of_pos hpos, List.takeWhile_cons_of_neg (by simp),
    List.append_nil]

/-- A state that is held stands behind those ahead of it. -/
theorem ids_split (hmine : q.holds mine = true) :
    ∃ behind, q.ids = q.ahead mine ++ mine :: behind ∧ mine ∉ q.ahead mine := by
  obtain ⟨front, behind, hids, hfront⟩ := List.eq_append_cons_of_mem (mem_ids.2 hmine)
  rw [ahead_eq behind hids hfront]
  exact ⟨behind, hids, hfront⟩

/-- Whoever comes in stands behind. -/
theorem ahead_concat {q' : Queue} (hmine : q.holds mine = true) (hids : q'.ids = q.ids ++ [id]) :
    q'.ahead mine = q.ahead mine := by
  obtain ⟨behind, hsplit, hfront⟩ := ids_split hmine
  refine ahead_eq (behind ++ [id]) ?_ hfront
  rw [hids, hsplit, List.append_assoc, List.cons_append]

theorem ahead_push (hmine : q.holds mine = true) (h : Handle) :
    (q.push h).ahead mine = q.ahead mine := by
  by_cases hheld : q.holds h.id = true
  · rw [push, if_pos hheld]
  · exact ahead_concat hmine (ids_push hheld)

theorem holds_push (hmine : q.holds mine = true) (h : Handle) : (q.push h).holds mine = true := by
  by_cases hheld : q.holds h.id = true
  · rwa [push, if_pos hheld]
  · rw [← mem_ids, ids_push hheld]
    exact List.mem_append_left _ (mem_ids.2 hmine)

theorem ahead_foldl_push (hmine : q.holds mine = true) (hs : List Handle) :
    (hs.foldl push q).ahead mine = q.ahead mine := by
  induction hs generalizing q with
  | nil => rfl
  | cons h hs ih => exact (ih (holds_push hmine h)).trans (ahead_push hmine h)

/-- A state that is taken out is ahead of nobody. -/
theorem ahead_drop (hq : q.Tidy) (hmine : q.holds mine = true) {gone : StateNo}
    (hne : gone ≠ mine) : (q.drop gone).ahead mine = (q.ahead mine).filter (· ≠ gone) := by
  obtain ⟨behind, hids, hfront⟩ := ids_split hmine
  refine ahead_eq (behind.filter (· ≠ gone)) ?_ fun h => hfront (List.mem_filter.1 h).1
  rw [ids_drop hq, hids, List.filter_append, List.filter_cons_of_pos (by simpa using hne.symm)]

theorem mem_ahead_drop (hq : q.Tidy) (hmine : q.holds mine = true) {gone : StateNo}
    (hne : gone ≠ mine) : id ∈ (q.drop gone).ahead mine ↔ id ∈ q.ahead mine ∧ id ≠ gone := by
  rw [ahead_drop hq hmine hne, List.mem_filter, decide_eq_true_eq]

/-- Where states take turns, whoever is ahead of a state stays there until
it moves or is removed, and nobody joins. -/
theorem mem_ahead_hear (hq : q.Tidy) (horder : q.order = .breadth) (hmine : q.holds mine = true)
    {n : Notice} (hn : ¬ n.Takes mine) :
    id ∈ (q.hear n).ahead mine ↔ id ∈ q.ahead mine ∧ ¬ n.Takes id := by
  cases n with
  | added hs =>
      rw [hear, ahead_foldl_push hmine]
      exact (and_iff_left not_false).symm
  | removed h =>
      rw [hear, mem_ahead_drop hq hmine hn]
      exact and_congr_right' ne_comm
  | moved h =>
      rw [hear]
      by_cases hheld : q.holds h.id = true
      · have hdrop : (q.drop h.id).holds mine = true := by
          rw [← mem_ids, mem_ids_drop hq]
          exact ⟨mem_ids.2 hmine, fun heq => hn heq.symm⟩
        rw [ahead_concat hdrop (ids_advance_breadth horder hheld), mem_ahead_drop hq hmine hn]
        exact and_congr_right' ne_comm
      · rw [advance, if_neg hheld]
        refine (and_iff_left_of_imp fun hid heq => hheld ?_).symm
        rw [show h.id = id from heq]
        exact mem_ids.1 (mem_ids_of_mem_ahead hid)

/-- A state that has just moved stands behind all others. -/
theorem mem_ahead_advance (hq : q.Tidy) (horder : q.order = .breadth)
    (hmine : (q.advance h).holds h.id = true) (hid : (q.advance h).holds id = true)
    (hne : id ≠ h.id) : id ∈ (q.advance h).ahead h.id := by
  have hheld : q.holds h.id = true := by
    by_contra hnot
    rw [advance, if_neg hnot] at hmine
    exact hnot hmine
  have hids := ids_advance_breadth horder hheld
  have hgone : h.id ∉ (q.drop h.id).ids := fun hmem => ((mem_ids_drop hq).1 hmem).2 rfl
  rw [ahead_eq [] hids hgone]
  rw [← mem_ids, hids] at hid
  exact (List.mem_append.1 hid).resolve_right fun h => hne (List.mem_singleton.1 h)

-- ============================================================= one act more

/-- A queue on its graph in which states take turns. -/
structure Rotates (w : Scene Queue) : Prop where
  order : w.pool.order = .breadth
  tidy : w.pool.Tidy

theorem rotates_act (hw : Rotates w) (a : Act) : Rotates (w.act a) := by
  cases a with
  | peek =>
      have hpool : w.pool = (w.act .peek).pool := (pool_peek w.graph w.pool).symm
      exact ⟨hpool ▸ hw.order, hpool ▸ hw.tidy⟩
  | tell n step => exact ⟨(order_hear w.pool n).trans hw.order, tidy_hear hw.tidy n⟩
  | graph a => exact ⟨hw.order, hw.tidy⟩

theorem chosen?_eq (hw : Rotates w) : chosen? w = w.pool.ids.head? := by
  have hend := head?_map_id w.pool
  rw [hw.order] at hend
  refine Eq.trans ?_ hend
  rw [chosen?, Scene.peek]
  simp only [Pool.peek]
  cases w.pool.head? with
  | none => rfl
  | some h => rfl

/-- Whoever is chosen is a given state, with nobody ahead of it, or is ahead
of it. -/
theorem chosen_cases (hw : Rotates w) (mine : StateNo) (hid : chosen? w = some id) :
    (id = mine ∧ w.pool.ahead mine = []) ∨ (id ≠ mine ∧ id ∈ w.pool.ahead mine) := by
  obtain ⟨rest, hids⟩ := List.head?_eq_some_iff.1 ((chosen?_eq hw).symm.trans hid)
  by_cases hmine : id = mine
  · refine Or.inl ⟨hmine, ahead_eq rest ?_ List.not_mem_nil⟩
    rw [hids, hmine, List.nil_append]
  · refine Or.inr ⟨hmine, ?_⟩
    simp [ahead, hids, hmine]

/-- An act that takes a state from its place. -/
def Takes (id : StateNo) (a : Act) : Prop := ∃ n, a.notice? = some n ∧ n.Takes id

theorem mover?_eq_some {a : Act} (ha : a.mover? = some id) :
    ∃ h step, a = .tell (.moved h) step ∧ h.id = id := by
  cases a with
  | peek => cases ha
  | graph a => cases ha
  | tell n step =>
      cases n with
      | added hs => cases ha
      | removed h => cases ha
      | moved h => exact ⟨h, step, rfl, Option.some.inj ha⟩

theorem takes_of_mover? {a : Act} (ha : a.mover? = some id) : Takes id a := by
  obtain ⟨h, step, rfl, hid⟩ := mover?_eq_some ha
  exact ⟨.moved h, rfl, hid⟩

/-- A state that stays queued leaves its place only for a move. -/
theorem mover?_of_takes {a : Act} (hw : Rotates w) (hid : (w.act a).pool.holds id = true)
    (ha : Takes id a) : a.mover? = some id := by
  obtain ⟨n, hn, htakes⟩ := ha
  cases a with
  | peek => cases hn
  | graph a => cases hn
  | tell n' step =>
      obtain rfl := Option.some.inj hn
      cases n' with
      | added hs => exact htakes.elim
      | moved h => exact congrArg some htakes
      | removed h =>
          have hmem : id ∈ (w.pool.drop h.id).ids := mem_ids.2 hid
          exact absurd htakes.symm ((mem_ids_drop hw.tidy).1 hmem).2

theorem not_takes_of_untold {a : Act} (ha : a.notice? = none) : ¬ Takes id a := by
  intro h
  obtain ⟨n, hn, -⟩ := h
  cases ha.symm.trans hn

theorem mem_ahead_act {a : Act} (hw : Rotates w) (hmine : w.pool.holds mine = true)
    (ha : ¬ Takes mine a) :
    id ∈ (w.act a).pool.ahead mine ↔ id ∈ w.pool.ahead mine ∧ ¬ Takes id a := by
  cases a with
  | peek =>
      rw [Scene.act, Scene.peek, pool_peek]
      exact (and_iff_left (not_takes_of_untold rfl)).symm
  | tell n step =>
      have htakes : ∀ {x : StateNo}, Takes x (.tell n step) ↔ n.Takes x := by
        simp [Takes, Act.notice?]
      rw [htakes] at ha ⊢
      exact mem_ahead_hear hw.tidy hw.order hmine ha
  | graph a => exact (and_iff_left (not_takes_of_untold rfl)).symm

-- ================================================================= a round

variable {as bs : List Act}

theorem stays_head (hid : Stays w id as) : w.pool.holds id = true := by
  cases as with
  | nil => exact hid
  | cons a as => exact hid.1

theorem stays_prefix (hid : Stays w id (as ++ bs)) : Stays w id as := by
  induction as generalizing w with
  | nil => exact stays_head hid
  | cons a as ih => exact ⟨hid.1, ih hid.2⟩

theorem rotates_run (hw : Rotates w) (as : List Act) : Rotates (w.run as) :=
  Scene.run_induction (P := Rotates) (fun _ a hv => rotates_act hv a) hw as

theorem turnByTurn_append (h : TurnByTurn w due (as ++ bs)) :
    TurnByTurn w due as ∧ ∃ due', TurnByTurn (w.run as) due' bs := by
  induction as generalizing w due with
  | nil => exact ⟨trivial, due, h⟩
  | cons a as ih =>
      obtain ⟨hfront, hback⟩ := ih h.2
      exact ⟨⟨h.1, hfront⟩, hback⟩

/-- Only a choice makes a state due. -/
theorem dueAfter_ne {a : Act} (hchosen : chosen? w ≠ some id) (hdue : due ≠ some id) :
    dueAfter w due a ≠ some id := by
  cases a with
  | peek => exact hchosen
  | graph a => exact hdue
  | tell n step =>
      cases n with
      | added hs => exact hdue
      | removed h => exact hdue
      | moved h => exact nofun

theorem dueAfter_of_mover? {a : Act} (ha : a.mover? = some id) : dueAfter w due a = none := by
  obtain ⟨h, step, rfl, -⟩ := mover?_eq_some ha
  rfl

/-- While a state waits in a run: it stays queued, and does not move. -/
structure Waits (w : Scene Queue) (mine : StateNo) (as : List Act) : Prop where
  stays : Stays w mine as
  still : ∀ a ∈ as, a.mover? ≠ some mine

theorem Waits.tail {a : Act} (h : Waits w mine (a :: as)) : Waits (w.act a) mine as :=
  ⟨h.stays.2, fun b hb => h.still b (List.mem_cons_of_mem _ hb)⟩

theorem Waits.mem_ahead {a : Act} (hw : Rotates w) (h : Waits w mine (a :: as)) :
    id ∈ (w.act a).pool.ahead mine ↔ id ∈ w.pool.ahead mine ∧ ¬ Takes id a := by
  refine mem_ahead_act hw h.stays.1 fun ha => ?_
  exact h.still a List.mem_cons_self (mover?_of_takes hw (stays_head h.stays.2) ha)

/-- Whoever is ahead at the end of a wait has been so all along. -/
theorem Waits.ahead_all_along (hw : Rotates w) (h : Waits w mine as)
    (hid : id ∈ (w.run as).pool.ahead mine) : id ∈ w.pool.ahead mine ∧ Stays w id as := by
  induction as generalizing w with
  | nil => exact ⟨hid, mem_ids.1 (mem_ids_of_mem_ahead hid)⟩
  | cons a as ih =>
      obtain ⟨hnext, hstays⟩ := ih (rotates_act hw a) h.tail hid
      have hnow := ((h.mem_ahead hw).1 hnext).1
      exact ⟨hnow, mem_ids.1 (mem_ids_of_mem_ahead hnow), hstays⟩

/-- A state that is no longer ahead does not move again. -/
theorem Waits.moves_no_more (hw : Rotates w) (h : Waits w mine as) (hturn : TurnByTurn w due as)
    (hid : id ∉ w.pool.ahead mine) (hne : id ≠ mine) (hdue : due ≠ some id) :
    ∀ a ∈ as, a.mover? ≠ some id := by
  induction as generalizing w due with
  | nil => exact fun a ha => nomatch ha
  | cons a as ih =>
      rw [List.forall_mem_cons]
      have hchosen : chosen? w ≠ some id := by
        intro hc
        rcases chosen_cases hw mine hc with hc | hc
        · exact hne hc.1
        · exact hid hc.2
      refine ⟨fun ha => ?_, ih (rotates_act hw a) h.tail hturn.2 (fun hin => ?_)
        (dueAfter_ne hchosen hdue)⟩
      · rcases hturn.1 with hmove | hmove
        · exact nomatch ha.symm.trans hmove
        · exact hdue (hmove.symm.trans ha)
      · exact hid ((h.mem_ahead hw).1 hin).1

/-- One that is ahead and stays queued moves once before the state does. -/
theorem Waits.moves_once {last : Act} (hw : Rotates w) (h : Waits w mine as)
    (hlast : last.mover? = some mine) (hturn : TurnByTurn w due (as ++ [last]))
    (hid : id ∈ w.pool.ahead mine) (hne : id ≠ mine) (hstays : Stays w id as)
    (hdue : due ≠ some mine) : as.countP (fun a => a.mover? = some id) = 1 := by
  induction as generalizing w due with
  | nil =>
      rcases hturn.1 with hmove | hmove
      · exact nomatch hlast.symm.trans hmove
      · exact absurd (hmove.symm.trans hlast) hdue
  | cons a as ih =>
      have hw' := rotates_act hw a
      by_cases ha : a.mover? = some id
      · rw [List.countP_cons_of_pos (by simpa using ha), List.countP_eq_zero.2]
        have hgone : id ∉ (w.act a).pool.ahead mine := by
          intro hin
          exact ((h.mem_ahead hw).1 hin).2 (takes_of_mover? ha)
        have hrest := h.tail.moves_no_more hw' (turnByTurn_append hturn.2).1 hgone hne
          (dueAfter_of_mover? ha ▸ nofun)
        intro b hb
        simpa using hrest b hb
      · rw [List.countP_cons_of_neg (by simpa using ha)]
        have hthere : id ∈ (w.act a).pool.ahead mine :=
          (h.mem_ahead hw).2 ⟨hid, fun ht => ha (mover?_of_takes hw (stays_head hstays.2) ht)⟩
        refine ih hw' h.tail hturn.2 hthere hstays.2 (dueAfter_ne (fun hc => ?_) hdue)
        rcases chosen_cases hw mine hc with hc | hc
        · rw [hc.2] at hid
          cases hid
        · exact hc.1 rfl

-- ============================================================== fair turns

/-- Where states take turns, before anything has come in. -/
def turns (g : FlowGraph) : Scene Queue := ⟨g, empty .breadth⟩

/-- The scene when a state has moved at the end of a run. -/
def afterMove (g : FlowGraph) (early : List Act) (h : Handle) (step : Nat) : Scene Queue :=
  (turns g).run (early ++ [.tell (.moved h) step])

/-- From one move of a state to its next, in a run in which nothing but the
state that is due moves. -/
structure Round (g : FlowGraph) (early : List Act) (h : Handle) (step : Nat) (mid : List Act)
    (h' : Handle) (step' : Nat) : Prop where
  turn : TurnByTurn (turns g) none
    (early ++ .tell (.moved h) step :: (mid ++ [.tell (.moved h') step']))
  same : h'.id = h.id
  between : ∀ a ∈ mid, a.mover? ≠ some h.id

/-- What is fair while a state waits: each of the others that stay queued
moves once, and nobody is chosen that has not been queued all the while. -/
structure Fair (w : Scene Queue) (mine : StateNo) (as : List Act) : Prop where
  once : ∀ id, id ≠ mine → Stays w id as → as.countP (fun a => a.mover? = some id) = 1
  chosen : ∀ before h, before <+: as → (w.run before).peek.result = .ok h → Stays w h.id before

theorem Waits.fair {last : Act} (hw : Rotates w) (h : Waits w mine as)
    (hlast : last.mover? = some mine) (hturn : TurnByTurn w none (as ++ [last]))
    (hahead : ∀ id, id ≠ mine → w.pool.holds id = true → id ∈ w.pool.ahead mine) :
    Fair w mine as := by
  refine ⟨fun id hne hid => ?_, fun before x hbefore hx => ?_⟩
  · exact h.moves_once hw hlast hturn (hahead id hne (stays_head hid)) hne hid nofun
  · obtain ⟨rest, rfl⟩ := hbefore
    have hstays := stays_prefix h.stays
    have hchosen : chosen? (w.run before) = some x.id := by
      rw [chosen?, hx]
      rfl
    rcases chosen_cases (rotates_run hw before) mine hchosen with hc | hc
    · rw [hc.1]
      exact hstays
    · have hwait : Waits w mine before :=
        ⟨hstays, fun a ha => h.still a (List.mem_append_left _ ha)⟩
      exact (hwait.ahead_all_along hw hc.2).2

/-- Where only the state chosen last is moved, breadth is fair from one move
of a state to its next, if the state stays queued. -/
theorem fair_of_stays (g : FlowGraph) (early mid : List Act) (h h' : Handle) (step step' : Nat)
    (hround : Round g early h step mid h' step')
    (hstays : Stays (afterMove g early h step) h.id mid) :
    Fair (afterMove g early h step) h.id mid := by
  obtain ⟨-, due, hturn⟩ := turnByTurn_append hround.turn
  have hopen : Rotates (turns g) := ⟨rfl, List.nodup_nil⟩
  have hw := rotates_run hopen early
  have hmoved : afterMove g early h step = ((turns g).run early).act (.tell (.moved h) step) := by
    rw [afterMove, Scene.run_append]
    rfl
  have hheld := stays_head hstays
  rw [hmoved] at hheld hstays ⊢
  have hlast : (Act.tell (.moved h') step').mover? = some h.id := congrArg some hround.same
  refine Waits.fair (rotates_act hw _) ⟨hstays, hround.between⟩ hlast hturn.2 fun id hne hid => ?_
  exact mem_ahead_advance hw.tidy hw.order hheld hid hne

/-- Three states come in, and the first is chosen. -/
def arrival : List Act := [.tell (.added [unmoved 0, unmoved 1, unmoved 2]) 0, .peek]

/-- One more comes in, one moves and one is removed. -/
def meanwhile : List Act :=
  [.tell (.added [unmoved 3, unmoved 1]) 2, .peek, .tell (.moved (unmoved 1)) 3,
    .tell (.removed (unmoved 2)) 4, .peek, .peek]

theorem fair_of_stays_meanwhile :
    Round .empty arrival (unmoved 0) 1 meanwhile (unmoved 0) 5 ∧
      Stays (afterMove .empty arrival (unmoved 0) 1) 0 meanwhile ∧
      Fair (afterMove .empty arrival (unmoved 0) 1) 0 meanwhile := by
  have hround : Round .empty arrival (unmoved 0) 1 meanwhile (unmoved 0) 5 :=
    ⟨by decide, rfl, by decide⟩
  have hstays : Stays (afterMove .empty arrival (unmoved 0) 1) 0 meanwhile := by decide
  exact ⟨hround, hstays, fair_of_stays .empty arrival meanwhile _ _ 1 5 hround hstays⟩

/-- A state that is removed and comes in again goes behind those that have
moved since: here the other moves twice before it. -/
theorem unfair_to_returned :
    ¬ ∀ (g : FlowGraph) (early mid : List Act) (h h' : Handle) (step step' : Nat),
      Round g early h step mid h' step' →
        ∀ id, id ≠ h.id → Stays (afterMove g early h step) id mid →
          mid.countP (fun a => a.mover? = some id) = 1 := by
  intro hfair
  have htwice := hfair .empty [.tell (.added [unmoved 0, unmoved 1]) 0, .peek]
    [.tell (.removed (unmoved 0)) 2, .peek, .tell (.moved (unmoved 1)) 3,
      .tell (.added [unmoved 0]) 4, .peek, .tell (.moved (unmoved 1)) 5, .peek]
    (unmoved 0) (unmoved 0) 1 6 ⟨by decide, rfl, by decide⟩ 1 (by decide) (by decide)
  exact absurd htwice (by decide)

end Queue

end SymbolicSearch
