/-
What each operation of a guided pool does, read once. Asking comes to one
of five things (`peek_cases`), a notice of a state that goes or moves to
two or three (`letGo_cases`, `followUp_cases`), and none has to do with the
adviser (`tell_pool`). What becomes of the tracked states is said by look-ups
(`find?_track`, `find?_letGo`).
-/
import SymbolicSearch.Guided

namespace SymbolicSearch

theorem Adviser.snapshot_consult (a : Adviser) (s : Snapshot) : (a.consult s).1.snapshot = s := by
  cases a with
  | model m => rfl
  | oracle o => cases o <;> rfl

/-- Being asked does not make an adviser remember. -/
theorem Adviser.remembers_consult (a : Adviser) (s : Snapshot) :
    (a.consult s).2.remembers = a.remembers := by
  cases a <;> rfl

namespace Guided

variable {p : Guided} {g : FlowGraph}

-- ================================================================= asking

theorem find?_recount (id : Nat) :
    (p.recount g).tracked.find? id =
      (p.tracked.find? id).map fun w => { w with trail := w.trail.recount g } :=
  IdMap.find?_map

theorem consult_fst (p : Guided) (g : FlowGraph) :
    (p.consult g).1 = (p.adviser.consult ((p.recount g).snapshot g)).1 := by
  unfold consult
  simp only
  split <;> rfl

theorem snapshot_consult (p : Guided) (g : FlowGraph) :
    (p.consult g).1.snapshot = (p.recount g).snapshot g := by
  rw [consult_fst, Adviser.snapshot_consult]

/-- The pool after an answer: nothing is noted any more. -/
theorem consult_of_ok {id : StateNo} (h : (p.consult g).1.answer = .ok id) :
    (p.consult g).2 =
      { p.recount g with
        adviser := (p.adviser.consult ((p.recount g).snapshot g)).2
        mark := g.size, answered := true, touchedStates := ∅, touchedBlocks := ∅ } := by
  rw [consult_fst] at h
  unfold consult
  simp only
  split
  next => rfl
  next e he =>
    have hok := h.symm.trans he
    cases hok

/-- The pool after a failure: it has looked at the graph, and all else is
as it was. -/
theorem consult_of_error {e : Fault} (h : (p.consult g).1.answer = .error e) :
    (p.consult g).2 =
      { p.recount g with
        adviser := (p.adviser.consult ((p.recount g).snapshot g)).2
        mark := g.size } := by
  rw [consult_fst] at h
  unfold consult
  simp only
  split
  next id hid =>
    have hok := h.symm.trans hid
    cases hok
  next => rfl

/-- A question changes neither the policy nor what was chosen last. -/
theorem consult_keeps (p : Guided) (g : FlowGraph) :
    (p.consult g).2.policy = p.policy ∧ (p.consult g).2.chosen = p.chosen := by
  cases h : (p.consult g).1.answer with
  | ok id => rw [consult_of_ok h]; exact ⟨rfl, rfl⟩
  | error e => rw [consult_of_error h]; exact ⟨rfl, rfl⟩

/-- The states of a pool after asking, up to their counters. -/
theorem find?_consult (p : Guided) (g : FlowGraph) (id : StateNo) :
    (p.consult g).2.tracked.find? id =
      (p.tracked.find? id).map fun w => { w with trail := w.trail.recount g } := by
  rw [← find?_recount]
  cases h : (p.consult g).1.answer with
  | ok id => rw [consult_of_ok h]
  | error e => rw [consult_of_error h]

/-- Asking comes to one of five things. -/
theorem peek_cases (g : FlowGraph) (p : Guided) :
    (p.tracked.entries = [] ∧ peek g p = ⟨.error .emptyPool, p, none⟩) ∨
      (∃ id w, p.tracked.entries = [(id, w)] ∧
        peek g p = ⟨.ok w.handle, { p with chosen := some id }, none⟩) ∨
      (2 ≤ p.tracked.entries.length ∧ ∃ e, (p.consult g).1.answer = .error e ∧
        peek g p = ⟨.error e, (p.consult g).2, some (p.consult g).1⟩) ∨
      (2 ≤ p.tracked.entries.length ∧ ∃ id, (p.consult g).1.answer = .ok id ∧
        (p.consult g).2.tracked.find? id = none ∧
        peek g p =
          ⟨.error (.breach (.untracked id)), (p.consult g).2, some (p.consult g).1⟩) ∨
      (2 ≤ p.tracked.entries.length ∧ ∃ id w, (p.consult g).1.answer = .ok id ∧
        (p.consult g).2.tracked.find? id = some w ∧
        peek g p =
          ⟨.ok w.handle, { (p.consult g).2 with chosen := some id }, some (p.consult g).1⟩) := by
  unfold peek
  cases hentries : p.tracked.entries with
  | nil => exact Or.inl ⟨rfl, rfl⟩
  | cons x rest =>
      cases rest with
      | nil => exact Or.inr (Or.inl ⟨x.1, x.2, rfl, rfl⟩)
      | cons y rest =>
          have htwo : 2 ≤ (x :: y :: rest).length := by simp
          right
          right
          cases hanswer : (p.consult g).1.answer with
          | error e => exact Or.inl ⟨htwo, e, rfl, by simp only [hanswer]⟩
          | ok id =>
              right
              cases hfind : (p.consult g).2.tracked.find? id with
              | none => exact Or.inl ⟨htwo, id, rfl, hfind, by simp only [hanswer, hfind]⟩
              | some w => exact Or.inr ⟨htwo, id, w, rfl, hfind, by simp only [hanswer, hfind]⟩

/-- Asking changes what is chosen and, if the adviser is asked, what
asking it changes. -/
theorem peek_pool (g : FlowGraph) (p : Guided) :
    ((peek g p).asked = none ∧ ∃ o, (peek g p).pool = { p with chosen := o }) ∨
      ((peek g p).asked = some (p.consult g).1 ∧
        ∃ o, (peek g p).pool = { (p.consult g).2 with chosen := o }) := by
  obtain ⟨-, h⟩ | ⟨id, w, -, h⟩ | ⟨-, e, -, h⟩ | ⟨-, id, -, -, h⟩ | ⟨-, id, w, -, -, h⟩ :=
    peek_cases g p
  · rw [h]
    exact Or.inl ⟨rfl, p.chosen, rfl⟩
  · rw [h]
    exact Or.inl ⟨rfl, some id, rfl⟩
  · rw [h]
    exact Or.inr ⟨rfl, (p.consult g).2.chosen, rfl⟩
  · rw [h]
    exact Or.inr ⟨rfl, (p.consult g).2.chosen, rfl⟩
  · rw [h]
    exact Or.inr ⟨rfl, some id, rfl⟩

-- =============================================================== taking in

/-- The trail of a state taken in: a fork of the parent's, if there is a
parent. -/
def offspring (step : Nat) (parent : Option (StateNo × Trail)) (h : Handle) : Trail :=
  match parent with
  | some (_, t) => t.fork h.id step
  | none => .fresh h.id step

/-- A tracked state while another is taken in: the parent adopts it. -/
def adopting (parent : Option (StateNo × Trail)) (child id : StateNo) (w : Walker) : Walker :=
  if parent.map Prod.fst = some id then { w with trail := w.trail.adopt child } else w

theorem track_of_tracked {step : Nat} {parent : Option (StateNo × Trail)} {h : Handle}
    (ht : p.tracked.contains h.id = true) : track step parent p h = p := by
  unfold track
  rw [if_pos ht]

theorem find?_track {step : Nat} {parent : Option (StateNo × Trail)} {h : Handle}
    (ht : p.tracked.contains h.id = false) (id : StateNo) :
    (track step parent p h).tracked.find? id =
      if id = h.id then some ⟨h, offspring step parent h⟩
      else (p.tracked.find? id).map (adopting parent h.id id) := by
  unfold track
  rw [if_neg (by simp [ht])]
  cases parent with
  | none =>
      simp only [IdMap.find?_insert, offspring]
      split
      · rfl
      · cases p.tracked.find? id <;> simp [adopting]
  | some q =>
      obtain ⟨k, t⟩ := q
      simp only [IdMap.find?_insert, IdMap.find?_modify, offspring]
      split
      · rfl
      · by_cases hk : id = k
        · subst hk
          rw [if_pos rfl]
          exact Option.map_congr fun w _ => by simp [adopting]
        · rw [if_neg hk]
          cases p.tracked.find? id with
          | none => rfl
          | some w => simp [adopting, Ne.symm hk]

theorem touchedStates_track {step : Nat} {parent : Option (StateNo × Trail)} {h : Handle}
    (ht : p.tracked.contains h.id = false) :
    (track step parent p h).touchedStates = p.touchedStates.insert h.id := by
  unfold track
  rw [if_neg (by simp [ht])]

/-- Taking a state in changes the tracked and the noted states only. -/
theorem track_eq (step : Nat) (parent : Option (StateNo × Trail)) (p : Guided) (h : Handle) :
    track step parent p h =
      { p with
        tracked := (track step parent p h).tracked
        touchedStates := (track step parent p h).touchedStates } := by
  unfold track
  split <;> rfl

/-- Taking states in changes the tracked and the noted states only. -/
theorem foldl_track_eq (step : Nat) (parent : Option (StateNo × Trail)) (hs : List Handle)
    (p : Guided) :
    hs.foldl (track step parent) p =
      { p with
        tracked := (hs.foldl (track step parent) p).tracked
        touchedStates := (hs.foldl (track step parent) p).touchedStates } := by
  induction hs generalizing p with
  | nil => rfl
  | cons h rest ih =>
      rw [List.foldl_cons, ih (track step parent p h), track_eq step parent p h]

/-- The parent, which is noted if a state that comes in is new. -/
def elders (p : Guided) (hs : List Handle) : List StateNo :=
  if hs.any fun h => !p.tracked.contains h.id then (p.parent?.map Prod.fst).toList else []

theorem takeIn_eq (p : Guided) (hs : List Handle) (step : Nat) (g : FlowGraph) :
    p.takeIn hs step g =
      { p with
        tracked := (hs.foldl (track step p.parent?) p).tracked
        touchedStates :=
          (hs.foldl (track step p.parent?) p).touchedStates.insertAll (p.elders hs)
        touchedBlocks := p.touchedBlocks.insertAll (g.since p.mark)
        mark := g.size } := by
  unfold takeIn
  simp only
  rw [foldl_track_eq step p.parent? hs p]
  rfl

-- ================================================================ letting go

/-- A tracked state while another goes: its parent and its children lose
sight of it. -/
def parting (gone : StateNo) (t : Trail) (id : StateNo) (w : Walker) : Walker :=
  let w := if t.parent = some id then { w with trail := w.trail.disown gone } else w
  if id ∈ t.children then { w with trail := w.trail.orphan } else w

/-- Those that lose sight of a state when it goes. -/
def kin (t : Trail) : List StateNo := t.parent.toList ++ t.children.toList

theorem mem_kin {t : Trail} {id : StateNo} :
    id ∈ kin t ↔ t.parent = some id ∨ id ∈ t.children := by
  rw [kin, List.mem_append, Option.mem_toList]
  rfl

/-- The blocks that are noted when a state goes: where it stood, and all
it has seen if it could still have been run. -/
def leavings (w : Walker) : List BlockNo :=
  w.trail.block.toList ++ if w.handle.satisfiable then w.trail.history.keys else []

/-- A state that goes is not tracked, or is let go. -/
theorem letGo_cases (p : Guided) (h : Handle) (g : FlowGraph) :
    (p.tracked.find? h.id = none ∧ p.letGo h g = (p, g)) ∨
      ∃ w, p.tracked.find? h.id = some w ∧
        p.letGo h g =
          ({ p with
              tracked := (p.tracked.erase h.id).map (parting h.id w.trail)
              chosen := if p.chosen = some h.id then none else p.chosen
              touchedStates := (p.touchedStates.insertAll
                ((kin w.trail).filter (p.tracked.erase h.id).contains)).erase h.id
              touchedBlocks := p.touchedBlocks.insertAll (leavings w) },
            w.trail.leave g) := by
  unfold letGo
  cases ht : p.tracked.find? h.id with
  | none => exact Or.inl ⟨rfl, rfl⟩
  | some w => exact Or.inr ⟨w, rfl, rfl⟩

theorem find?_letGo {h : Handle} {w : Walker} (ht : p.tracked.find? h.id = some w)
    (id : StateNo) :
    (p.letGo h g).1.tracked.find? id =
      if id = h.id then none else (p.tracked.find? id).map (parting h.id w.trail id) := by
  obtain ⟨hnone, -⟩ | ⟨w', hw', heq⟩ := letGo_cases p h g
  · rw [ht] at hnone
    cases hnone
  · obtain rfl := Option.some.inj (ht.symm.trans hw')
    rw [heq]
    simp only [IdMap.find?_map, IdMap.find?_erase]
    split <;> rfl

-- ============================================================== following up

/-- The blocks that are noted when a state moves: the one it comes to, and
the one it leaves. -/
def passage (t t' : Trail) : List BlockNo :=
  (if t.block = t'.block then [] else t.block.toList) ++ t'.block.toList

/-- A state that moves is not tracked, stands nowhere, or is followed. -/
theorem followUp_cases (p : Guided) (h : Handle) (step : Nat) (g : FlowGraph) :
    (p.tracked.find? h.id = none ∧ p.followUp h step g = ⟨.ok (), p, g⟩) ∨
      (∃ w e, p.tracked.find? h.id = some w ∧ w.trail.follow h step g = .error e ∧
        p.followUp h step g = ⟨.error e, p, g⟩) ∨
      ∃ w t g', p.tracked.find? h.id = some w ∧ w.trail.follow h step g = .ok (t, g') ∧
        p.followUp h step g =
          ⟨.ok (),
            { p with
              tracked := p.tracked.insert h.id ⟨h, t⟩
              touchedStates := p.touchedStates.insert h.id
              touchedBlocks := p.touchedBlocks.insertAll (passage w.trail t) },
            g'⟩ := by
  unfold followUp
  cases ht : p.tracked.find? h.id with
  | none => exact Or.inl ⟨rfl, rfl⟩
  | some w =>
      right
      cases hf : w.trail.follow h step g with
      | error e => exact Or.inl ⟨w, e, rfl, hf, by simp only [hf]⟩
      | ok moved =>
          obtain ⟨t, g'⟩ := moved
          exact Or.inr ⟨w, t, g', rfl, hf, by simp only [hf]; rfl⟩

-- ================================================================== a notice

/-- A notice has nothing to do with the adviser. -/
theorem tell_pool (p : Guided) (n : Notice) (step : Nat) (g : FlowGraph) :
    ∃ tracked chosen states blocks mark, (p.tell n step g).pool =
      { p with
        tracked := tracked, chosen := chosen, touchedStates := states
        touchedBlocks := blocks, mark := mark } := by
  cases n with
  | added hs => exact ⟨_, _, _, _, _, takeIn_eq p hs step g⟩
  | removed h =>
      obtain ⟨-, heq⟩ | ⟨w, -, heq⟩ := letGo_cases p h g
      · exact ⟨_, _, _, _, _, congrArg Prod.fst heq⟩
      · exact ⟨_, _, _, _, _, congrArg Prod.fst heq⟩
  | moved h =>
      obtain ⟨-, heq⟩ | ⟨w, e, -, -, heq⟩ | ⟨w, t, g', -, -, heq⟩ := followUp_cases p h step g
      · exact ⟨_, _, _, _, _, congrArg Told.pool heq⟩
      · exact ⟨_, _, _, _, _, congrArg Told.pool heq⟩
      · exact ⟨_, _, _, _, _, congrArg Told.pool heq⟩

end Guided

end SymbolicSearch
