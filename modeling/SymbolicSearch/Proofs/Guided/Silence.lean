/-
Notices that leave no trace. A guided pool passes over a notice of a state
that goes or moves if it does not track the state, and a move fails if the
state has come to where there is no block. Take such notices out of a run,
each as it is met there: what is left comes to what it came to, asks the
adviser the same, and ends in the same scene (`silence_kept`).

# Idle acts

That an act is vain is a matter of the moment, and the run that is left has
other moments than the whole run. They are the same scenes all the same: an
act that leaves its scene as it is (`Scene.Idle`) can be taken out of any
run, and the next act finds the scene that it would have found. So the
induction is from the front, with the scene as it is.
-/
import SymbolicSearch.Proofs.Guided.Mirror
import SymbolicSearch.Proofs.Roster
import SymbolicSearch.Proofs.Trail.Way

namespace SymbolicSearch

namespace Scene

section

variable {σ : Type} [Pool σ] {idle : Scene σ → Act → Bool} {w : Scene σ} {as : List Act}

-- ================================================================= idle acts

/-- An act that changes nothing and asks nobody. -/
structure Idle (w : Scene σ) (a : Act) : Prop where
  still : w.act a = w
  unasked : (w.outcome a).consultation? = none

/-- The acts of a run that are not idle when it comes to them, and what they
come to. -/
def lasting (idle : Scene σ → Act → Bool) (w : Scene σ) : List Act → List (Act × Outcome)
  | [] => []
  | a :: as =>
    if idle w a then lasting idle (w.act a) as
    else (a, w.outcome a) :: lasting idle (w.act a) as

/-- A run without its idle acts. -/
def stripped (idle : Scene σ → Act → Bool) (w : Scene σ) (as : List Act) : List Act :=
  (lasting idle w as).map Prod.fst

/-- What lasts is a part of the run, in its order. -/
theorem lasting_sublist : (lasting idle w as).Sublist (as.zip (w.outcomes as)) := by
  induction as generalizing w with
  | nil => exact List.Sublist.refl _
  | cons a as ih =>
      rw [outcomes, List.zip_cons_cons, lasting]
      split
      · exact ih.cons _
      · exact ih.cons_cons _

theorem forall_lasting {P : Outcome → Prop} (h : ∀ w a, idle w a = false → P (w.outcome a)) :
    ∀ x ∈ lasting idle w as, P x.2 := by
  induction as generalizing w with
  | nil => exact fun x hx => nomatch hx
  | cons a as ih =>
      rw [lasting]
      split
      next => exact ih
      next hlasts => exact List.forall_mem_cons.2 ⟨h w a (Bool.not_eq_true _ ▸ hlasts), ih⟩

theorem stripped_cons_of_idle {a : Act} (h : idle w a = true) (hi : w.Idle a) :
    stripped idle w (a :: as) = stripped idle w as := by
  rw [stripped, lasting, if_pos h, hi.still]
  rfl

theorem stripped_cons_of_not {a : Act} (h : ¬ idle w a = true) :
    stripped idle w (a :: as) = a :: stripped idle (w.act a) as := by
  rw [stripped, lasting, if_neg h, List.map_cons]
  rfl

section

variable (hidle : ∀ w a, idle w a = true → w.Idle a)

include hidle

theorem run_stripped : w.run (stripped idle w as) = w.run as := by
  induction as generalizing w with
  | nil => rfl
  | cons a as ih =>
      by_cases h : idle w a = true
      · have hi := hidle w a h
        rw [stripped_cons_of_idle h hi, run_cons, hi.still]
        exact ih
      · rw [stripped_cons_of_not h, run_cons, run_cons]
        exact ih

theorem outcomes_stripped : w.outcomes (stripped idle w as) = (lasting idle w as).map Prod.snd := by
  induction as generalizing w with
  | nil => rfl
  | cons a as ih =>
      by_cases h : idle w a = true
      · have hi := hidle w a h
        rw [stripped_cons_of_idle h hi, lasting, if_pos h, hi.still]
        exact ih
      · rw [stripped_cons_of_not h, lasting, if_neg h, outcomes, List.map_cons, ih]

theorem consultations_stripped : w.consultations (stripped idle w as) = w.consultations as := by
  induction as generalizing w with
  | nil => rfl
  | cons a as ih =>
      by_cases h : idle w a = true
      · have hi := hidle w a h
        rw [stripped_cons_of_idle h hi, consultations_cons, hi.unasked, hi.still]
        exact ih
      · rw [stripped_cons_of_not h, consultations_cons, consultations_cons, ih]

/-- What is left has no idle acts of its own. -/
theorem lasting_stripped : lasting idle w (stripped idle w as) = lasting idle w as := by
  induction as generalizing w with
  | nil => rfl
  | cons a as ih =>
      by_cases h : idle w a = true
      · have hi := hidle w a h
        rw [stripped_cons_of_idle h hi, lasting, if_pos h, hi.still]
        exact ih
      · rw [stripped_cons_of_not h, lasting, lasting, if_neg h, if_neg h, ih]

end

end

end Scene

/-- A statement that cannot be placed lies in no block. -/
theorem FlowGraph.locate_eq_error {g : FlowGraph} {stmt : Stmt} {e : Fault}
    (h : g.locate stmt = .error e) : e = .unplaced stmt.site := by
  unfold locate at h
  split at h
  · cases h
  · exact (Except.error.inj h).symm

namespace Guided

-- ============================================================== vain notices

/-- The act is a notice of a state that goes or moves and is not tracked, or
of one that has moved to where there is no block. -/
def isVain (w : Scene Guided) : Act → Bool
  | .tell (.removed h) _ => !w.pool.tracked.contains h.id
  | .tell (.moved h) step =>
    !w.pool.tracked.contains h.id ||
      match (w.tell (.moved h) step).result with
      | .error (.unplaced _) => true
      | _ => false
  | _ => false

/-- A move is vain just if its state is not tracked or the move fails; it
fails only for want of a block. -/
theorem isVain_moved {w : Scene Guided} {h : Handle} {step : Nat} :
    isVain w (.tell (.moved h) step) = true ↔
      w.pool.tracked.find? h.id = none ∨ ∃ e, (w.tell (.moved h) step).result = .error e := by
  rw [isVain, Bool.or_eq_true, Bool.not_eq_true', IdMap.contains_eq_false]
  refine or_congr_right ?_
  rcases moved_cases w h step with ⟨-, hok, -⟩ | ⟨v, e, -, hf, herror, -⟩ | ⟨v, t, g, -, -, hok, -⟩
  · rw [hok]
    exact iff_of_false Bool.false_ne_true fun ⟨e, he⟩ => nomatch he
  · obtain ⟨stmt, -, he⟩ := Trail.follow_eq_error hf
    rw [herror, FlowGraph.locate_eq_error he]
    exact iff_of_true rfl ⟨_, rfl⟩
  · rw [hok]
    exact iff_of_false Bool.false_ne_true fun ⟨e, he⟩ => nomatch he

/-- A vain notice leaves the pool and the graph as they are. -/
theorem idle_of_isVain (w : Scene Guided) (a : Act) (hvain : isVain w a = true) : w.Idle a := by
  cases a with
  | peek => cases hvain
  | graph a => cases hvain
  | tell n step =>
      refine ⟨?_, rfl⟩
      cases n with
      | added hs => cases hvain
      | removed h =>
          have hnone : w.pool.tracked.find? h.id = none := by
            rwa [isVain, Bool.not_eq_true', IdMap.contains_eq_false] at hvain
          show (⟨(w.pool.letGo h w.graph).2, (w.pool.letGo h w.graph).1⟩ : Scene Guided) = w
          rcases letGo_cases w.pool h w.graph with ⟨-, heq⟩ | ⟨v, hv, -⟩
          · rw [heq]
          · cases hnone.symm.trans hv
      | moved h =>
          rcases moved_cases w h step with
            ⟨-, -, hact⟩ | ⟨-, -, -, -, -, hact⟩ | ⟨v, t, g, hv, -, hok, -⟩
          · exact hact
          · exact hact
          · rw [isVain_moved, hv, hok] at hvain
            rcases hvain with hnone | ⟨e, he⟩
            · cases hnone
            · cases he

/-- A notice that fails is vain. -/
theorem isVain_of_error {w : Scene Guided} {n : Notice} {step : Nat} {e : Fault}
    (he : (w.tell n step).result = .error e) : isVain w (.tell n step) = true := by
  cases n with
  | added hs => cases he
  | removed h => cases he
  | moved h => exact isVain_moved.2 (Or.inr ⟨e, he⟩)

/-- Take the vain notices out of a run, each as it is met there. What is left
comes to what it came to, asks the adviser the same questions in the same
order, and ends in the same scene; there is no vain notice in it, and none
that fails. -/
theorem silence_kept (w : Scene Guided) (as : List Act) :
    (Scene.lasting isVain w as).Sublist (as.zip (w.outcomes as)) ∧
      w.outcomes (Scene.stripped isVain w as) = (Scene.lasting isVain w as).map Prod.snd ∧
      w.consultations (Scene.stripped isVain w as) = w.consultations as ∧
      w.run (Scene.stripped isVain w as) = w.run as ∧
      Scene.stripped isVain w (Scene.stripped isVain w as) = Scene.stripped isVain w as ∧
      ∀ n e, .told n (.error e) ∉ w.outcomes (Scene.stripped isVain w as) := by
  have houtcomes : w.outcomes (Scene.stripped isVain w as) =
      (Scene.lasting isVain w as).map Prod.snd := Scene.outcomes_stripped idle_of_isVain
  refine ⟨Scene.lasting_sublist, houtcomes, Scene.consultations_stripped idle_of_isVain,
    Scene.run_stripped idle_of_isVain,
    congrArg (List.map Prod.fst) (Scene.lasting_stripped idle_of_isVain), fun n e hmem => ?_⟩
  rw [houtcomes, List.mem_map] at hmem
  obtain ⟨x, hx, hfails⟩ := hmem
  refine Scene.forall_lasting (P := fun o => o ≠ .told n (.error e)) ?_ x hx hfails
  intro v a hlasts heq
  cases a with
  | peek => cases heq
  | graph a => cases heq
  | tell m step =>
      have herror : (v.tell m step).result = .error e := (Outcome.told.inj heq).2
      rw [isVain_of_error herror] at hlasts
      cases hlasts

/-- A state moves before it is taken in and again afterwards; another one
moves to where there is no block, and a third goes that has never come. -/
def clamour : List Act :=
  [.tell (.moved (standing 2 0 0)) 1, .tell (.added [standing 2 0 0]) 2,
    .tell (.moved (standing 1 7 0)) 3, .peek, .tell (.removed (standing 9 0 0)) 4,
    .tell (.moved (standing 2 0 1)) 5]

example :
    notices (Scene.stripped isVain ((opening (.oracle loyal) .auto).run arrivals) clamour) =
      [.added [standing 2 0 0], .moved (standing 2 0 1)] := by
  decide

end Guided

end SymbolicSearch
