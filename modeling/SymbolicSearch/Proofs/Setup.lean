/-
Which plans can be built, and what they come to. What a plan needs is asked
for in several places: in its check, where its guided style takes the
adviser, where the only stage is told from several, and where a relay is
made of them. They agree. A plan is built just if it passes its check and
has an adviser for its guided style, and what is asked for after that is
never wanting (`build_exact`).

# Taking the adviser

Stages are set up from the front, and the first guided one leaves none to
the rest. So the stages of a list of styles are there just if the list names
no more guided ones than there are advisers, one or none
(`exists_stages_iff`); whatever the order, each stage is then its style's.
-/
import SymbolicSearch.Proofs.Selector

namespace SymbolicSearch.Plan

variable {plan : Plan} {policy : Policy} {styles : List Style} {a : Option Adviser}
  {l : List Selector} {switchAt : Nat} {e : Fault}

-- ================================================================== the check

/-- A plan passes its check, or it has one of three faults. -/
theorem check_cases (plan : Plan) :
    (plan.styles = [] ∧ plan.check = .error (.misfit .noStyle)) ∨
      (1 < plan.styles.count .guided ∧ plan.check = .error (.misfit .guidedTwice)) ∨
      ((2 ≤ plan.styles.length ∧ plan.switchAt = 0) ∧
        plan.check = .error (.misfit .zeroSwitch)) ∨
      ((plan.styles ≠ [] ∧ plan.styles.count .guided ≤ 1 ∧
          (2 ≤ plan.styles.length → 0 < plan.switchAt)) ∧
        plan.check = .ok ()) := by
  unfold check
  split
  next hnone => exact Or.inl ⟨List.isEmpty_iff.1 hnone, rfl⟩
  next hsome =>
    split
    next htwice => exact Or.inr (Or.inl ⟨htwice, rfl⟩)
    next honce =>
      split
      next hzero => exact Or.inr (Or.inr (Or.inl ⟨hzero, rfl⟩))
      next hswitch =>
        refine Or.inr (Or.inr (Or.inr ⟨⟨?_, Nat.le_of_not_lt honce, ?_⟩, rfl⟩))
        · exact fun hnil => hsome (List.isEmpty_iff.2 hnil)
        · exact fun htwo => Nat.pos_of_ne_zero fun hzero => hswitch ⟨htwo, hzero⟩

/-- What a plan is checked for. -/
theorem check_eq_ok : plan.check = .ok () ↔
    plan.styles ≠ [] ∧ plan.styles.count .guided ≤ 1 ∧
      (2 ≤ plan.styles.length → 0 < plan.switchAt) := by
  rcases check_cases plan with ⟨hnil, h⟩ | ⟨htwice, h⟩ | ⟨⟨htwo, hzero⟩, h⟩ | ⟨hgood, h⟩
  · rw [h]
    exact iff_of_false nofun fun hgood => hgood.1 hnil
  · rw [h]
    exact iff_of_false nofun fun hgood => Nat.not_lt.2 hgood.2.1 htwice
  · rw [h]
    exact iff_of_false nofun fun hgood => Nat.ne_of_gt (hgood.2.2 htwo) hzero
  · exact iff_of_true h hgood

-- ================================================================= the stages

theorem stages_forall₂ (h : stages policy styles a = .ok l) :
    List.Forall₂ (IsStage policy a) styles l := by
  induction styles generalizing a l with
  | nil =>
      obtain rfl := Except.ok.inj h
      exact .nil
  | cons style rest ih =>
      obtain ⟨s, b, l', rfl, hrest, hstage, hb⟩ := stages_cons h
      refine .cons hstage ?_
      rcases hb with ⟨-, rfl⟩ | ⟨-, rfl⟩
      · exact ih hrest
      · -- the adviser is taken, so that the rest has none, let alone another
        refine (ih hrest).imp fun style s hs => ?_
        cases style with
        | guided =>
            obtain ⟨adviser, hnone, -⟩ := hs
            cases hnone
        | breadth => exact hs
        | depth => exact hs

/-- Stages fail for want of an adviser only. -/
theorem stages_eq_error (h : stages policy styles a = .error e) : e = .misfit .noAdviser := by
  induction styles generalizing a with
  | nil => cases h
  | cons style rest ih =>
      rcases stages_cons_cases policy style rest a with ⟨-, -, heq⟩ | ⟨s, b, heq, -, -⟩
      · exact (Except.error.inj (heq.symm.trans h)).symm
      · rw [heq] at h
        cases hrest : stages policy rest b with
        | error e' =>
            rw [hrest] at h
            obtain rfl := Except.error.inj h
            exact ih hrest
        | ok l =>
            rw [hrest] at h
            cases h

/-- There are the stages if there are advisers enough. -/
theorem exists_stages_iff :
    (∃ l, stages policy styles a = .ok l) ↔ styles.count .guided ≤ a.toList.length := by
  induction styles generalizing a with
  | nil => exact iff_of_true ⟨[], rfl⟩ (Nat.zero_le _)
  | cons style rest ih =>
      rcases stages_cons_cases policy style rest a with
        ⟨rfl, rfl, heq⟩ | ⟨s, b, heq, hstage, hb⟩
      · rw [heq, List.count_cons_self]
        refine iff_of_false ?_ (Nat.not_succ_le_zero _)
        rintro ⟨l, h⟩
        cases h
      · have hmap : (∃ l, (stages policy rest b).map (s :: ·) = .ok l) ↔
            ∃ l, stages policy rest b = .ok l := by
          cases stages policy rest b with
          | error e => exact iff_of_false (fun ⟨l, h⟩ => nomatch h) fun ⟨l, h⟩ => nomatch h
          | ok l => exact iff_of_true ⟨_, rfl⟩ ⟨_, rfl⟩
        rw [heq, hmap, ih]
        rcases hb with ⟨hne, rfl⟩ | ⟨rfl, rfl⟩
        · rw [List.count_cons_of_ne hne]
        · obtain ⟨adviser, rfl, -⟩ := hstage
          rw [List.count_cons_self]
          exact Nat.succ_le_succ_iff.symm

/-- A plan with at most one guided style has its stages if it has an adviser
for that one. -/
theorem exists_stages_of_once (honce : styles.count .guided ≤ 1) :
    (∃ l, stages policy styles a = .ok l) ↔ (.guided ∈ styles → a.isSome = true) := by
  rw [exists_stages_iff, ← List.one_le_count_iff]
  cases a with
  | none =>
      show _ ≤ 0 ↔ (_ → false = true)
      rw [Nat.le_zero, Nat.one_le_iff_ne_zero, Bool.false_eq_true, imp_false, not_not]
  | some adviser => exact iff_of_true honce fun _ => rfl

-- ============================================================= the assembly

/-- Stages for which a plan has been checked make a selector. -/
theorem exists_assemble (hstage : l ≠ []) (hswitch : 2 ≤ l.length → 0 < switchAt) :
    ∃ s, assemble switchAt l = .ok s := by
  cases l with
  | nil => exact absurd rfl hstage
  | cons s rest =>
      cases rest with
      | nil => exact ⟨s, rfl⟩
      | cons s' rest =>
          have htwo : 2 ≤ (s :: s' :: rest).length := Nat.le_add_left 2 _
          refine ⟨.relay ⟨s :: s' :: rest, switchAt, 0, 0⟩, ?_⟩
          rw [assemble, if_neg (Nat.ne_of_gt htwo), Relay.new?, if_neg (Nat.not_lt.2 htwo),
            if_neg (Nat.ne_of_gt (hswitch htwo))]
          rfl

/-- Once a plan has passed its check and has its stages, nothing fails. -/
theorem exists_assemble_of_check (hcheck : plan.check = .ok ())
    (hl : stages plan.policy plan.styles a = .ok l) : ∃ s, assemble plan.switchAt l = .ok s := by
  obtain ⟨hsome, -, hswitch⟩ := check_eq_ok.1 hcheck
  have hlength := length_stages hl
  refine exists_assemble (fun hnil => hsome ?_) fun htwo => hswitch (hlength ▸ htwo)
  rw [hnil] at hlength
  exact List.length_eq_zero_iff.1 hlength.symm

/-- What building a plan comes to: the fault of its check, the want of an
adviser, or a selector. -/
theorem build_cases (plan : Plan) (a : Option Adviser) :
    (∃ e, plan.check = .error e ∧ plan.build a = .error e) ∨
      plan.check = .ok () ∧
        ((.guided ∈ plan.styles ∧ a = none ∧ plan.build a = .error (.misfit .noAdviser)) ∨
          (.guided ∈ plan.styles → a.isSome = true) ∧ ∃ s, plan.build a = .ok s) := by
  cases hcheck : plan.check with
  | error e => exact Or.inl ⟨e, rfl, by rw [build, hcheck]; rfl⟩
  | ok u =>
      have hstages : (∃ l, stages plan.policy plan.styles a = .ok l) ↔
          (.guided ∈ plan.styles → a.isSome = true) :=
        exists_stages_of_once (check_eq_ok.1 hcheck).2.1
      refine Or.inr ⟨rfl, ?_⟩
      cases hl : stages plan.policy plan.styles a with
      | error e =>
          obtain rfl := stages_eq_error hl
          have hwants : ¬ (.guided ∈ plan.styles → a.isSome = true) := by
            rw [← hstages, hl]
            rintro ⟨l, h⟩
            cases h
          obtain ⟨hmem, hnone⟩ := Classical.not_imp.1 hwants
          exact Or.inl ⟨hmem, Option.not_isSome_iff_eq_none.1 hnone, by rw [build, hcheck, hl]; rfl⟩
      | ok l =>
          obtain ⟨s, hs⟩ := exists_assemble_of_check hcheck hl
          exact Or.inr ⟨hstages.1 ⟨l, hl⟩, s, (build_of_ok hcheck hl).trans hs⟩

/-- A plan is built just if it names a style, at most one guided one, a
request to switch at if it names several, and has an adviser if it names a
guided one. It comes to the stage of its style, or to a relay of the stages
of its styles in their order, before its first request. It is not built
just if it fails its check or wants an adviser: the assembly never fails. -/
theorem build_exact (plan : Plan) (a : Option Adviser) :
    ((∃ s, plan.build a = .ok s) ↔
      plan.styles ≠ [] ∧ plan.styles.count .guided ≤ 1 ∧
        (2 ≤ plan.styles.length → 0 < plan.switchAt) ∧
          (.guided ∈ plan.styles → a.isSome = true)) ∧
      (∀ s, plan.build a = .ok s → ∃ l, List.Forall₂ (IsStage plan.policy a) plan.styles l ∧
        (l = [s] ∨ 2 ≤ l.length ∧ s = .relay ⟨l, plan.switchAt, 0, 0⟩)) ∧
      (∀ e, plan.build a = .error e ↔ plan.check = .error e ∨
        plan.check = .ok () ∧ .guided ∈ plan.styles ∧ a = none ∧ e = .misfit .noAdviser) ∧
      ∀ l, plan.check = .ok () → stages plan.policy plan.styles a = .ok l →
        ∃ s, assemble plan.switchAt l = .ok s := by
  refine ⟨?_, fun s hs => ?_, fun e => ?_, fun l => exists_assemble_of_check⟩
  · rw [← and_assoc, ← and_assoc, and_assoc (a := plan.styles ≠ []), ← check_eq_ok]
    rcases build_cases plan a with
      ⟨e, hcheck, h⟩ | ⟨hcheck, ⟨hmem, rfl, h⟩ | ⟨hadvised, s, h⟩⟩
    · rw [h, hcheck]
      exact iff_of_false (fun ⟨s, hs⟩ => nomatch hs) fun hgood => nomatch hgood.1
    · rw [h]
      exact iff_of_false (fun ⟨s, hs⟩ => nomatch hs) fun hgood => nomatch hgood.2 hmem
    · exact iff_of_true ⟨s, h⟩ ⟨hcheck, hadvised⟩
  · obtain ⟨-, l, hl, hshape⟩ := build_eq_ok hs
    exact ⟨l, stages_forall₂ hl, hshape⟩
  · rcases build_cases plan a with
      ⟨e', hcheck, h⟩ | ⟨hcheck, ⟨hmem, hnone, h⟩ | ⟨hadvised, s, h⟩⟩
    · rw [h, hcheck]
      simp
    · rw [h, hcheck]
      simp [hmem, hnone, eq_comm]
    · rw [h, hcheck]
      refine iff_of_false nofun ?_
      rintro (hfault | ⟨-, hmem, rfl, -⟩)
      · cases hfault
      · cases hadvised hmem

/-- With an adviser `mixed` comes to a relay of three stages, of which the
second has the adviser; without one it is not built. -/
theorem build_exact_mixed :
    (∃ s, mixed.build (some contrary) = .ok s) ∧
      List.Forall₂ (IsStage .auto (some contrary)) [.depth, .guided, .breadth]
        mixedSelector.children ∧
      mixed.build none = .error (.misfit .noAdviser) := by
  obtain ⟨hbuilt, hstages, -⟩ := build_exact mixed (some contrary)
  obtain ⟨-, -, hfault, -⟩ := build_exact mixed none
  refine ⟨hbuilt.2 ⟨by decide, by decide, by decide, fun _ => rfl⟩, ?_,
    (hfault _).2 (Or.inr ⟨rfl, by decide, rfl, rfl⟩)⟩
  obtain ⟨l, hl, hsingle | ⟨-, hrelay⟩⟩ := hstages mixedSelector rfl
  · cases hl.length_eq.trans (congrArg List.length hsingle)
  · cases hrelay
    exact hl

example : (⟨[.guided, .breadth, .guided], 0, .cpu, .auto⟩ : Plan).build none =
    .error (.misfit .guidedTwice) := rfl

end SymbolicSearch.Plan
