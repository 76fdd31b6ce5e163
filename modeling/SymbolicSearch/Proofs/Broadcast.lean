/-
What the children of a relay hold when a move cannot be followed. A relay
tells its stages in turn and stops at the first that fails, and the only
one that can fail is the guided one. So a failed move is taken up by the
stages before the guided one and missed by it and by those after it, and
nothing makes up for that but a later notice of the same state
(`handles_split`).

# Two rosters

The stages before the guided one follow the roster of all that was told,
the others that of what was told without failing (`Split`). An act adds to
the two rosters the same notice or, if it fails, to the first one only.
-/
import SymbolicSearch.Proofs.Selector

namespace SymbolicSearch

/-- What a pool was told by an act without failing. -/
def Outcome.heeded? : Outcome → Option Notice
  | .told n (.ok ()) => some n
  | _ => none

/-- What a pool is told in a run without failing, in order. -/
def Scene.heeded {σ : Type} [Pool σ] (w : Scene σ) (as : List Act) : List Notice :=
  (w.outcomes as).filterMap Outcome.heeded?

namespace Selector

variable {s c : Selector} {ρ told heeded : StateNo → Option Handle} {g : FlowGraph} {f : Nat}

-- ============================================================== one child

/-- A child that holds the handles of a roster, and is a queue if so
said. -/
structure Holds (ρ : StateNo → Option Handle) (plain : Prop) (c : Selector) : Prop where
  single : c.Single
  handles : c.handle? = ρ
  queue : plain → c.IsQueue

variable {plain : Prop}

theorem Holds.peek (hc : Holds ρ plain c) (g : FlowGraph) :
    Holds ρ plain (Pool.peek g c).pool := by
  have hat := faithful c hc.single
  exact ⟨hat.peek_tidy g, (hat.peek_handle g).trans hc.handles,
    fun hplain => (hc.queue hplain).peek g⟩

theorem Holds.tell (hc : Holds ρ plain c) {n : Notice} {step : Nat}
    (hok : (Pool.tell n step g c).result = .ok ()) :
    Holds (n.update ρ) plain (Pool.tell n step g c).pool := by
  have hat := faithful c hc.single
  refine ⟨hat.tell_tidy n step g, ?_, fun hplain => ((hc.queue hplain).tell n step g).2.1⟩
  rw [hat.tell_ok n step g hok, hc.handles]

/-- A child that fails is no queue, and holds what it held. -/
theorem Holds.fail (hc : Holds ρ plain c) {n : Notice} {step : Nat} {e : Fault}
    (he : (Pool.tell n step g c).result = .error e) :
    ¬ plain ∧ Holds ρ plain (Pool.tell n step g c).pool := by
  have hat := faithful c hc.single
  have hnot : ¬ plain := by
    intro hplain
    have hok := ((hc.queue hplain).tell n step g).1
    rw [hok] at he
    cases he
  obtain ⟨-, hsame⟩ := hat.tell_error n step g e he
  exact ⟨hnot, hat.tell_tidy n step g, hsame.trans hc.handles, fun hplain => absurd hplain hnot⟩

-- =========================================================== all children

/-- Children that hold the handles of one roster up to a place and those
of another from it on, all queues but the one at that place. If the place
is past the last child, the two rosters are the same. -/
structure Split (f : Nat) (told heeded : StateNo → Option Handle) (l : List Selector) : Prop where
  holds : ∀ (k : Nat) (c : Selector), l[k]? = some c →
    Holds (if k < f then told else heeded) (k ≠ f) c
  agreed : l.length ≤ f → told = heeded

theorem Split.peek (hs : Split f told heeded s.children) (g : FlowGraph) :
    Split f told heeded (Pool.peek g s).pool.children := by
  obtain ⟨k, hk⟩ := children_peek g s
  rw [hk]
  refine ⟨fun j c hj => ?_, fun hle => hs.agreed ?_⟩
  · obtain ⟨c₀, hc₀, rfl | rfl⟩ := Relay.askStage_cases _ hj
    · exact hs.holds j c hc₀
    · exact (hs.holds j c₀ hc₀).peek g
  · rwa [Relay.length_askStage] at hle

/-- All children take up a notice, or it fails and only those before the
guided one do. -/
theorem Split.tell (hs : Split f told heeded s.children) (n : Notice) (step : Nat)
    (g : FlowGraph) :
    ((Pool.tell n step g s).result = .ok () ∧
        Split f (n.update told) (n.update heeded) (Pool.tell n step g s).pool.children) ∨
      ∃ e, (Pool.tell n step g s).result = .error e ∧
        Split f (n.update told) heeded (Pool.tell n step g s).pool.children := by
  obtain ⟨hresult, hchildren⟩ := children_tell n step g s
  have hlength := Relay.length_tellStages (Pool.tell n step) g s.children
  rw [hresult, hchildren]
  have hplace : ∀ (k : Nat) (x : Selector),
      (Relay.tellStages (Pool.tell n step) g s.children).pool[k]? = some x →
        ∃ c, s.children[k]? = some c := by
    intro k x hx
    have hlt := (List.getElem?_eq_some_iff.1 hx).1
    rw [hlength] at hlt
    exact ⟨_, List.getElem?_eq_getElem hlt⟩
  refine (Relay.tellStages_cases (Pool.tell n step) g s.children).imp
    (fun h => ⟨h.1, fun k x hx => ?_, fun hle => ?_⟩) fun h => ?_
  · obtain ⟨c, hc⟩ := hplace k x hx
    obtain ⟨g', hok, hpool⟩ := h.2 k c hc
    obtain rfl := Option.some.inj (hpool.symm.trans hx)
    have htold := (hs.holds k c hc).tell hok
    rwa [apply_ite (Notice.update n)] at htold
  · rw [hs.agreed (hlength ▸ hle)]
  · obtain ⟨j, y, gy, e, hy, hfail, herror, hpool, hbefore, hafter⟩ := h
    obtain ⟨hnot, hmissed⟩ := (hs.holds j y hy).fail hfail
    obtain rfl : j = f := not_not.1 hnot
    refine ⟨e, herror, fun k x hx => ?_, fun hle => ?_⟩
    · rcases Nat.lt_trichotomy k j with hlt | rfl | hlt
      · obtain ⟨c, hc⟩ := hplace k x hx
        obtain ⟨g', hok, hpool⟩ := hbefore k c hlt hc
        obtain rfl := Option.some.inj (hpool.symm.trans hx)
        have htold := (hs.holds k c hc).tell hok
        rw [if_pos hlt] at htold ⊢
        exact htold
      · obtain rfl := Option.some.inj (hpool.symm.trans hx)
        rw [if_neg (Nat.lt_irrefl k)] at hmissed ⊢
        exact hmissed
      · have hheld := hs.holds k x ((hafter k hlt).symm.trans hx)
        rw [if_neg (Nat.lt_asymm hlt)] at hheld ⊢
        exact hheld
    · have hlt := (List.getElem?_eq_some_iff.1 hy).1
      omega

-- ==================================================================== a run

theorem heeded_concat (w : Scene Selector) (as : List Act) (a : Act) :
    w.heeded (as ++ [a]) = w.heeded as ++ ((w.run as).outcome a).heeded?.toList := by
  rw [Scene.heeded, Scene.outcomes_append, List.filterMap_append]
  show _ = _ ++ _
  simp only [Scene.outcomes, List.filterMap_cons, List.filterMap_nil]
  cases ((w.run as).outcome a).heeded? <;> rfl

theorem Split.act {w : Scene Selector} {ns hs : List Notice}
    (hw : Split f (roster ns) (roster hs) w.pool.children) (a : Act) :
    Split f (roster (ns ++ a.notice?.toList)) (roster (hs ++ (w.outcome a).heeded?.toList))
      (w.act a).pool.children := by
  cases a with
  | peek =>
      show Split f (roster (ns ++ [])) (roster (hs ++ [])) (Pool.peek w.graph w.pool).pool.children
      rw [List.append_nil, List.append_nil]
      exact hw.peek w.graph
  | tell n step =>
      show Split f (roster (ns ++ [n]))
        (roster (hs ++ (Outcome.told n (w.tell n step).result).heeded?.toList))
        (Pool.tell n step w.graph w.pool).pool.children
      rw [roster_concat]
      obtain ⟨hok, htold⟩ | ⟨e, he, htold⟩ := hw.tell n step w.graph
      · have hresult : (w.tell n step).result = .ok () := hok
        rw [hresult]
        show Split f _ (roster (hs ++ [n])) _
        rw [roster_concat]
        exact htold
      · have hresult : (w.tell n step).result = .error e := he
        rw [hresult]
        show Split f _ (roster (hs ++ [])) _
        rw [List.append_nil]
        exact htold
  | graph a =>
      show Split f (roster (ns ++ [])) (roster (hs ++ [])) w.pool.children
      rw [List.append_nil, List.append_nil]
      exact hw

theorem Split.run {w : Scene Selector}
    (hw : Split f (fun _ => none) (fun _ => none) w.pool.children) (as : List Act) :
    Split f (roster (notices as)) (roster (w.heeded as)) (w.run as).pool.children := by
  induction as using List.reverseRecOn with
  | nil => exact hw
  | append_singleton as a ih =>
      have hnotices : notices (as ++ [a]) = notices as ++ a.notice?.toList := by
        simp only [notices, List.filterMap_append, List.filterMap_cons, List.filterMap_nil]
        cases a.notice? <;> rfl
      rw [hnotices, heeded_concat, Scene.run_append]
      exact ih.act a

end Selector

-- ================================================================ what is built

namespace Plan

/-- Without an adviser no stage is guided. -/
theorem guided_notMem_of_unadvised {policy : Policy} {styles : List Style} {l : List Selector}
    (h : stages policy styles none = .ok l) : Style.guided ∉ styles := by
  induction styles generalizing l with
  | nil => exact List.not_mem_nil
  | cons style rest ih =>
      obtain ⟨s, b, l', -, hrest, hstage, ⟨hne, rfl⟩ | ⟨rfl, -⟩⟩ := stages_cons h
      · exact fun hmem => (List.mem_cons.1 hmem).elim (fun heq => hne heq.symm) (ih hrest)
      · obtain ⟨adviser, hsome, -⟩ := hstage
        cases hsome

/-- All stages are queues but the one of the first guided style. -/
theorem isQueue_stages {policy : Policy} {styles : List Style} {a : Option Adviser}
    {l : List Selector} (h : stages policy styles a = .ok l) {k : Nat} {c : Selector}
    (hc : l[k]? = some c) (hne : k ≠ styles.idxOf .guided) : c.IsQueue := by
  induction styles generalizing a l k with
  | nil =>
      obtain rfl := Except.ok.inj h
      cases hc
  | cons style rest ih =>
      obtain ⟨s, b, l', rfl, hrest, hstage, ⟨hstyle, -⟩ | ⟨rfl, rfl⟩⟩ := stages_cons h
      · cases k with
        | zero => exact Option.some.inj hc ▸ hstage.isQueue hstyle
        | succ k =>
            rw [List.idxOf_cons_ne _ hstyle] at hne
            exact ih hrest hc fun heq => hne (congrArg Nat.succ heq)
      · rw [List.idxOf_cons_self] at hne
        cases k with
        | zero => exact absurd rfl hne
        | succ k =>
            -- the adviser is taken, so no style of the rest is guided
            refine ih hrest hc fun heq => ?_
            have hlt : k < l'.length :=
              Nat.lt_of_succ_lt_succ (List.getElem?_eq_some_iff.1 hc).1
            rw [length_stages hrest, heq, List.idxOf_lt_length_iff] at hlt
            exact guided_notMem_of_unadvised hrest hlt

theorem split_build {plan : Plan} {a : Option Adviser} {s : Selector}
    (h : plan.build a = .ok s) :
    Selector.Split (plan.styles.idxOf .guided) (fun _ => none) (fun _ => none) s.children := by
  have hl := children_build h
  refine ⟨fun k c hc => ?_, fun _ => rfl⟩
  obtain ⟨hsingle, hhandle⟩ := fresh_stages hl c (List.mem_of_getElem? hc)
  exact ⟨hsingle, by rw [hhandle, ite_self], fun hne => isQueue_stages hl hc hne⟩

end Plan

/-- At every moment of every run of a selector that a plan comes to, the
children before the guided one hold the handles that were told last, and
the guided one and those after it the handles that were told last without
failing; whatever a child chooses it returns under the handle it holds. All
children hold the same handles just if none is before the guided one, or
if the moves that failed have left no difference. -/
theorem handles_split {plan : Plan} {a : Option Adviser} {s : Selector}
    (hs : plan.build a = .ok s) (g : FlowGraph) (as : List Act) :
    (∀ (k : Nat) (c : Selector), ((⟨g, s⟩ : Scene Selector).run as).pool.children[k]? = some c →
      (c.handle? = if k < plan.styles.idxOf .guided then roster (notices as)
        else roster ((⟨g, s⟩ : Scene Selector).heeded as)) ∧
      ∀ g' h, (Pool.peek g' c).result = .ok h → c.handle? h.id = some h) ∧
    ((∀ c ∈ ((⟨g, s⟩ : Scene Selector).run as).pool.children,
        ∀ c' ∈ ((⟨g, s⟩ : Scene Selector).run as).pool.children, c.handle? = c'.handle?) ↔
      plan.styles.idxOf .guided = 0 ∨
        roster (notices as) = roster ((⟨g, s⟩ : Scene Selector).heeded as)) := by
  have hsplit := Selector.Split.run (w := ⟨g, s⟩) (Plan.split_build hs) as
  have hlength := (Selector.length_children_run ⟨g, s⟩ as).trans (Plan.length_children_build hs)
  generalize ((⟨g, s⟩ : Scene Selector).run as).pool.children = l at hsplit hlength ⊢
  refine ⟨fun k c hc => ⟨(hsplit.holds k c hc).handles, fun g' => ?_⟩, fun hall => ?_, fun h => ?_⟩
  · exact (Selector.faithful c (hsplit.holds k c hc).single).peek_ok g'
  · by_cases hzero : plan.styles.idxOf .guided = 0
    · exact Or.inl hzero
    · right
      by_cases hlast : l.length ≤ plan.styles.idxOf .guided
      · exact hsplit.agreed hlast
      · -- the first child and the guided one are on either side
        have hlt := Nat.lt_of_not_le hlast
        have hpos : 0 < l.length := Nat.zero_lt_of_lt hlt
        have hfirst := (hsplit.holds 0 _ (List.getElem?_eq_getElem hpos)).handles
        have hguided := (hsplit.holds _ _ (List.getElem?_eq_getElem hlt)).handles
        rw [if_pos (Nat.pos_of_ne_zero hzero)] at hfirst
        rw [if_neg (Nat.lt_irrefl _)] at hguided
        rw [← hfirst, ← hguided]
        exact hall _ (List.getElem_mem hpos) _ (List.getElem_mem hlt)
  · have hheld : ∀ c ∈ l, c.handle? = roster ((⟨g, s⟩ : Scene Selector).heeded as) := by
      intro c hc
      obtain ⟨k, hk⟩ := List.mem_iff_getElem?.1 hc
      rw [(hsplit.holds k c hk).handles]
      obtain hzero | hsame := h
      · rw [hzero, if_neg (Nat.not_lt_zero k)]
      · rw [hsame, ite_self]
    intro c hc c' hc'
    rw [hheld c hc, hheld c' hc']

/-- A plan with a queue before the guided stage. -/
def vanguard : Plan := ⟨[.breadth, .guided], 2, .cpu, .auto⟩

/-- The selector of `vanguard`. -/
def vanguardSelector : Selector :=
  .relay ⟨[.queue (.empty .breadth), .guided (.new contrary .auto)], 2, 0, 0⟩

/-- A state moves into a method that has not been registered. -/
def stray : List Act := [.tell (.added [standing 0 0 0]) 0, .tell (.moved (standing 0 5 0)) 1]

/-- The queue holds the handle of the move, the guided stage the one before
it; asked twice, the relay returns the one and then the other. -/
theorem handles_split_stray :
    vanguard.build (some contrary) = .ok vanguardSelector ∧
      (∀ (k : Nat) (c : Selector),
        ((⟨.empty, vanguardSelector⟩ : Scene Selector).run stray).pool.children[k]? = some c →
          c.handle? 0 = some (if k = 0 then standing 0 5 0 else standing 0 0 0)) ∧
      (¬ ∀ c ∈ ((⟨.empty, vanguardSelector⟩ : Scene Selector).run stray).pool.children,
        ∀ c' ∈ ((⟨.empty, vanguardSelector⟩ : Scene Selector).run stray).pool.children,
          c.handle? = c'.handle?) ∧
      ((⟨.empty, vanguardSelector⟩ : Scene Selector).run stray).peek.result =
        .ok (standing 0 5 0) ∧
      ((⟨.empty, vanguardSelector⟩ : Scene Selector).run (stray ++ [.peek])).peek.result =
        .ok (standing 0 0 0) := by
  have hbuilt : vanguard.build (some contrary) = .ok vanguardSelector := rfl
  obtain ⟨hholds, hsame⟩ := handles_split hbuilt .empty stray
  have htold : roster (notices stray) 0 = some (standing 0 5 0) := by decide
  have hheeded : roster ((⟨.empty, vanguardSelector⟩ : Scene Selector).heeded stray) 0 =
      some (standing 0 0 0) := by decide
  have hplace : vanguard.styles.idxOf .guided = 1 := by decide
  refine ⟨hbuilt, fun k c hc => ?_, fun hall => ?_, by decide, by decide⟩
  · rw [(hholds k c hc).1, hplace]
    by_cases hk : k = 0
    · rw [if_pos (by omega), if_pos hk, htold]
    · rw [if_neg (by omega), if_neg hk, hheeded]
  · obtain hzero | hrosters := hsame.1 hall
    · rw [hplace] at hzero
      cases hzero
    · rw [hrosters, hheeded] at htold
      exact absurd (Option.some.inj htold) (by decide)

end SymbolicSearch
