/-
All selectors agree with the roster. Whatever selector a plan comes to, and
whatever it is told and asked, its children track just the live states, it
is empty when no state is live, and what it chooses is live
(`selector_keeps_roster`). As long as no move fails, it is chosen under the
handle it was given last.
-/
import SymbolicSearch.Proofs.Guided.Roster
import SymbolicSearch.Proofs.Queue
import SymbolicSearch.Proofs.Relay
import SymbolicSearch.Setup

namespace SymbolicSearch

namespace Selector

variable {strict : Prop} {ρ : StateNo → Option Handle} {s : Selector}

-- ============================================================ single stages

/-- The handle that a single stage holds for a state. -/
def handle? : Selector → StateNo → Option Handle
  | .queue q => q.handle?
  | .guided p => p.handle?
  | .relay _ => fun _ => none

/-- A tidy stage of its own, no relay. -/
def Single : Selector → Prop
  | .queue q => q.Tidy
  | .guided p => p.Filed
  | .relay _ => False

/-- The states that a single stage tracks. -/
def ids : Selector → List StateNo
  | .queue q => q.states.map Handle.id
  | .guided p => p.tracked.keys
  | .relay _ => []

theorem peek_queue (g : FlowGraph) (q : Queue) :
    Pool.peek g (Selector.queue q) = (Pool.peek g q).map .queue := by
  show peek g (.queue q) = _
  rw [peek]

theorem peek_guided (g : FlowGraph) (p : Guided) :
    Pool.peek g (Selector.guided p) = (Pool.peek g p).map .guided := by
  show peek g (.guided p) = _
  rw [peek]

theorem tell_queue (n : Notice) (step : Nat) (g : FlowGraph) (q : Queue) :
    Pool.tell n step g (Selector.queue q) = (Pool.tell n step g q).map .queue := by
  show tell n step g (.queue q) = _
  rw [tell]

theorem tell_guided (n : Notice) (step : Nat) (g : FlowGraph) (p : Guided) :
    Pool.tell n step g (Selector.guided p) = (Pool.tell n step g p).map .guided := by
  show tell n step g (.guided p) = _
  rw [tell]

def IsQueue (s : Selector) : Prop := ∃ q, s = .queue q

theorem IsQueue.peek (hs : s.IsQueue) (g : FlowGraph) : (Pool.peek g s).pool.IsQueue := by
  obtain ⟨q, rfl⟩ := hs
  rw [peek_queue]
  exact ⟨_, rfl⟩

/-- A queue takes up every notice and stays away from the graph. -/
theorem IsQueue.tell (hs : s.IsQueue) (n : Notice) (step : Nat) (g : FlowGraph) :
    (Pool.tell n step g s).result = .ok () ∧ (Pool.tell n step g s).pool.IsQueue ∧
      (Pool.tell n step g s).graph = g := by
  obtain ⟨q, rfl⟩ := hs
  rw [tell_queue]
  exact ⟨rfl, ⟨_, rfl⟩, rfl⟩

theorem isEmpty_queue (q : Queue) : Pool.isEmpty (Selector.queue q) = Pool.isEmpty q := by
  show isEmpty (.queue q) = _
  rw [isEmpty]

theorem isEmpty_guided (p : Guided) : Pool.isEmpty (Selector.guided p) = Pool.isEmpty p := by
  show isEmpty (.guided p) = _
  rw [isEmpty]

theorem faithful : Faithful Single handle? := by
  intro s hs
  cases s with
  | queue q =>
      exact (Queue.faithful q hs).embed Selector.queue isEmpty_queue peek_queue tell_queue
        (fun _ h => h) fun _ => rfl
  | guided p =>
      exact (Guided.faithful p hs).embed Selector.guided isEmpty_guided peek_guided tell_guided
        (fun _ h => h) fun _ => rfl
  | relay r => exact hs.elim

theorem mem_ids (hs : s.Single) (id : StateNo) : id ∈ s.ids ↔ (s.handle? id).isSome = true := by
  cases s with
  | queue q =>
      show id ∈ q.states.map Handle.id ↔ (q.states.find? fun h => h.id = id).isSome = true
      rw [List.find?_isSome, List.mem_map]
      simp
  | guided p =>
      show id ∈ p.tracked.keys ↔ (p.handle? id).isSome = true
      rw [IdMap.mem_keys, Guided.handle?, Option.isSome_map]
      rfl
  | relay r => exact hs.elim

theorem nodup_ids (hs : s.Single) : s.ids.Nodup := by
  cases s with
  | queue q => exact hs
  | guided p => exact p.tracked.keys_increasing.imp Nat.ne_of_lt
  | relay r => exact hs.elim

-- ============================================================ all selectors

/-- The pools that a selector consists of. -/
def children : Selector → List Selector
  | .queue q => [.queue q]
  | .guided p => [.guided p]
  | .relay r => r.stages

/-- A selector that is asked asks one of its children. -/
theorem children_peek (g : FlowGraph) (s : Selector) :
    ∃ k, (Pool.peek g s).pool.children =
      (Relay.askStage (Pool.peek g) k s.children).pool := by
  cases s with
  | queue q =>
      refine ⟨0, ?_⟩
      show _ = [(Pool.peek g (queue q)).pool]
      rw [peek_queue]
      rfl
  | guided p =>
      refine ⟨0, ?_⟩
      show _ = [(Pool.peek g (guided p)).pool]
      rw [peek_guided]
      rfl
  | relay r =>
      have hpeek : Pool.peek g (relay r) = (Pool.peek g r).map .relay := peek_relay g r
      rw [hpeek]
      exact ⟨r.count.active, rfl⟩

/-- A selector that is told something tells its children in turn. -/
theorem children_tell (n : Notice) (step : Nat) (g : FlowGraph) (s : Selector) :
    (Pool.tell n step g s).result =
        (Relay.tellStages (Pool.tell n step) g s.children).result ∧
      (Pool.tell n step g s).pool.children =
        (Relay.tellStages (Pool.tell n step) g s.children).pool := by
  cases s with
  | queue q =>
      show _ = (Relay.tellStages _ g [queue q]).result ∧ _ = (Relay.tellStages _ g [queue q]).pool
      rw [Relay.tellStages_singleton, tell_queue]
      exact ⟨rfl, rfl⟩
  | guided p =>
      show _ = (Relay.tellStages _ g [guided p]).result ∧ _ = (Relay.tellStages _ g [guided p]).pool
      rw [Relay.tellStages_singleton, tell_guided]
      exact ⟨rfl, rfl⟩
  | relay r =>
      have htell : Pool.tell n step g (relay r) = (Pool.tell n step g r).map .relay :=
        tell_relay n step g r
      rw [htell]
      exact ⟨rfl, rfl⟩

/-- Whatever is done with a selector, it keeps its children. -/
theorem length_children_act (w : Scene Selector) (a : Act) :
    (w.act a).pool.children.length = w.pool.children.length := by
  cases a with
  | peek =>
      obtain ⟨k, hk⟩ := children_peek w.graph w.pool
      exact (congrArg List.length hk).trans (Relay.length_askStage _ _ _)
  | tell n step =>
      have htold := (children_tell n step w.graph w.pool).2
      exact (congrArg List.length htold).trans (Relay.length_tellStages _ _ _)
  | graph a => rfl

/-- A selector of tidy single stages that read alike, as a roster says. -/
def Kept (strict : Prop) (ρ : StateNo → Option Handle) : Selector → Prop
  | .queue q => (queue q).Single ∧ Follows strict q.handle? ρ
  | .guided p => (guided p).Single ∧ Follows strict p.handle? ρ
  | .relay r => r.Kept Single handle? strict ρ

/-- A single stage is kept if it reads as the roster says. -/
theorem kept_of_single (hs : s.Single) (hf : Follows strict s.handle? ρ) : s.Kept strict ρ := by
  cases s with
  | queue q => exact ⟨hs, hf⟩
  | guided p => exact ⟨hs, hf⟩
  | relay r => exact hs.elim

/-- A kept selector is a single stage or a kept relay. -/
theorem Kept.cases (hs : s.Kept strict ρ) :
    (s.Single ∧ Follows strict s.handle? ρ ∧ s.children = [s]) ∨
      ∃ r, s = .relay r ∧ r.Kept Single handle? strict ρ := by
  cases s with
  | queue q => exact Or.inl ⟨hs.1, hs.2, rfl⟩
  | guided p => exact Or.inl ⟨hs.1, hs.2, rfl⟩
  | relay r => exact Or.inr ⟨r, rfl, hs⟩

theorem Kept.children (hs : s.Kept strict ρ) :
    ∀ c ∈ s.children, c.Single ∧ Follows strict c.handle? ρ := by
  intro c hc
  obtain ⟨hsingle, hf, hself⟩ | ⟨r, rfl, hr⟩ := hs.cases
  · rw [hself, List.mem_singleton] at hc
    subst hc
    exact ⟨hsingle, hf⟩
  · exact ⟨hr.tidy c hc, hr.follows c hc⟩

theorem Kept.peek (hs : s.Kept strict ρ) (g : FlowGraph) : (Pool.peek g s).pool.Kept strict ρ := by
  obtain ⟨hsingle, hf, -⟩ | ⟨r, rfl, hr⟩ := hs.cases
  · have hat := faithful s hsingle
    refine kept_of_single (hat.peek_tidy g) ?_
    rw [hat.peek_handle g]
    exact hf
  · show (Selector.peek g (.relay r)).pool.Kept strict ρ
    rw [peek_relay]
    exact hr.peek faithful g

theorem Kept.tell (hs : s.Kept strict ρ) (n : Notice) (step : Nat) (g : FlowGraph) :
    (Pool.tell n step g s).pool.Kept (strict ∧ (Pool.tell n step g s).result = .ok ())
      (n.update ρ) := by
  obtain ⟨hsingle, hf, -⟩ | ⟨r, rfl, hr⟩ := hs.cases
  · exact kept_of_single ((faithful s hsingle).tell_tidy n step g)
      (faithful.follows_tell hsingle hf n step g)
  · have hrelay : Pool.tell n step g (Selector.relay r) = (Pool.tell n step g r).map .relay :=
      tell_relay n step g r
    rw [hrelay]
    exact hr.tell faithful n step g

theorem Kept.weaken {weaker : Prop} (hs : s.Kept strict ρ) (h : weaker → strict) :
    s.Kept weaker ρ := by
  obtain ⟨hsingle, hf, -⟩ | ⟨r, rfl, hr⟩ := hs.cases
  · exact kept_of_single hsingle (hf.weaken h)
  · exact ⟨hr.active, hr.tidy, fun x hx => (hr.follows x hx).weaken h⟩

/-- A selector fails only at a move. -/
theorem Kept.moved_of_error (hs : s.Kept strict ρ) {n : Notice} {step : Nat} {g : FlowGraph}
    {e : Fault} (he : (Pool.tell n step g s).result = .error e) : ∃ h, n = .moved h := by
  obtain ⟨hsingle, -, -⟩ | ⟨r, rfl, hr⟩ := hs.cases
  · exact ((faithful s hsingle).tell_error n step g e he).1
  · have hrelay : Pool.tell n step g (Selector.relay r) = (Pool.tell n step g r).map .relay :=
      tell_relay n step g r
    rw [hrelay] at he
    exact hr.moved_of_error faithful he

theorem Kept.answers (hs : s.Kept strict ρ) (g : FlowGraph) : Answers strict ρ g s := by
  obtain ⟨hsingle, hf, -⟩ | ⟨r, rfl, hr⟩ := hs.cases
  · exact faithful.answers hsingle hf g
  · obtain ⟨hempty, hnone, hsome⟩ := hr.answers faithful g
    have hpeek : Pool.peek g (Selector.relay r) = (Pool.peek g r).map .relay := peek_relay g r
    have hrelay : Pool.isEmpty (Selector.relay r) = Pool.isEmpty r := isEmpty_relay r
    refine ⟨?_, ?_, fun h hh => ?_⟩
    · rw [hrelay]
      exact hempty
    · rw [hpeek]
      exact hnone
    · rw [hpeek] at hh
      exact hsome h hh

-- ==================================================================== a run

theorem Kept.act {w : Scene Selector} {as : List Act}
    (hw : w.pool.Kept strict (roster (notices as))) (a : Act) :
    (w.act a).pool.Kept (strict ∧ (w.outcome a).isMiss = false) (roster (notices (as ++ [a]))) := by
  cases a with
  | peek =>
      have hsame : notices (as ++ [.peek]) = notices as := by simp [notices, Act.notice?]
      rw [hsame]
      exact (hw.peek w.graph).weaken And.left
  | tell n step =>
      have hmore : notices (as ++ [.tell n step]) = notices as ++ [n] := by
        simp [notices, Act.notice?]
      rw [hmore, roster_concat]
      refine (hw.tell n step w.graph).weaken fun h => ⟨h.1, ?_⟩
      cases hresult : (Pool.tell n step w.graph w.pool).result with
      | ok u => rfl
      | error e =>
          obtain ⟨x, rfl⟩ := hw.moved_of_error hresult
          have hmiss := h.2
          have houtcome : w.outcome (.tell (.moved x) step) = .told (.moved x) (.error e) :=
            congrArg (Outcome.told (.moved x)) hresult
          rw [houtcome] at hmiss
          cases hmiss
  | graph a =>
      have hsame : notices (as ++ [.graph a]) = notices as := by simp [notices, Act.notice?]
      rw [hsame]
      exact hw.weaken And.left

theorem length_children_run (w : Scene Selector) (as : List Act) :
    (w.run as).pool.children.length = w.pool.children.length := by
  induction as generalizing w with
  | nil => rfl
  | cons a as ih => exact (ih (w.act a)).trans (length_children_act w a)

theorem Kept.run {w : Scene Selector} (hw : w.pool.Kept True (roster [])) (as : List Act) :
    (w.run as).pool.Kept (∀ o ∈ w.outcomes as, o.isMiss = false) (roster (notices as)) := by
  induction as using List.reverseRecOn with
  | nil => exact hw.weaken fun _ => trivial
  | append_singleton as a ih =>
      rw [Scene.run_append, Scene.outcomes_append]
      refine (ih.act a).weaken fun h => ⟨fun o ho => h o (List.mem_append_left _ ho), ?_⟩
      exact h _ (List.mem_append_right _ List.mem_cons_self)

end Selector

-- ================================================================ what is built

namespace Plan

/-- A fresh pool without states, of its own. -/
def Fresh (s : Selector) : Prop := s.Single ∧ s.handle? = fun _ => none

theorem fresh_queue (o : Order) : Fresh (.queue (.empty o)) := ⟨List.nodup_nil, rfl⟩

theorem fresh_guided (a : Adviser) (policy : Policy) : Fresh (.guided (.new a policy)) :=
  ⟨fun _ _ hh => (nomatch hh), rfl⟩

/-- What a style's stage is. The guided one has the adviser and the policy of
the plan. -/
def IsStage (policy : Policy) (a : Option Adviser) : Style → Selector → Prop
  | .breadth, s => s = .queue (.empty .breadth)
  | .depth, s => s = .queue (.empty .depth)
  | .guided, s => ∃ adviser, a = some adviser ∧ s = .guided (.new adviser policy)

section

variable {policy : Policy} {a : Option Adviser} {style : Style} {s : Selector}

theorem IsStage.fresh (h : IsStage policy a style s) : Fresh s := by
  cases style with
  | breadth =>
      obtain rfl := h
      exact fresh_queue .breadth
  | depth =>
      obtain rfl := h
      exact fresh_queue .depth
  | guided =>
      obtain ⟨adviser, -, rfl⟩ := h
      exact fresh_guided adviser policy

theorem IsStage.isQueue (h : IsStage policy a style s) (hne : style ≠ .guided) : s.IsQueue := by
  cases style with
  | breadth => exact ⟨_, h⟩
  | depth => exact ⟨_, h⟩
  | guided => exact absurd rfl hne

/-- The first stage is its style's. It leaves the adviser to the others if it
is not guided, and takes it if it is; without an adviser there is no guided
stage. -/
theorem stages_cons_cases (policy : Policy) (style : Style) (rest : List Style)
    (a : Option Adviser) :
    (style = .guided ∧ a = none ∧
        stages policy (style :: rest) a = .error (.misfit .noAdviser)) ∨
      ∃ s b, stages policy (style :: rest) a = (stages policy rest b).map (s :: ·) ∧
        IsStage policy a style s ∧
          ((style ≠ .guided ∧ b = a) ∨ (style = .guided ∧ b = none)) := by
  cases style with
  | breadth => exact Or.inr ⟨_, a, rfl, rfl, Or.inl ⟨Style.noConfusion, rfl⟩⟩
  | depth => exact Or.inr ⟨_, a, rfl, rfl, Or.inl ⟨Style.noConfusion, rfl⟩⟩
  | guided =>
      cases a with
      | none => exact Or.inl ⟨rfl, rfl, rfl⟩
      | some adviser => exact Or.inr ⟨_, none, rfl, ⟨adviser, rfl, rfl⟩, Or.inr ⟨rfl, rfl⟩⟩

theorem stages_cons {rest : List Style} {l : List Selector}
    (h : stages policy (style :: rest) a = .ok l) :
    ∃ s b l', l = s :: l' ∧ stages policy rest b = .ok l' ∧ IsStage policy a style s ∧
      ((style ≠ .guided ∧ b = a) ∨ (style = .guided ∧ b = none)) := by
  obtain ⟨-, -, heq⟩ | ⟨s, b, heq, hstage, hb⟩ := stages_cons_cases policy style rest a
  · cases heq.symm.trans h
  · rw [heq] at h
    cases hrest : stages policy rest b with
    | error e =>
        rw [hrest] at h
        cases h
    | ok l' =>
        rw [hrest] at h
        exact ⟨s, b, l', (Except.ok.inj h).symm, hrest, hstage, hb⟩

end

theorem fresh_stages {policy : Policy} {styles : List Style} {a : Option Adviser}
    {l : List Selector} (h : stages policy styles a = .ok l) : ∀ s ∈ l, Fresh s := by
  induction styles generalizing a l with
  | nil =>
      obtain rfl := Except.ok.inj h
      intro s hs
      cases hs
  | cons style rest ih =>
      obtain ⟨s, b, l', rfl, hrest, hstage, -⟩ := stages_cons h
      exact List.forall_mem_cons.2 ⟨hstage.fresh, ih hrest⟩

theorem length_stages {policy : Policy} {styles : List Style} {a : Option Adviser}
    {l : List Selector} (h : stages policy styles a = .ok l) : l.length = styles.length := by
  induction styles generalizing a l with
  | nil =>
      obtain rfl := Except.ok.inj h
      rfl
  | cons style rest ih =>
      obtain ⟨s, b, l', rfl, hrest, -⟩ := stages_cons h
      exact congrArg Nat.succ (ih hrest)

/-- What stages come to is the only one of them, or a relay of all. -/
theorem assemble_eq_ok {switchAt : Nat} {l : List Selector} {s : Selector}
    (h : assemble switchAt l = .ok s) :
    l = [s] ∨ 2 ≤ l.length ∧ s = .relay ⟨l, switchAt, 0, 0⟩ := by
  unfold assemble at h
  split at h
  next hone =>
    obtain ⟨x, rfl⟩ := List.length_eq_one_iff.1 hone
    obtain rfl := Except.ok.inj h
    exact Or.inl rfl
  next =>
    cases hr : Relay.new? l switchAt with
    | error e =>
        rw [hr] at h
        cases h
    | ok r =>
        rw [hr] at h
        obtain ⟨htwo, -, rfl⟩ := Relay.new?_eq_ok hr
        exact Or.inr ⟨htwo, (Except.ok.inj h).symm⟩

/-- A plan that passes its check is built of its stages. -/
theorem build_of_ok {plan : Plan} {a : Option Adviser} {l : List Selector}
    (hcheck : plan.check = .ok ()) (hl : stages plan.policy plan.styles a = .ok l) :
    plan.build a = assemble plan.switchAt l := by
  rw [build, hcheck, hl]
  rfl

/-- A plan that is built passes its check and has its stages. -/
theorem build_eq_ok {plan : Plan} {a : Option Adviser} {s : Selector}
    (h : plan.build a = .ok s) :
    plan.check = .ok () ∧ ∃ l, stages plan.policy plan.styles a = .ok l ∧
      (l = [s] ∨ 2 ≤ l.length ∧ s = .relay ⟨l, plan.switchAt, 0, 0⟩) := by
  cases hc : plan.check with
  | error e =>
      rw [build, hc] at h
      cases h
  | ok u =>
      cases hl : stages plan.policy plan.styles a with
      | error e =>
          rw [build, hc, hl] at h
          cases h
      | ok l =>
          rw [build_of_ok hc hl] at h
          exact ⟨rfl, l, rfl, assemble_eq_ok h⟩

/-- The children of what a plan comes to are the stages of its styles. -/
theorem children_build {plan : Plan} {a : Option Adviser} {s : Selector}
    (h : plan.build a = .ok s) : stages plan.policy plan.styles a = .ok s.children := by
  obtain ⟨-, l, hl, rfl | ⟨-, rfl⟩⟩ := build_eq_ok h
  · have hsingle := (fresh_stages hl s (List.mem_singleton_self s)).1
    cases s with
    | queue q => exact hl
    | guided p => exact hl
    | relay r => exact hsingle.elim
  · exact hl

theorem length_children_build {plan : Plan} {a : Option Adviser} {s : Selector}
    (h : plan.build a = .ok s) : s.children.length = plan.styles.length :=
  length_stages (children_build h)

theorem kept_build {plan : Plan} {a : Option Adviser} {s : Selector}
    (h : plan.build a = .ok s) : s.Kept True fun _ => none := by
  have hfollows : ∀ {x : Selector}, Fresh x → Follows True x.handle? fun _ => none :=
    fun hx => ⟨fun id => by rw [hx.2], fun _ => hx.2⟩
  obtain ⟨-, l, hl, rfl | ⟨htwo, rfl⟩⟩ := build_eq_ok h
  · have hs := fresh_stages hl s (List.mem_singleton_self s)
    exact Selector.kept_of_single hs.1 (hfollows hs)
  · exact ⟨Nat.lt_of_lt_of_le Nat.zero_lt_two htwo, fun x hx => (fresh_stages hl x hx).1,
      fun x hx => hfollows (fresh_stages hl x hx)⟩

end Plan

/-- Every selector that a plan comes to agrees with the roster at every
moment of every run: it has a child for each style of the plan, and each
of them tracks just the live states, each state once; it is empty, and says
so when asked, just when no state is live; and it chooses live states only,
under the handles given last unless some move could not be followed. -/
theorem selector_keeps_roster {plan : Plan} {a : Option Adviser} {s : Selector}
    (hs : plan.build a = .ok s) (g : FlowGraph) (as : List Act) :
    ((⟨g, s⟩ : Scene Selector).run as).pool.children.length = plan.styles.length ∧
      (∀ c ∈ ((⟨g, s⟩ : Scene Selector).run as).pool.children,
        c.ids.Nodup ∧ ∀ id, id ∈ c.ids ↔ Live (notices as) id) ∧
      (((⟨g, s⟩ : Scene Selector).run as).pool.isEmpty = true ↔ ∀ id, ¬ Live (notices as) id) ∧
      (((⟨g, s⟩ : Scene Selector).run as).peek.result = .error .emptyPool ↔
        ∀ id, ¬ Live (notices as) id) ∧
      ∀ h, ((⟨g, s⟩ : Scene Selector).run as).peek.result = .ok h →
        Live (notices as) h.id ∧
          ((∀ o ∈ (⟨g, s⟩ : Scene Selector).outcomes as, o.isMiss = false) →
            roster (notices as) h.id = some h) := by
  have hkept := Selector.Kept.run (w := ⟨g, s⟩) (Plan.kept_build hs) as
  have hanswers := hkept.answers ((⟨g, s⟩ : Scene Selector).run as).graph
  have hnone : (∀ id, roster (notices as) id = none) ↔ ∀ id, ¬ Live (notices as) id := by
    refine forall_congr' fun id => ?_
    rw [← isSome_roster, Option.not_isSome_iff_eq_none]
  have hchildren := (Selector.length_children_run ⟨g, s⟩ as).trans (Plan.length_children_build hs)
  refine ⟨hchildren, fun c hc => ?_, hanswers.isEmpty.trans hnone, hanswers.none.trans hnone,
    fun h hh => ?_⟩
  · obtain ⟨hsingle, hf⟩ := hkept.children c hc
    refine ⟨Selector.nodup_ids hsingle, fun id => ?_⟩
    rw [Selector.mem_ids hsingle, hf.live, isSome_roster]
  · obtain ⟨hlive, hhandle⟩ := hanswers.some h hh
    exact ⟨(isSome_roster _ _).1 hlive, hhandle⟩

/-- A plan of three styles. -/
def mixed : Plan := ⟨[.depth, .guided, .breadth], 2, .cpu, .auto⟩

/-- An oracle that chooses the second state. -/
def contrary : Adviser := .oracle (.live (fun _ => .ok 1) [])

/-- The selector of `mixed`. -/
def mixedSelector : Selector :=
  .relay
    ⟨[.queue (.empty .depth), .guided (.new contrary .auto), .queue (.empty .breadth)], 2, 0, 0⟩

/-- States come in, one of them again, two move and one goes; the guided
stage is the next to be asked. -/
def errands : List Act :=
  [.graph (.register (looping 0)), .tell (.added [standing 0 0 0, standing 1 0 0]) 0,
    .peek, .tell (.moved (standing 1 0 1)) 1, .tell (.added [standing 1 0 0, standing 2 0 0]) 2,
    .tell (.moved (standing 2 0 2)) 3, .tell (.removed (standing 0 0 0)) 3]

theorem selector_keeps_roster_mixed :
    mixed.build (some contrary) = .ok mixedSelector ∧
      (∀ c ∈ ((⟨.empty, mixedSelector⟩ : Scene Selector).run errands).pool.children,
        c.ids.Nodup ∧ ∀ id, id ∈ c.ids ↔ Live (notices errands) id) ∧
      ((⟨.empty, mixedSelector⟩ : Scene Selector).run errands).peek.result =
        .ok (standing 1 0 1) ∧
      roster (notices errands) 1 = some (standing 1 0 1) := by
  have hbuilt : mixed.build (some contrary) = .ok mixedSelector := rfl
  have hkeeps := selector_keeps_roster hbuilt .empty errands
  have hchosen : ((⟨.empty, mixedSelector⟩ : Scene Selector).run errands).peek.result =
      .ok (standing 1 0 1) := by decide
  exact ⟨hbuilt, hkeeps.2.1, hchosen, (hkeeps.2.2.2.2 _ hchosen).2 (by decide)⟩

end SymbolicSearch
