/-
A relay against its stages on their own. Every stage of a relay is told
everything, but a request goes to one stage: to the first until the set
request has come, and to the second from that one on. So a relay answers a
request as a copy of that stage would that was told the same and was asked
only what was routed to it (`routes_requests`).

# The graph

The stages share the graph. One of them may move it, the others only look
at it. The copy of the mover has a graph of its own and moves that; the
copies of the others are handed this graph whenever they are asked or told
something. A notice moves the graph between one stage and the next: those
up to the mover hear it on the graph as it was, those after it on the graph
that the mover has moved (`tellStages_of_ok`).
-/
import SymbolicSearch.Proofs.Selector

namespace SymbolicSearch

/-- The act asks. -/
def Act.isPeek : Act → Bool
  | .peek => true
  | _ => false

/-- The number of requests in a run. -/
def requests (as : List Act) : Nat := as.countP Act.isPeek

/-- A notice could not be taken up. -/
def Outcome.isFailure : Outcome → Bool
  | .told _ (.error _) => true
  | _ => false

section

variable {σ : Type} [Pool σ]

/-- A pool that is asked and told things, each of them on the graph as it
then is. What the pool does to the graph is lost. -/
def attend (s : σ) (calls : List (FlowGraph × Act)) : σ :=
  calls.foldl (fun s c => ((⟨c.1, s⟩ : Scene σ).act c.2).pool) s

/-- Whatever it attends, the pool leaves the graph as it is. -/
def Still (s : σ) : Prop :=
  ∀ calls n step g, (Pool.tell n step g (attend s calls)).graph = g

theorem attend_append (s : σ) (calls more : List (FlowGraph × Act)) :
    attend s (calls ++ more) = attend (attend s calls) more := List.foldl_append

theorem Still.attend {s : σ} (hs : Still s) (calls : List (FlowGraph × Act)) :
    Still (attend s calls) := by
  intro more n step g
  rw [← attend_append]
  exact hs (calls ++ more) n step g

/-- A queue never touches the graph. -/
theorem Selector.IsQueue.still {s : Selector} (hs : s.IsQueue) : Still s := by
  intro calls n step g
  have hattend : (attend s calls).IsQueue := by
    induction calls generalizing s with
    | nil => exact hs
    | cons c rest ih =>
        refine ih ?_
        obtain ⟨g', a⟩ := c
        cases a with
        | peek => exact hs.peek g'
        | tell n' step' => exact (hs.tell n' step' g').2.1
        | graph a => exact hs
  exact (hattend.tell n step g).2.2

end

namespace Relay

variable {σ : Type}

-- ================================================================== the parts

section

variable [Pool σ] {switchAt m k i : Nat} {v : Scene σ} {w : Scene (Relay σ)}

/-- The place of the stage that a request goes to; the first request has
the number one. -/
def server (switchAt number : Nat) : Nat := if number < switchAt then 0 else 1

/-- The act, if it concerns the stage at place `k`. A request that comes
after `i` others concerns the stage that it is routed to, any other act
concerns them all. -/
def part (switchAt k i : Nat) : Act → List Act
  | .peek => if server switchAt (i + 1) = k then [.peek] else []
  | a => [a]

/-- The part of a run that concerns the stage at place `k`. -/
def share (switchAt k : Nat) : Nat → List Act → List Act
  | _, [] => []
  | i, a :: as => part switchAt k i a ++ share switchAt k (i + requests [a]) as

/-- What the copy of the stage at place `k` attends of an act, if the copy
of the stage at place `m` has the graph and moves it. -/
def dealing (switchAt m k i : Nat) (v : Scene σ) (a : Act) : List (FlowGraph × Act) :=
  (part switchAt k i a).map
    (if k ≤ m then v.graph else (v.run (part switchAt m i a)).graph, ·)

/-- What the copy of the stage at place `k` attends of a run. -/
def dealings (switchAt m k : Nat) : Nat → Scene σ → List Act → List (FlowGraph × Act)
  | _, _, [] => []
  | i, v, a :: as =>
    dealing switchAt m k i v a ++
      dealings switchAt m k (i + requests [a]) (v.run (part switchAt m i a)) as

theorem server_lt_two (switchAt number : Nat) : server switchAt number < 2 := by
  unfold server
  split <;> omega

/-- No request is routed past the second stage. -/
theorem unasked_of_two_le (hk : 2 ≤ k) (as : List Act) :
    ∀ a ∈ share switchAt k i as, a.isPeek = false := by
  induction as generalizing i with
  | nil =>
      intro a ha
      cases ha
  | cons b as ih =>
      intro a ha
      rcases List.mem_append.1 ha with ha | ha
      · cases b with
        | peek =>
            have hne : server switchAt (i + 1) ≠ k := by
              have := server_lt_two switchAt (i + 1)
              omega
            rw [part, if_neg hne] at ha
            cases ha
        | tell n step =>
            obtain rfl := List.mem_singleton.1 ha
            rfl
        | graph b =>
            obtain rfl := List.mem_singleton.1 ha
            rfl
      · exact ih a ha

/-- A copy attends what concerns its stage, in the same order. -/
theorem acts_dealings (as : List Act) :
    (dealings switchAt m k i v as).map Prod.snd = share switchAt k i as := by
  induction as generalizing i v with
  | nil => rfl
  | cons a as ih =>
      rw [dealings, share, List.map_append, ih, dealing, List.map_map]
      exact congrArg (· ++ _) (List.map_id _)

-- ==================================================================== one act

/-- A relay between two acts of a run, after so many requests, and the copy
of its stage at place `m`, which moves the graph. -/
structure Routed (switchAt m i : Nat) (v : Scene σ) (w : Scene (Relay σ)) : Prop where
  graph : w.graph = v.graph
  mover : w.pool.stages[m]? = some v.pool
  still : ∀ (k : Nat) (s : σ), w.pool.stages[k]? = some s → k ≠ m → Still s
  two : 2 ≤ w.pool.stages.length
  threshold : w.pool.switchAt = switchAt
  peeks : w.pool.peeks = i
  active : w.pool.active = server switchAt i

/-- The next request goes where it is routed. -/
theorem Routed.active_count (hw : Routed switchAt m i v w) :
    w.pool.count.active = server switchAt (i + 1) := by
  have htwo := hw.two
  show (if w.pool.peeks + 1 = w.pool.switchAt then (w.pool.active + 1) % w.pool.stages.length
    else w.pool.active) = _
  rw [hw.peeks, hw.threshold, hw.active]
  unfold server
  by_cases hswitch : i + 1 = switchAt
  · -- the one change: from the first stage to the second
    rw [if_pos hswitch, if_pos (by omega), if_neg (by omega)]
    exact Nat.mod_eq_of_lt htwo
  · rw [if_neg hswitch]
    by_cases hlt : i < switchAt
    · rw [if_pos hlt, if_pos (by omega)]
    · rw [if_neg hlt, if_neg (by omega)]

/-- Whoever is asked, the graph stays as it is. -/
theorem graph_run_part_peek (switchAt k i : Nat) (v : Scene σ) :
    (v.run (part switchAt k i .peek)).graph = v.graph := by
  rw [part]
  split <;> rfl

/-- After an act the graph is as the mover's copy has it, and every stage is
as it would be had it attended the act on its own. -/
theorem Routed.stages_act (hw : Routed switchAt m i v w) (a : Act)
    (hok : (w.outcome a).isFailure = false) :
    (w.act a).graph = (v.run (part switchAt m i a)).graph ∧
      ∀ k : Nat, (w.act a).pool.stages[k]? =
        w.pool.stages[k]?.map fun s => attend s (dealing switchAt m k i v a) := by
  cases a with
  | peek =>
      refine ⟨hw.graph.trans (graph_run_part_peek switchAt m i v).symm, fun k => ?_⟩
      show (askStage (Pool.peek w.graph) w.pool.count.active w.pool.stages).pool[k]? = _
      rw [hw.active_count, hw.graph]
      unfold dealing
      rw [graph_run_part_peek, ite_self, part]
      by_cases hk : server switchAt (i + 1) = k
      · rw [if_pos hk, hk]
        cases hs : w.pool.stages[k]? with
        | none =>
            rw [List.getElem?_eq_none_iff] at hs
            exact List.getElem?_eq_none (Nat.le_trans (Nat.le_of_eq (length_askStage _ _ _)) hs)
        | some s => exact (askStage_here _ hs).2
      · rw [if_neg hk, askStage_elsewhere _ (Ne.symm hk)]
        exact Option.map_id'.symm
  | tell n step =>
      have htold : (tellStages (Pool.tell n step) w.graph w.pool.stages).result = .ok () := by
        cases hresult : (w.tell n step).result with
        | ok u => exact hresult
        | error e =>
            rw [Scene.outcome, hresult] at hok
            cases hok
      obtain ⟨hgraph, hpool⟩ := tellStages_of_ok hw.mover
        (fun k s hk hne g => hw.still k s hk hne [] n step g) htold
      rw [hw.graph] at hgraph hpool
      refine ⟨?_, fun k => ?_⟩
      · show (tellStages (Pool.tell n step) w.graph w.pool.stages).graph = _
        rw [hw.graph]
        exact hgraph
      · show (tellStages (Pool.tell n step) w.graph w.pool.stages).pool[k]? = _
        rw [hw.graph]
        exact hpool k
  | graph a =>
      refine ⟨congrArg (·.act a) hw.graph, fun k => ?_⟩
      exact Option.map_id'.symm

/-- The copy that has the graph attends what concerns it as a run. -/
theorem attend_dealing_self (switchAt m i : Nat) (v : Scene σ) (a : Act) :
    attend v.pool (dealing switchAt m m i v a) = (v.run (part switchAt m i a)).pool := by
  rw [dealing, if_pos (Nat.le_refl m)]
  cases a with
  | peek =>
      rw [part]
      split <;> rfl
  | tell n step => rfl
  | graph a => rfl

theorem Routed.act (hw : Routed switchAt m i v w) (a : Act)
    (hok : (w.outcome a).isFailure = false) :
    Routed switchAt m (i + requests [a]) (v.run (part switchAt m i a)) (w.act a) := by
  obtain ⟨hgraph, hstages⟩ := hw.stages_act a hok
  have hlength : (w.act a).pool.stages.length = w.pool.stages.length := by
    cases a with
    | peek => exact length_askStage _ _ _
    | tell n step => exact length_tellStages _ _ _
    | graph a => rfl
  refine ⟨hgraph, ?_, fun k s hk hne => ?_, hlength ▸ hw.two, ?_, ?_, ?_⟩
  · rw [hstages, hw.mover]
    exact congrArg some (attend_dealing_self switchAt m i v a)
  · rw [hstages] at hk
    obtain ⟨s₀, hs₀, rfl⟩ := Option.map_eq_some_iff.1 hk
    exact (hw.still k s₀ hs₀ hne).attend _
  · cases a <;> exact hw.threshold
  · cases a with
    | peek => exact congrArg (· + 1) hw.peeks
    | tell n step => exact hw.peeks
    | graph a => exact hw.peeks
  · cases a with
    | peek => exact hw.active_count
    | tell n step => exact hw.active
    | graph a => exact hw.active

/-- The answer to the next request is that of the stage it is routed to. -/
theorem Routed.peek (hw : Routed switchAt m i v w) :
    ∃ s, w.pool.stages[server switchAt (i + 1)]? = some s ∧
      w.peek.result = (Pool.peek v.graph s).result ∧
      w.peek.asked = (Pool.peek v.graph s).asked := by
  have hlt : server switchAt (i + 1) < w.pool.stages.length :=
    Nat.lt_of_lt_of_le (server_lt_two _ _) hw.two
  have hs := List.getElem?_eq_getElem hlt
  refine ⟨_, hs, ?_, ?_⟩
  · show (askStage (Pool.peek w.graph) w.pool.count.active w.pool.stages).result = _
    rw [hw.active_count, hw.graph]
    exact (askStage_here _ hs).1
  · show (askStage (Pool.peek w.graph) w.pool.count.active w.pool.stages).asked = _
    rw [hw.active_count, hw.graph]
    exact asked_askStage _ hs

-- ====================================================================== a run

theorem requests_cons (a : Act) (as : List Act) :
    requests (a :: as) = requests [a] + requests as := by
  show ([a] ++ as).countP Act.isPeek = _
  exact List.countP_append

/-- In a run in which no notice fails every stage is as it would be had it
attended its part of the run on its own. -/
theorem Routed.run (hw : Routed switchAt m i v w) {as : List Act}
    (hok : ∀ o ∈ w.outcomes as, o.isFailure = false) :
    Routed switchAt m (i + requests as) (v.run (share switchAt m i as)) (w.run as) ∧
      ∀ k : Nat, (w.run as).pool.stages[k]? =
        w.pool.stages[k]?.map fun s => attend s (dealings switchAt m k i v as) := by
  induction as generalizing i v w with
  | nil => exact ⟨hw, fun k => Option.map_id'.symm⟩
  | cons a as ih =>
      obtain ⟨hfirst, hrest⟩ := List.forall_mem_cons.1 hok
      have hstages := (hw.stages_act a hfirst).2
      obtain ⟨hrouted, hlater⟩ := ih (hw.act a hfirst) hrest
      rw [share, Scene.run_append, requests_cons, ← Nat.add_assoc]
      refine ⟨hrouted, fun k => ?_⟩
      rw [Scene.run_cons, hlater, hstages, Option.map_map]
      simp only [dealings, attend_append]
      rfl

/-- The copy of the stage at place `k`, driven on its own by the part of a
run that concerns it, on the graph that the copy at place `m` has moved. -/
def alone (switchAt m k : Nat) (v : Scene σ) (s : σ) (as : List Act) : Scene σ :=
  ⟨(v.run (share switchAt m 0 as)).graph, attend s (dealings switchAt m k 0 v as)⟩

theorem routed_new {l : List σ} {r : Relay σ} {mover : σ} (hr : new? l switchAt = .ok r)
    (hm : l[m]? = some mover)
    (hstill : ∀ (k : Nat) (s : σ), l[k]? = some s → k ≠ m → Still s) (g : FlowGraph) :
    Routed switchAt m 0 ⟨g, mover⟩ ⟨g, r⟩ := by
  obtain ⟨htwo, hpos, rfl⟩ := new?_eq_ok hr
  exact ⟨rfl, hm, hstill, htwo, rfl, rfl, (if_pos hpos).symm⟩

/-- A relay answers every request as a copy of one of its stages does on
its own: of the first stage until the set request comes, of the second from
that one on. The copy is told what the relay is told, in the same order, and
asked only what is routed to it. This holds along every run in which no
notice fails, for stages of any kind, if one of them at most moves the
graph; stages past the second are never asked. -/
theorem routes_requests {l : List σ} {r : Relay σ} {mover : σ} (hr : new? l switchAt = .ok r)
    (hm : l[m]? = some mover)
    (hstill : ∀ (k : Nat) (s : σ), l[k]? = some s → k ≠ m → Still s) (g : FlowGraph)
    {as : List Act} (hok : ∀ o ∈ (⟨g, r⟩ : Scene (Relay σ)).outcomes as, o.isFailure = false) :
    (∃ s, l[server switchAt (requests as + 1)]? = some s ∧
      ((⟨g, r⟩ : Scene (Relay σ)).run as).peek.result =
        (alone switchAt m (server switchAt (requests as + 1)) ⟨g, mover⟩ s as).peek.result ∧
      ((⟨g, r⟩ : Scene (Relay σ)).run as).peek.asked =
        (alone switchAt m (server switchAt (requests as + 1)) ⟨g, mover⟩ s as).peek.asked) ∧
      (∀ k : Nat, ((⟨g, r⟩ : Scene (Relay σ)).run as).pool.stages[k]? =
        l[k]?.map fun s => (alone switchAt m k ⟨g, mover⟩ s as).pool) ∧
      alone switchAt m m ⟨g, mover⟩ mover as =
        (⟨g, mover⟩ : Scene σ).run (share switchAt m 0 as) ∧
      ∀ k, (dealings switchAt m k 0 ⟨g, mover⟩ as).map Prod.snd = share switchAt k 0 as ∧
        (2 ≤ k → ∀ a ∈ share switchAt k 0 as, a.isPeek = false) := by
  obtain ⟨hlast, hstages⟩ := (routed_new hr hm hstill g).run hok
  obtain ⟨-, -, rfl⟩ := new?_eq_ok hr
  rw [Nat.zero_add] at hlast
  refine ⟨?_, fun k => hstages k, ?_, fun k => ⟨acts_dealings as, fun hk => ?_⟩⟩
  · obtain ⟨s', hs', hresult, hasked⟩ := hlast.peek
    rw [hstages] at hs'
    obtain ⟨s, hs, rfl⟩ := Option.map_eq_some_iff.1 hs'
    exact ⟨s, hs, hresult, hasked⟩
  · have hmover := hstages m
    rw [hlast.mover, hm] at hmover
    exact congrArg (Scene.mk _) (Option.some.inj hmover).symm
  · exact unasked_of_two_le hk as

end

/-- The relay of the plan `mixed`. -/
def mixedRelay : Relay Selector :=
  ⟨[.queue (.empty .depth), .guided (.new contrary .auto), .queue (.empty .breadth)], 2, 0, 0⟩

/-- The second request comes after the errands and goes to the guided stage;
the relay answers it as that stage does on its own, which was not asked the
first one. -/
theorem routes_requests_mixed :
    ((⟨.empty, mixedRelay⟩ : Scene (Relay Selector)).run errands).peek.result =
        .ok (standing 1 0 1) ∧
      ((⟨.empty, .guided (.new contrary .auto)⟩ : Scene Selector).run
        (share 2 1 0 errands)).peek.result = .ok (standing 1 0 1) ∧
      (share 2 1 0 errands).any Act.isPeek = false := by
  have hstill : ∀ (k : Nat) (s : Selector), mixedRelay.stages[k]? = some s → k ≠ 1 → Still s := by
    intro k s hs hne
    match k with
    | 0 => exact Option.some.inj hs ▸ Selector.IsQueue.still ⟨_, rfl⟩
    | 1 => exact absurd rfl hne
    | 2 => exact Option.some.inj hs ▸ Selector.IsQueue.still ⟨_, rfl⟩
    | k + 3 => cases hs
  have hnew : new? mixedRelay.stages 2 = .ok mixedRelay := rfl
  have hok : ∀ o ∈ (⟨.empty, mixedRelay⟩ : Scene (Relay Selector)).outcomes errands,
      o.isFailure = false := by decide
  obtain ⟨⟨s, hs, hresult, -⟩, -, hmover, -⟩ := routes_requests hnew rfl hstill .empty hok
  obtain rfl := Option.some.inj hs
  have hanswer : ((⟨.empty, mixedRelay⟩ : Scene (Relay Selector)).run errands).peek.result =
      .ok (standing 1 0 1) := by decide
  refine ⟨hanswer, ?_, rfl⟩
  rw [← hmover]
  exact hresult.symm.trans hanswer

end Relay

end SymbolicSearch
