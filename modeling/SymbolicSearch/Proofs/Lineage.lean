/-
Who a fork descends from inside a relay. Every stage of a relay is told of
the forks, but a request reaches one stage only, and a guided stage takes
for the parent of a fork what it chose itself last. So the forks that it
takes in are children of the state that was chosen last at a request made to
this stage; a request to another stage does not count (`forks_parented`).

# Two memories

`recalled` is what one has in mind of the choices of a run who sees some of
its requests: the state chosen last at these, unless it has gone since. The
relay as a whole sees them all, a stage those that come to it. `Tends` says
that a guided stage has just the second in mind, and every act keeps it.
Where the last request came to the stage, the two are the same
(`recalled_of_served`).
-/
import SymbolicSearch.Proofs.Guided.Family
import SymbolicSearch.Proofs.Selector

namespace SymbolicSearch

-- ============================================================ what is recalled

namespace Scene

variable {σ : Type} [Pool σ] {sees sees' : Scene σ → Bool}

/-- What one has in mind after an act who sees some requests. -/
def remember (sees : Scene σ → Bool) (w : Scene σ) (last : Option StateNo) : Act → Option StateNo
  | .peek =>
    match w.peek.result with
    | .ok h => if sees w then some h.id else last
    | .error _ => last
  | .tell (.removed h) _ => if last = some h.id then none else last
  | _ => last

/-- What one has in mind after a run. -/
def recalled (sees : Scene σ → Bool) (w : Scene σ) (last : Option StateNo) :
    List Act → Option StateNo
  | [] => last
  | a :: as => recalled sees (w.act a) (remember sees w last a) as

theorem recalled_append (w : Scene σ) (last : Option StateNo) (as bs : List Act) :
    recalled sees w last (as ++ bs) = recalled sees (w.run as) (recalled sees w last as) bs := by
  induction as generalizing w last with
  | nil => rfl
  | cons a as ih => exact ih (w.act a) (remember sees w last a)

/-- Where nobody is asked, it does not matter which requests one sees. -/
theorem recalled_of_unasked (w : Scene σ) (last : Option StateNo) {as : List Act}
    (has : ∀ a ∈ as, a ≠ .peek) : recalled sees w last as = recalled sees' w last as := by
  induction as generalizing w last with
  | nil => rfl
  | cons a as ih =>
      rw [List.forall_mem_cons] at has
      have hact : remember sees w last a = remember sees' w last a := by
        cases a with
        | peek => exact absurd rfl has.1
        | tell n step => cases n <;> rfl
        | graph a => rfl
      rw [recalled, hact]
      exact ih (w.act a) (remember sees' w last a) has.2

/-- Two who both see the last request have the same in mind after it. -/
theorem recalled_of_served (w : Scene σ) (last last' : Option StateNo) {before between : List Act}
    {h : Handle} (hchosen : (w.run before).peek.result = .ok h)
    (hsees : sees (w.run before) = true) (hsees' : sees' (w.run before) = true)
    (hunasked : ∀ a ∈ between, a ≠ .peek) :
    recalled sees w last (before ++ .peek :: between) =
      recalled sees' w last' (before ++ .peek :: between) := by
  have hremember : ∀ {s : Scene σ → Bool} (o : Option StateNo), s (w.run before) = true →
      remember s (w.run before) o .peek = some h.id := by
    intro s o hs
    simp only [remember, hchosen, hs, if_true]
  rw [recalled_append, recalled_append, recalled, recalled, hremember _ hsees, hremember _ hsees']
  exact recalled_of_unasked _ _ hunasked

end Scene

-- ================================================================== selectors

namespace Selector

theorem mild_guided (n : Notice) (step : Nat) (g : FlowGraph) (p : Guided) :
    Relay.Mild n g (Pool.tell n step g p) := by
  refine ⟨Nat.le_of_eq (Guided.alike_tell p n step g).size.symm, fun e he => ?_⟩
  cases n with
  | added hs => cases he
  | removed h => cases he
  | moved h => exact ⟨h, rfl⟩

mutual

/-- Whatever a selector is told, the graph loses no block, and nothing
fails but a move. -/
theorem mild_tell (n : Notice) (step : Nat) (s : Selector) (g : FlowGraph) :
    Relay.Mild n g (s.tell n step g) := by
  cases s with
  | queue q =>
      rw [tell]
      exact ⟨Nat.le_refl _, fun e he => nomatch he⟩
  | guided p =>
      rw [tell]
      exact ⟨(mild_guided n step g p).size, (mild_guided n step g p).moved⟩
  | relay r =>
      obtain ⟨stages, switchAt, peeks, active⟩ := r
      rw [tell, tellAll_eq]
      have hall := Relay.mild_tellStages stages (mild_tellAll n step stages) g
      exact ⟨hall.size, hall.moved⟩

theorem mild_tellAll (n : Notice) (step : Nat) (l : List Selector) :
    ∀ s ∈ l, ∀ g, Relay.Mild n g (s.tell n step g) := by
  cases l with
  | nil =>
      intro s hs
      cases hs
  | cons x rest =>
      rw [List.forall_mem_cons]
      exact ⟨mild_tell n step x, mild_tellAll n step rest⟩

end

end Selector

-- ================================================================ the parent

namespace Guided

variable {p : Guided} {g : FlowGraph}

/-- A state that comes in is forked off the parent, whoever comes in with
it. -/
theorem trail?_foldl_track {step : Nat} {parent : Option (StateNo × Trail)} {hs : List Handle}
    {h : Handle} (hpar : p.Adopts parent) (hmem : h ∈ hs)
    (hnew : p.tracked.contains h.id = false) :
    (hs.foldl (track step parent) p).trail? h.id = some (offspring step parent h) := by
  -- once in, it stays as it is: it is not its own parent
  have hstays : ∀ (rest : List Handle) (q : Guided) (w : Walker), parent.map Prod.fst ≠ some h.id →
      q.tracked.find? h.id = some w →
      (rest.foldl (track step parent) q).tracked.find? h.id = some w := by
    intro rest
    induction rest with
    | nil => exact fun q w _ hw => hw
    | cons x rest ih =>
        intro q w hne hw
        refine ih _ w hne ?_
        cases hx : q.tracked.contains x.id with
        | true => rwa [track_of_tracked hx]
        | false =>
            have hid : h.id ≠ x.id := by
              intro hid
              rw [← hid, IdMap.contains_iff.2 ⟨w, hw⟩] at hx
              cases hx
            rw [find?_track hx, if_neg hid, hw, Option.map_some, adopting, if_neg hne]
  have hne : parent.map Prod.fst ≠ some h.id := by
    intro heq
    rw [hpar.tracked heq] at hnew
    cases hnew
  induction hs generalizing p with
  | nil => cases hmem
  | cons x rest ih =>
      rw [List.foldl_cons]
      by_cases hx : h.id = x.id
      · have hfind : (track step parent p x).tracked.find? h.id =
            some ⟨x, offspring step parent x⟩ := by
          rw [find?_track (hx ▸ hnew), if_pos hx]
        have hsame : offspring step parent x = offspring step parent h := by
          unfold offspring
          rw [hx]
        rw [trail?, hstays rest _ _ hne hfind, ← hsame]
        rfl
      · have hrest : h ∈ rest := (List.mem_cons.1 hmem).resolve_left fun heq => hx (heq ▸ rfl)
        refine ih (hpar.track step x) hrest ?_
        rw [← Bool.not_eq_true, contains_track]
        exact not_or.2 ⟨hx, Bool.eq_false_iff.1 hnew⟩

/-- A notice changes what a pool remembers as chosen only if the state goes. -/
theorem chosen_tell (hp : p.Forest) (n : Notice) (step : Nat) :
    (p.tell n step g).pool.chosen =
      match n with
      | .removed h => if p.chosen = some h.id then none else p.chosen
      | _ => p.chosen := by
  cases n with
  | added hs =>
      show (p.takeIn hs step g).chosen = _
      rw [takeIn_eq]
  | removed h =>
      show (p.letGo h g).1.chosen = if p.chosen = some h.id then none else p.chosen
      obtain ⟨hw, heq⟩ | ⟨w, -, heq⟩ := letGo_cases p h g
      · rw [heq]
        split
        next hchosen =>
          -- what is remembered is tracked
          have htracked := hp.chosen h.id hchosen
          rw [IdMap.contains, hw] at htracked
          cases htracked
        next => rfl
      · rw [heq]
  | moved h =>
      show (p.followUp h step g).pool.chosen = _
      obtain ⟨-, heq⟩ | ⟨w, e, -, -, heq⟩ | ⟨w, t, g', -, -, heq⟩ := followUp_cases p h step g <;>
        rw [heq]

/-- A pool remembers what it has chosen, and if it has chosen nothing, what
it remembered. -/
theorem chosen_peek (hp : p.Sound g) :
    (peek g p).pool.chosen =
      match (peek g p).result with
      | .ok h => some h.id
      | .error _ => p.chosen := by
  obtain ⟨-, h⟩ | ⟨id, w, hone, h⟩ | ⟨-, e, -, h⟩ | ⟨-, id, -, -, h⟩ | ⟨-, id, w, -, hw, h⟩ :=
    peek_cases g p
  · rw [h]
  · have hw : p.tracked.find? id = some w := by
      rw [IdMap.find?_eq_some, hone]
      exact List.mem_singleton_self _
    rw [h]
    exact congrArg some (hp.numbered id w hw).1.symm
  · rw [h]
    exact (consult_keeps p g).2
  · rw [h]
    exact (consult_keeps p g).2
  · rw [h]
    exact congrArg some (hp.consult.numbered id w hw).1.symm

end Guided

-- ============================================================ a guided stage

namespace Relay

variable {k : Nat} {w : Scene (Relay Selector)} {last : Option StateNo}

/-- The next request comes to the stage at a place. -/
def asks (k : Nat) (w : Scene (Relay Selector)) : Bool := w.pool.count.active = k

/-- The stage at a place is guided, fits the graph, and remembers a state
as the one chosen last. -/
def Tends (k : Nat) (w : Scene (Relay Selector)) (last : Option StateNo) : Prop :=
  ∃ p, w.pool.stages[k]? = some (.guided p) ∧ p.Sound w.graph ∧ p.Forest ∧ p.chosen = last

theorem Tends.peek (hw : Tends k w last) :
    Tends k (w.act .peek) (Scene.remember (asks k) w last .peek) := by
  obtain ⟨p, hk, hsound, hforest, rfl⟩ := hw
  by_cases hask : w.pool.count.active = k
  · -- the request comes to this stage
    obtain ⟨hresult, hstage⟩ := askStage_here (Pool.peek w.graph) hk
    have hpool : (w.act .peek).pool.stages[k]? = some (.guided (Guided.peek w.graph p).pool) := by
      show (askStage (Pool.peek w.graph) w.pool.count.active w.pool.stages).pool[k]? = _
      rw [hask, hstage, Selector.peek_guided]
      rfl
    have hsame : w.peek.result = (Guided.peek w.graph p).result := by
      show (askStage (Pool.peek w.graph) w.pool.count.active w.pool.stages).result = _
      rw [hask, hresult, Selector.peek_guided]
      rfl
    refine ⟨_, hpool, hsound.peek, hforest.peek, ?_⟩
    rw [Guided.chosen_peek hsound, Scene.remember, hsame]
    simp only [asks, hask, decide_true, if_true]
  · have hpool : (w.act .peek).pool.stages[k]? = some (.guided p) :=
      (askStage_elsewhere _ (Ne.symm hask) _).trans hk
    refine ⟨p, hpool, hsound, hforest, ?_⟩
    rw [Scene.remember]
    simp only [asks, hask, decide_false, Bool.false_eq_true, if_false]
    split <;> rfl

/-- A guided stage is told on a graph that has not shrunk meanwhile, or a
stage before it fails at a move and it stays as it is. -/
theorem guided_told {p : Guided} (hk : w.pool.stages[k]? = some (.guided p)) (n : Notice)
    (step : Nat) :
    (∃ g', w.graph.size ≤ g'.size ∧
        (p.tell n step g').graph.size ≤ (w.act (.tell n step)).graph.size ∧
        (w.act (.tell n step)).pool.stages[k]? = some (.guided (p.tell n step g').pool)) ∨
      (∃ h, n = .moved h) ∧ w.graph.size ≤ (w.act (.tell n step)).graph.size ∧
        (w.act (.tell n step)).pool.stages[k]? = some (.guided p) := by
  have hmild := Selector.mild_tellAll n step w.pool.stages
  refine (tellStages_at hmild hk w.graph).imp (fun h => ?_) fun h => ?_
  · obtain ⟨g', hle, hgraph, hpool⟩ := h
    have htold : Selector.tell n step g' (.guided p) = (Pool.tell n step g' p).map .guided := by
      rw [Selector.tell]
    rw [htold] at hgraph hpool
    exact ⟨g', hle, hgraph, hpool⟩
  · exact ⟨h.1, (mild_tellStages w.pool.stages hmild w.graph).size, h.2⟩

theorem Tends.tell (hw : Tends k w last) (n : Notice) (step : Nat) :
    Tends k (w.act (.tell n step)) (Scene.remember (asks k) w last (.tell n step)) := by
  obtain ⟨p, hk, hsound, hforest, rfl⟩ := hw
  obtain ⟨g', hle, hgraph, hpool⟩ | ⟨⟨h, rfl⟩, hgrown, hpool⟩ := guided_told hk n step
  · have hsound' := hsound.mono hle
    have hforest' : (p.tell n step g').pool.Forest :=
      hforest.act (w := ⟨g', p⟩) hsound' (.tell n step)
    refine ⟨_, hpool, (hsound'.tell n step).mono hgraph, hforest', ?_⟩
    refine (Guided.chosen_tell hforest n step).trans ?_
    cases n <;> rfl
  · exact ⟨p, hpool, hsound.mono hgrown, hforest, rfl⟩

theorem Tends.act (hw : Tends k w last) (a : Act) :
    Tends k (w.act a) (Scene.remember (asks k) w last a) := by
  cases a with
  | peek => exact hw.peek
  | tell n step => exact hw.tell n step
  | graph a =>
      obtain ⟨p, hk, hsound, hforest, rfl⟩ := hw
      exact ⟨p, hk, hsound.mono (FlowGraph.size_le_act w.graph a), hforest, rfl⟩

theorem Tends.run (hw : Tends k w last) (as : List Act) :
    Tends k (w.run as) (Scene.recalled (asks k) w last as) := by
  induction as generalizing w last with
  | nil => exact hw
  | cons a as ih => exact ih (hw.act a)

/-- A guided stage of a new relay has nothing in mind. -/
theorem tends_new {l : List Selector} {switchAt : Nat} {r : Relay Selector}
    (hr : Relay.new? l switchAt = .ok r) {a : Adviser} {policy : Policy}
    (hk : l[k]? = some (.guided (.new a policy))) (g : FlowGraph) : Tends k ⟨g, r⟩ none := by
  obtain ⟨-, -, rfl⟩ := new?_eq_ok hr
  exact ⟨_, hk, Guided.sound_new a policy g, Guided.forest_new a policy, rfl⟩

/-- A guided stage that is told of forks takes in those it does not know as
forks of the state that it has in mind. -/
theorem Tends.takeIn (hw : Tends k w last) (hs : List Handle) (step : Nat) :
    ∃ p p', w.pool.stages[k]? = some (.guided p) ∧
      (w.act (.tell (.added hs) step)).pool.stages[k]? = some (.guided p') ∧
      ∀ h ∈ hs, p.tracked.contains h.id = false →
        p'.parentOf? h.id = last ∧
        (last = none → p'.trail? h.id = some (.fresh h.id step)) ∧
        ∀ m, last = some m →
          ∃ t, p.trail? m = some t ∧ p'.trail? h.id = some (t.fork h.id step) := by
  obtain ⟨p, hk, hsound, hforest, rfl⟩ := hw
  obtain ⟨g', -, -, hpool⟩ | ⟨⟨h, hmoved⟩, -⟩ := guided_told hk (.added hs) step
  · refine ⟨p, p.takeIn hs step g', hk, hpool, fun h hmem hnew => ?_⟩
    have htrail : (p.takeIn hs step g').trail? h.id = some (Guided.offspring step p.parent? h) := by
      rw [Guided.takeIn_eq]
      exact Guided.trail?_foldl_track (Guided.adopts_parent? hsound) hmem hnew
    have hparent : (p.takeIn hs step g').parentOf? h.id =
        (Guided.offspring step p.parent? h).parent := by
      rw [Guided.parentOf?, htrail]
      rfl
    cases hchosen : p.chosen with
    | none =>
        have hnone : p.parent? = none := by
          rw [Guided.parent?, hchosen]
          rfl
        rw [hnone] at htrail hparent
        refine ⟨hparent, fun _ => htrail, fun m hm => ?_⟩
        cases hm
    | some m =>
        obtain ⟨v, hv⟩ := IdMap.contains_iff.1 (hforest.chosen m hchosen)
        have ht : p.trail? m = some v.trail := by
          rw [Guided.trail?, hv]
          rfl
        have hsome : p.parent? = some (m, v.trail) := by
          rw [Guided.parent?, hchosen, Option.bind_some, ht]
          rfl
        rw [hsome] at htrail hparent
        refine ⟨hparent.trans (congrArg some (hsound.numbered m v hv).2), fun hm => ?_,
          fun m' hm' => ?_⟩
        · cases hm
        · obtain rfl := Option.some.inj hm'
          exact ⟨v.trail, ht, htrail⟩
  · cases hmoved

/-- Inside a relay, whatever else it consists of and whenever it switches, a
guided stage takes in forks as forks of the state chosen last at a request
that came to this stage, unless that state has gone since: each has it for
its parent and starts from its trail, and starts afresh if there is none. It
is the state that the relay chose last if the last request came to this
stage and was granted. -/
theorem forks_parented {l : List Selector} {switchAt : Nat} {r : Relay Selector}
    (hr : Relay.new? l switchAt = .ok r) {a : Adviser} {policy : Policy}
    (hk : l[k]? = some (.guided (.new a policy))) (g : FlowGraph) (as : List Act)
    (hs : List Handle) (step : Nat) :
    (∃ p p', ((⟨g, r⟩ : Scene _).run as).pool.stages[k]? = some (.guided p) ∧
      ((⟨g, r⟩ : Scene _).run (as ++ [.tell (.added hs) step])).pool.stages[k]? =
        some (.guided p') ∧
      ∀ h ∈ hs, p.tracked.contains h.id = false →
        p'.parentOf? h.id = Scene.recalled (asks k) ⟨g, r⟩ none as ∧
        (Scene.recalled (asks k) ⟨g, r⟩ none as = none →
          p'.trail? h.id = some (.fresh h.id step)) ∧
        ∀ m, Scene.recalled (asks k) ⟨g, r⟩ none as = some m →
          ∃ t, p.trail? m = some t ∧ p'.trail? h.id = some (t.fork h.id step)) ∧
      ∀ before between h, as = before ++ .peek :: between →
        asks k ((⟨g, r⟩ : Scene _).run before) = true →
        ((⟨g, r⟩ : Scene _).run before).peek.result = .ok h → (∀ x ∈ between, x ≠ .peek) →
        Scene.recalled (asks k) ⟨g, r⟩ none as = Scene.recalled (fun _ => true) ⟨g, r⟩ none as := by
  refine ⟨?_, fun before between h heq hasks hchosen hunasked => ?_⟩
  · rw [Scene.run_append]
    exact ((tends_new hr hk g).run as).takeIn hs step
  · subst heq
    exact Scene.recalled_of_served _ _ _ hchosen hasks rfl hunasked

/-- A queue and a guided pool behind it. -/
def tandem : Relay Selector :=
  ⟨[.queue (.empty .breadth), .guided (.new contrary .auto)], 5, 0, 0⟩

/-- A state is taken in, chosen, and makes its first step. -/
def outing : List Act :=
  [.graph (.register (looping 0)), .tell (.added [standing 0 0 0]) 0, .peek,
    .tell (.moved (standing 0 0 0)) 1]

/-- While the queue is asked, the guided stage takes a fork of the state that
was chosen for a state without a parent. -/
theorem fork_orphaned :
    Relay.new? [.queue (.empty .breadth), .guided (.new contrary .auto)] 5 = .ok tandem ∧
      Scene.recalled (fun _ => true) ⟨.empty, tandem⟩ none outing = some 0 ∧
      ∃ p', ((⟨.empty, tandem⟩ : Scene _).run
          (outing ++ [.tell (.added [standing 1 0 0]) 1])).pool.stages[1]? = some (.guided p') ∧
        p'.parentOf? 1 = none ∧ p'.trail? 1 = some (.fresh 1 1) := by
  have hnew : Relay.new? [.queue (.empty .breadth), .guided (.new contrary .auto)] 5 =
      .ok tandem := rfl
  obtain ⟨⟨p, p', hp, hp', hforks⟩, -⟩ :=
    forks_parented hnew (k := 1) rfl .empty outing [standing 1 0 0] 1
  have hnone : Scene.recalled (asks 1) ⟨.empty, tandem⟩ none outing = none := by decide
  have hfree : ((⟨.empty, tandem⟩ : Scene _).run outing).pool.stages[1]?.all
      (fun s => 1 ∉ s.ids) = true := by decide
  have huntracked : p.tracked.contains 1 = false := by
    rw [hp, Option.all_some, decide_eq_true_eq] at hfree
    exact Bool.eq_false_iff.2 fun ht => hfree (IdMap.mem_keys.2 ht)
  obtain ⟨hparent, hfresh, -⟩ := hforks _ (List.mem_singleton_self _) huntracked
  exact ⟨hnew, by decide, p', hp', hparent.trans hnone, hfresh hnone⟩

end Relay

end SymbolicSearch
