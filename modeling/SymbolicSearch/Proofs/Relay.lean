/-
Relays keep their stages in step. Every stage of a relay is told what every
other is told, so all of them read alike; a notice that fails at one stage
is one of a move, and a move changes no stage's states.
-/
import SymbolicSearch.Proofs.Roster
import SymbolicSearch.Relay

namespace SymbolicSearch.Relay

variable {σ : Type}

-- ============================================================= one operation

theorem length_askStage (ask : σ → Choice σ) (k : Nat) (l : List σ) :
    (askStage ask k l).pool.length = l.length := by
  induction l generalizing k with
  | nil => cases k <;> rfl
  | cons s rest ih =>
      cases k with
      | zero => rfl
      | succ k => exact congrArg Nat.succ (ih k)

theorem length_tellStages (tell : FlowGraph → σ → Told σ) (g : FlowGraph) (l : List σ) :
    (tellStages tell g l).pool.length = l.length := by
  induction l generalizing g with
  | nil => rfl
  | cons s rest ih =>
      unfold tellStages
      cases ht : (tell g s).result with
      | error e => simp only [ht, List.length_cons]
      | ok u =>
          simp only [ht]
          exact congrArg Nat.succ (ih _)

/-- Asking the stage at a place asks a stage and changes no other. -/
theorem askStage_spec (ask : σ → Choice σ) {k : Nat} {l : List σ} (hk : k < l.length) :
    ∃ s ∈ l, (askStage ask k l).result = (ask s).result ∧
      ∀ x ∈ (askStage ask k l).pool, x ∈ l ∨ x = (ask s).pool := by
  induction l generalizing k with
  | nil => cases hk
  | cons s rest ih =>
      cases k with
      | zero =>
          refine ⟨s, List.mem_cons_self, rfl, fun x hx => ?_⟩
          rcases List.mem_cons.1 hx with hx | hx
          · exact Or.inr hx
          · exact Or.inl (List.mem_cons_of_mem s hx)
      | succ k =>
          obtain ⟨y, hy, hresult, hrest⟩ := ih (Nat.lt_of_succ_lt_succ hk)
          refine ⟨y, List.mem_cons_of_mem s hy, hresult, fun x hx => ?_⟩
          rcases List.mem_cons.1 hx with hx | hx
          · exact Or.inl (hx ▸ List.mem_cons_self)
          · exact (hrest x hx).imp_left (List.mem_cons_of_mem s)

theorem askStage_here (ask : σ → Choice σ) {k : Nat} {l : List σ} {s : σ} (hk : l[k]? = some s) :
    (askStage ask k l).result = (ask s).result ∧
      (askStage ask k l).pool[k]? = some (ask s).pool := by
  induction l generalizing k with
  | nil => cases hk
  | cons x rest ih =>
      cases k with
      | zero =>
          obtain rfl := Option.some.inj hk
          exact ⟨rfl, rfl⟩
      | succ k => exact ih hk

theorem asked_askStage (ask : σ → Choice σ) {k : Nat} {l : List σ} {s : σ} (hk : l[k]? = some s) :
    (askStage ask k l).asked = (ask s).asked := by
  induction l generalizing k with
  | nil => cases hk
  | cons x rest ih =>
      cases k with
      | zero =>
          obtain rfl := Option.some.inj hk
          rfl
      | succ k => exact ih hk

theorem askStage_elsewhere (ask : σ → Choice σ) {j k : Nat} (hne : j ≠ k) (l : List σ) :
    (askStage ask k l).pool[j]? = l[j]? := by
  induction l generalizing j k with
  | nil => cases k <;> rfl
  | cons x rest ih =>
      cases k with
      | zero =>
          cases j with
          | zero => exact absurd rfl hne
          | succ j => rfl
      | succ k =>
          cases j with
          | zero => rfl
          | succ j => exact ih fun heq => hne (congrArg Nat.succ heq)

/-- Every stage after one was asked is a stage before that, as it was or
asked. -/
theorem askStage_cases (ask : σ → Choice σ) {j k : Nat} {l : List σ} {x : σ}
    (hx : (askStage ask k l).pool[j]? = some x) :
    ∃ s, l[j]? = some s ∧ (x = s ∨ x = (ask s).pool) := by
  by_cases heq : j = k
  · subst heq
    have hlt := (List.getElem?_eq_some_iff.1 hx).1
    rw [length_askStage] at hlt
    have hs : l[j]? = some l[j] := List.getElem?_eq_getElem hlt
    exact ⟨l[j], hs, Or.inr (Option.some.inj (hx.symm.trans (askStage_here ask hs).2))⟩
  · rw [askStage_elsewhere ask heq] at hx
    exact ⟨x, hx, Or.inl rfl⟩

/-- What telling may come to: the graph loses no block, and nothing fails
but a move. -/
structure Mild (n : Notice) (g : FlowGraph) (t : Told σ) : Prop where
  size : g.size ≤ t.graph.size
  moved : ∀ e, t.result = .error e → ∃ h, n = .moved h

theorem mild_tellStages {n : Notice} {tell : FlowGraph → σ → Told σ} (l : List σ)
    (htell : ∀ s ∈ l, ∀ g, Mild n g (tell g s)) (g : FlowGraph) :
    Mild n g (tellStages tell g l) := by
  induction l generalizing g with
  | nil => exact ⟨Nat.le_refl _, fun e he => nomatch he⟩
  | cons s rest ih =>
      rw [List.forall_mem_cons] at htell
      have hs := htell.1 g
      unfold tellStages
      cases ht : (tell g s).result with
      | error e =>
          simp only [ht]
          exact ⟨hs.size, fun _ _ => hs.moved e ht⟩
      | ok u =>
          simp only [ht]
          have hrest := ih htell.2 (tell g s).graph
          exact ⟨Nat.le_trans hs.size hrest.size, hrest.moved⟩

/-- The stage at a place is told on a graph that has not shrunk meanwhile,
or a stage before it fails at a move and it stays as it is. -/
theorem tellStages_at {n : Notice} {tell : FlowGraph → σ → Told σ} {k : Nat} {l : List σ} {s : σ}
    (htell : ∀ s ∈ l, ∀ g, Mild n g (tell g s)) (hk : l[k]? = some s) (g : FlowGraph) :
    (∃ g', g.size ≤ g'.size ∧ (tell g' s).graph.size ≤ (tellStages tell g l).graph.size ∧
        (tellStages tell g l).pool[k]? = some (tell g' s).pool) ∨
      (∃ h, n = .moved h) ∧ (tellStages tell g l).pool[k]? = some s := by
  induction l generalizing g k with
  | nil => cases hk
  | cons x rest ih =>
      rw [List.forall_mem_cons] at htell
      have hx := htell.1 g
      unfold tellStages
      cases ht : (tell g x).result with
      | error e =>
          simp only [ht]
          cases k with
          | zero =>
              obtain rfl := Option.some.inj hk
              exact Or.inl ⟨g, Nat.le_refl _, Nat.le_refl _, rfl⟩
          | succ k => exact Or.inr ⟨hx.moved e ht, hk⟩
      | ok u =>
          simp only [ht]
          cases k with
          | zero =>
              obtain rfl := Option.some.inj hk
              exact Or.inl ⟨g, Nat.le_refl _, (mild_tellStages rest htell.2 _).size, rfl⟩
          | succ k =>
              refine (ih htell.2 hk (tell g x).graph).imp_left fun h => ?_
              obtain ⟨g', hle, hgraph, hpool⟩ := h
              exact ⟨g', Nat.le_trans hx.size hle, hgraph, hpool⟩

/-- A single stage is told as it would be on its own. -/
theorem tellStages_singleton (tell : FlowGraph → σ → Told σ) (g : FlowGraph) (s : σ) :
    tellStages tell g [s] = (tell g s).map fun x => [x] := by
  unfold tellStages
  cases ht : (tell g s).result with
  | error e => simp only [ht, Told.map]
  | ok u => simp only [ht, tellStages, Told.map]

/-- Telling the stages in turn, place by place: all of them are told, or one
fails, those before it have been told and those after it are not. -/
theorem tellStages_cases (tell : FlowGraph → σ → Told σ) (g : FlowGraph) (l : List σ) :
    ((tellStages tell g l).result = .ok () ∧
        ∀ (k : Nat) (s : σ), l[k]? = some s → ∃ g', (tell g' s).result = .ok () ∧
          (tellStages tell g l).pool[k]? = some (tell g' s).pool) ∨
      ∃ (f : Nat) (y : σ) (g' : FlowGraph) (e : Fault), l[f]? = some y ∧
        (tell g' y).result = .error e ∧
        (tellStages tell g l).result = .error e ∧
        (tellStages tell g l).pool[f]? = some (tell g' y).pool ∧
        (∀ (k : Nat) (s : σ), k < f → l[k]? = some s → ∃ g', (tell g' s).result = .ok () ∧
          (tellStages tell g l).pool[k]? = some (tell g' s).pool) ∧
        ∀ k : Nat, f < k → (tellStages tell g l).pool[k]? = l[k]? := by
  induction l generalizing g with
  | nil => exact Or.inl ⟨rfl, fun k s hk => nomatch hk⟩
  | cons x rest ih =>
      unfold tellStages
      cases ht : (tell g x).result with
      | error e =>
          simp only [ht]
          refine Or.inr ⟨0, x, g, e, rfl, ht, rfl, rfl, fun k s hk => (nomatch hk), fun k hk => ?_⟩
          cases k with
          | zero => cases hk
          | succ k => rfl
      | ok u =>
          simp only [ht]
          refine (ih (tell g x).graph).imp (fun h => ⟨h.1, fun k s hk => ?_⟩) fun h => ?_
          · cases k with
            | zero =>
                obtain rfl := Option.some.inj hk
                exact ⟨g, ht, rfl⟩
            | succ k => exact h.2 k s hk
          · obtain ⟨f, y, g', e, hy, hfail, hresult, hpool, hbefore, hafter⟩ := h
            refine ⟨f + 1, y, g', e, hy, hfail, hresult, hpool, fun k s hlt hk => ?_,
              fun k hlt => ?_⟩
            · cases k with
              | zero =>
                  obtain rfl := Option.some.inj hk
                  exact ⟨g, ht, rfl⟩
              | succ k => exact hbefore k s (Nat.lt_of_succ_lt_succ hlt) hk
            · cases k with
              | zero => cases hlt
              | succ k => exact hafter k (Nat.lt_of_succ_lt_succ hlt)

/-- Telling the stages tells all of them, or some of them up to one that
fails. -/
theorem tellStages_spec (tell : FlowGraph → σ → Told σ) (g : FlowGraph) (l : List σ) :
    ((tellStages tell g l).result = .ok () ∧
        ∀ x ∈ (tellStages tell g l).pool, ∃ s ∈ l, ∃ g', (tell g' s).result = .ok () ∧
          x = (tell g' s).pool) ∨
      ∃ e, (tellStages tell g l).result = .error e ∧
        (∃ s ∈ l, ∃ g', (tell g' s).result = .error e) ∧
        ∀ x ∈ (tellStages tell g l).pool, x ∈ l ∨ ∃ s ∈ l, ∃ g', x = (tell g' s).pool := by
  have hplace : ∀ x ∈ (tellStages tell g l).pool, ∃ (k : Nat) (s : σ), l[k]? = some s ∧
      (tellStages tell g l).pool[k]? = some x := by
    intro x hx
    obtain ⟨k, hk⟩ := List.mem_iff_getElem?.1 hx
    have hlt := (List.getElem?_eq_some_iff.1 hk).1
    rw [length_tellStages] at hlt
    exact ⟨k, l[k], List.getElem?_eq_getElem hlt, hk⟩
  refine (tellStages_cases tell g l).imp (fun h => ⟨h.1, fun x hx => ?_⟩) fun h => ?_
  · obtain ⟨k, s, hs, hk⟩ := hplace x hx
    obtain ⟨g', hok, hpool⟩ := h.2 k s hs
    exact ⟨s, List.mem_of_getElem? hs, g', hok, Option.some.inj (hk.symm.trans hpool)⟩
  · obtain ⟨f, y, gy, e, hy, hfail, hresult, hpool, hbefore, hafter⟩ := h
    refine ⟨e, hresult, ⟨y, List.mem_of_getElem? hy, gy, hfail⟩, fun x hx => ?_⟩
    obtain ⟨k, s, hs, hk⟩ := hplace x hx
    rcases Nat.lt_trichotomy k f with hlt | rfl | hlt
    · obtain ⟨g', -, hpool⟩ := hbefore k s hlt hs
      exact Or.inr ⟨s, List.mem_of_getElem? hs, g', Option.some.inj (hk.symm.trans hpool)⟩
    · exact Or.inr ⟨y, List.mem_of_getElem? hy, gy, Option.some.inj (hk.symm.trans hpool)⟩
    · exact Or.inl (List.mem_of_getElem? ((hafter k hlt).symm.trans hk))

/-- Where no stage moves the graph, all hear a notice on the same graph. -/
theorem tellStages_of_still {tell : FlowGraph → σ → Told σ} {g : FlowGraph} {l : List σ}
    (hstill : ∀ s ∈ l, ∀ g, (tell g s).graph = g) (hok : (tellStages tell g l).result = .ok ()) :
    (tellStages tell g l).graph = g ∧
      (tellStages tell g l).pool = l.map fun s => (tell g s).pool := by
  induction l with
  | nil => exact ⟨rfl, rfl⟩
  | cons s rest ih =>
      obtain ⟨hs, hrest⟩ := List.forall_mem_cons.1 hstill
      unfold tellStages at hok ⊢
      cases ht : (tell g s).result with
      | error e =>
          simp only [ht] at hok
          cases hok
      | ok u =>
          simp only [ht, hs g] at hok ⊢
          obtain ⟨hgraph, hpool⟩ := ih hrest hok
          exact ⟨hgraph, congrArg ((tell g s).pool :: ·) hpool⟩

/-- Where one stage at most moves the graph, those up to it hear a notice on
the graph as it was, and those after it on the graph that it has moved. -/
theorem tellStages_of_ok {tell : FlowGraph → σ → Told σ} {g : FlowGraph} {l : List σ} {m : Nat}
    {mover : σ} (hm : l[m]? = some mover)
    (hstill : ∀ (k : Nat) (s : σ), l[k]? = some s → k ≠ m → ∀ g, (tell g s).graph = g)
    (hok : (tellStages tell g l).result = .ok ()) :
    (tellStages tell g l).graph = (tell g mover).graph ∧
      ∀ k : Nat, (tellStages tell g l).pool[k]? =
        l[k]?.map fun s => (tell (if k ≤ m then g else (tell g mover).graph) s).pool := by
  induction l generalizing m with
  | nil => cases hm
  | cons s rest ih =>
      unfold tellStages at hok ⊢
      cases ht : (tell g s).result with
      | error e =>
          simp only [ht] at hok
          cases hok
      | ok u =>
          simp only [ht] at hok ⊢
          cases m with
          | zero =>
              obtain rfl := Option.some.inj hm
              have hrest : ∀ x ∈ rest, ∀ g, (tell g x).graph = g := by
                intro x hx
                obtain ⟨k, hk⟩ := List.mem_iff_getElem?.1 hx
                exact hstill (k + 1) x hk (Nat.succ_ne_zero k)
              obtain ⟨hgraph, hpool⟩ := tellStages_of_still hrest hok
              refine ⟨hgraph, fun k => ?_⟩
              cases k with
              | zero => rfl
              | succ k =>
                  show (tellStages tell (tell g s).graph rest).pool[k]? = _
                  rw [hpool, List.getElem?_map, if_neg (Nat.not_succ_le_zero k)]
                  rfl
          | succ m =>
              have hs := hstill 0 s rfl (Nat.succ_ne_zero m).symm g
              rw [hs] at hok ⊢
              obtain ⟨hgraph, hpool⟩ := ih hm
                (fun k x hk hne => hstill (k + 1) x hk fun heq => hne (Nat.succ.inj heq)) hok
              refine ⟨hgraph, fun k => ?_⟩
              cases k with
              | zero => rfl
              | succ k =>
                  show (tellStages tell g rest).pool[k]? = _
                  rw [hpool]
                  simp only [Nat.add_le_add_iff_right]
                  rfl

-- ==================================================================== a relay

/-- A relay has two stages at least, and begins with the first. -/
theorem new?_eq_ok {l : List σ} {switchAt : Nat} {r : Relay σ} (h : new? l switchAt = .ok r) :
    2 ≤ l.length ∧ 0 < switchAt ∧ r = ⟨l, switchAt, 0, 0⟩ := by
  unfold new? at h
  split at h
  next => cases h
  next htwo =>
    split at h
    next => cases h
    next hzero =>
      exact ⟨Nat.le_of_not_lt htwo, Nat.pos_of_ne_zero hzero, (Except.ok.inj h).symm⟩

/-- The stages of a relay are tidy and read alike, as a roster says. -/
structure Kept (tidy : σ → Prop) (handle? : σ → StateNo → Option Handle) (strict : Prop)
    (ρ : StateNo → Option Handle) (r : Relay σ) : Prop where
  active : r.active < r.stages.length
  tidy : ∀ s ∈ r.stages, tidy s
  follows : ∀ s ∈ r.stages, Follows strict (handle? s) ρ

variable {r : Relay σ}

theorem active_count (hr : r.active < r.stages.length) : r.count.active < r.stages.length := by
  show (if r.peeks + 1 = r.switchAt then (r.active + 1) % r.stages.length else r.active) < _
  split
  next => exact Nat.mod_lt _ (Nat.zero_lt_of_lt hr)
  next => exact hr

section

variable [Pool σ] {tidy : σ → Prop} {handle? : σ → StateNo → Option Handle} {strict : Prop}
  {ρ : StateNo → Option Handle}

theorem Kept.peek (hf : Faithful tidy handle?) (hr : Kept tidy handle? strict ρ r)
    (g : FlowGraph) : Kept tidy handle? strict ρ (Pool.peek g r).pool := by
  obtain ⟨s, hs, -, hstages⟩ := askStage_spec (Pool.peek g) (active_count hr.active)
  have hall : ∀ x ∈ (Pool.peek g r).pool.stages, tidy x ∧ Follows strict (handle? x) ρ := by
    intro x hx
    rcases hstages x hx with hold | hnew
    · exact ⟨hr.tidy x hold, hr.follows x hold⟩
    · subst hnew
      refine ⟨(hf s (hr.tidy s hs)).peek_tidy g, ?_⟩
      rw [(hf s (hr.tidy s hs)).peek_handle g]
      exact hr.follows s hs
  refine ⟨?_, fun x hx => (hall x hx).1, fun x hx => (hall x hx).2⟩
  show r.count.active < (askStage (Pool.peek g) r.count.active r.stages).pool.length
  rw [length_askStage]
  exact active_count hr.active

theorem Kept.tell (hf : Faithful tidy handle?) (hr : Kept tidy handle? strict ρ r) (n : Notice)
    (step : Nat) (g : FlowGraph) :
    Kept tidy handle? (strict ∧ (Pool.tell n step g r).result = .ok ()) (n.update ρ)
      (Pool.tell n step g r).pool := by
  have hstages := tellStages_spec (Pool.tell n step) g r.stages
  have htold : ∀ s ∈ r.stages, ∀ g', tidy (Pool.tell n step g' s).pool ∧
      Follows (strict ∧ (Pool.tell n step g' s).result = .ok ())
        (handle? (Pool.tell n step g' s).pool) (n.update ρ) :=
    fun s hs g' => ⟨(hf s (hr.tidy s hs)).tell_tidy n step g',
      hf.follows_tell (hr.tidy s hs) (hr.follows s hs) n step g'⟩
  have hall : ∀ x ∈ (Pool.tell n step g r).pool.stages, tidy x ∧
      Follows (strict ∧ (Pool.tell n step g r).result = .ok ()) (handle? x) (n.update ρ) := by
    intro x hx
    rcases hstages with hok | herror
    · obtain ⟨s, hs, g', hresult, rfl⟩ := hok.2 x hx
      obtain ⟨htidy, hfollows⟩ := htold s hs g'
      exact ⟨htidy, hfollows.weaken fun hw => ⟨hw.1, hresult⟩⟩
    · obtain ⟨e, he, ⟨y, hy, gy, hfail⟩, hrest⟩ := herror
      have hfails : ¬ (Pool.tell n step g r).result = .ok () := fun hok => nomatch he.symm.trans hok
      obtain ⟨⟨h, rfl⟩, -⟩ := (hf y (hr.tidy y hy)).tell_error n step gy e hfail
      cases hrest x hx with
      | inl hold =>
          exact ⟨hr.tidy x hold, ((hr.follows x hold).miss h).weaken fun hw => hfails hw.2⟩
      | inr hnew =>
          obtain ⟨s, hs, g', rfl⟩ := hnew
          obtain ⟨htidy, hfollows⟩ := htold s hs g'
          exact ⟨htidy, hfollows.weaken fun hw => absurd hw.2 hfails⟩
  refine ⟨?_, fun x hx => (hall x hx).1, fun x hx => (hall x hx).2⟩
  show r.active < (tellStages (Pool.tell n step) g r.stages).pool.length
  rw [length_tellStages]
  exact hr.active

/-- A relay fails only at a move. -/
theorem Kept.moved_of_error (hf : Faithful tidy handle?) (hr : Kept tidy handle? strict ρ r)
    {n : Notice} {step : Nat} {g : FlowGraph} {e : Fault}
    (he : (Pool.tell n step g r).result = .error e) : ∃ h, n = .moved h := by
  obtain hok | ⟨e', -, ⟨y, hy, gy, hfail⟩, -⟩ :=
    tellStages_spec (Pool.tell n step) g r.stages
  · exact nomatch hok.1.symm.trans he
  · exact ((hf y (hr.tidy y hy)).tell_error n step gy e' hfail).1

/-- A relay answers as its stages do. -/
theorem Kept.answers (hf : Faithful tidy handle?) (hr : Kept tidy handle? strict ρ r)
    (g : FlowGraph) : Answers strict ρ g r := by
  obtain ⟨s, hs, hresult, -⟩ := askStage_spec (Pool.peek g) (active_count hr.active)
  have hstage := hf.answers (hr.tidy s hs) (hr.follows s hs) g
  have hpeek : (Pool.peek g r).result = (Pool.peek g s).result := hresult
  refine ⟨?_, ?_, fun h hh => ?_⟩
  · show r.stages.all Pool.isEmpty = true ↔ _
    rw [List.all_eq_true, ← hstage.isEmpty]
    constructor
    · intro hall
      exact hall s hs
    · intro hempty x hx
      rw [(hf.answers (hr.tidy x hx) (hr.follows x hx) g).isEmpty, ← hstage.isEmpty]
      exact hempty
  · rw [hpeek]
    exact hstage.none
  · rw [hpeek] at hh
    exact hstage.some h hh

end

end SymbolicSearch.Relay
