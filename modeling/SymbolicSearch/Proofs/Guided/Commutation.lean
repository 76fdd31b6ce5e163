/-
Notices about different states commute. Each is a deed of the state that it
is about, and of two deeds of two states it makes no difference which one is
told first, whatever the two states are to each other and wherever they
stand (`notices_commute`).

# Deeds

What a notice comes to is found out from the state's own trail and from the
graph. It is found to be the same whatever the trail's links are and
wherever other states stand (`deed_relink`), and these are all that the deed
of another state changes (`sight_eq_relink`). So the second of two notices
tells of the deed that it would have told of as the first one.

# Two deeds

That the deeds themselves commute is said place by place: of the tracked
states by look-ups, of the notes by members, of the graph block by block.
Only when both states go do their links matter: each has then lost sight of
the other, and of nobody else (`Forest.links_parting`).
-/
import SymbolicSearch.Proofs.Guided.Family
import SymbolicSearch.Proofs.Trail.Way

namespace SymbolicSearch

-- ====================================================================== links

/-- The state with other links. -/
def Walker.relink (w : Walker) (parent : Option StateNo) (children : IdSet) : Walker :=
  { w with trail := w.trail.relink parent children }

/-- The state that a notice is about, if it is about one. -/
def Notice.about? : Notice → Option StateNo
  | .added _ => none
  | .removed h => some h.id
  | .moved h => some h.id

namespace Guided

variable {p : Guided} {g g' : FlowGraph} {i j k : StateNo} {v w : Walker}

-- ====================================================================== deeds

/-- What a notice about a state tells of it. -/
inductive Deed
  /-- It does nothing, and telling of it comes to this. -/
  | idle (result : Except Fault Unit)
  | goes
  /-- It is known by another handle and has another trail, which is given
  without its links, and it has gone its way in the graph. -/
  | moves (handle : Handle) (trail : Trail) (way : Way)

/-- The deed that a notice tells of a tracked state. -/
def deed (n : Notice) (step : Nat) (w : Walker) (g : FlowGraph) : Deed :=
  match n with
  | .added _ => .idle (.ok ())
  | .removed _ => .goes
  | .moved h =>
    match h.last with
    | none => .moves h w.trail.loose []
    | some stmt =>
      match g.locate stmt with
      | .error e => .idle (.error e)
      | .ok (id, b) =>
        .moves h ((w.trail.loose.stepOn id b stmt.site.index h.forks step).recount g)
          (w.trail.wayTo id stmt.site.index)

theorem deed_unplaced {h : Handle} {stmt : Stmt} {e : Fault} (hl : h.last = some stmt)
    (he : g.locate stmt = .error e) (step : Nat) (w : Walker) :
    deed (.moved h) step w g = .idle (.error e) := by
  simp only [deed, hl, he]

theorem deed_placed {h : Handle} {stmt : Stmt} {id : BlockNo} {b : Block} (hl : h.last = some stmt)
    (hb : g.locate stmt = .ok (id, b)) (step : Nat) (w : Walker) :
    deed (.moved h) step w g =
      .moves h ((w.trail.loose.stepOn id b stmt.site.index h.forks step).recount g)
        (w.trail.wayTo id stmt.site.index) := by
  simp only [deed, hl, hb]

/-- A deed is the same whatever the state's links are and whatever other
states have done in the graph. -/
theorem deed_relink (hlies : w.trail.Lies g) (hg : FlowGraph.Alike g g')
    (hcov : FlowGraph.SameCoverage g g') (n : Notice) (step : Nat) (parent : Option StateNo)
    (children : IdSet) : deed n step (w.relink parent children) g' = deed n step w g := by
  cases n with
  | added hs => rfl
  | removed h => rfl
  | moved h =>
      cases hl : h.last with
      | none =>
          simp only [deed, hl]
          rfl
      | some stmt =>
          obtain ⟨e, he, he'⟩ | ⟨id, b, b', hb, hb', hbare⟩ := hg.locate_cases stmt
          · rw [deed_unplaced hl he, deed_unplaced hl he']
          · have hstep : (w.trail.loose.stepOn id b stmt.site.index h.forks step).Lies g :=
              Trail.Lies.stepOn (t := w.trail.loose) ⟨hlies.history, hlies.block⟩
                (FlowGraph.block_of_locate hb) _ _ _
            rw [deed_placed hl hb, deed_placed hl hb', Trail.stepOn_congr hbare]
            exact congrArg (Deed.moves h · _) (hstep.recount_eq hcov)

namespace Deed

def result : Deed → Except Fault Unit
  | .idle r => r
  | _ => .ok ()

/-- What becomes of the state itself. -/
def own (w : Walker) : Deed → Option Walker
  | .idle _ => some w
  | .goes => none
  | .moves h t _ => some ⟨h, t.relink w.trail.parent w.trail.children⟩

/-- What becomes of another state. -/
def sight (i : StateNo) (w : Walker) : Deed → StateNo → Walker → Walker
  | .goes => parting i w.trail
  | _ => fun _ v => v

def tracked (i : StateNo) (w : Walker) (m : IdMap Walker) : Deed → IdMap Walker
  | .idle _ => m
  | .goes => (m.erase i).map (parting i w.trail)
  | .moves h t _ => m.insert i ⟨h, t.relink w.trail.parent w.trail.children⟩

def chosen (i : StateNo) (o : Option StateNo) : Deed → Option StateNo
  | .goes => if o = some i then none else o
  | _ => o

def states (i : StateNo) (w : Walker) (p : Guided) : Deed → IdSet
  | .idle _ => p.touchedStates
  | .goes => (p.touchedStates.insertAll ((kin w.trail).filter (p.tracked.erase i).contains)).erase i
  | .moves _ _ _ => p.touchedStates.insert i

def blocks (w : Walker) : Deed → List BlockNo
  | .idle _ => []
  | .goes => leavings w
  | .moves _ t _ => passage w.trail t

def way (w : Walker) : Deed → Way
  | .idle _ => []
  | .goes => w.trail.wayOut
  | .moves _ _ way => way

/-- The pool after it has been told of a deed. -/
def pool (d : Deed) (i : StateNo) (w : Walker) (p : Guided) : Guided :=
  { p with
    tracked := d.tracked i w p.tracked
    chosen := d.chosen i p.chosen
    touchedStates := d.states i w p
    touchedBlocks := p.touchedBlocks.insertAll (d.blocks w) }

end Deed

/-- A notice about a tracked state tells of its deed, and of nothing else. -/
theorem tell_eq (hp : p.Sound g) (hw : p.tracked.find? i = some w) {n : Notice}
    (hn : n.about? = some i) (step : Nat) :
    p.tell n step g = ⟨(deed n step w g).result, (deed n step w g).pool i w p,
      g.tread i ((deed n step w g).way w)⟩ := by
  have hstate : w.trail.state = i := (hp.numbered i w hw).2
  cases n with
  | added hs => cases hn
  | removed h =>
      obtain rfl : h.id = i := Option.some.inj hn
      obtain ⟨hnone, -⟩ | ⟨w', hw', heq⟩ := letGo_cases p h g
      · cases hw.symm.trans hnone
      · obtain rfl := Option.some.inj (hw.symm.trans hw')
        rw [Trail.leave_eq, hstate] at heq
        show (⟨.ok (), (p.letGo h g).1, (p.letGo h g).2⟩ : Told Guided) = _
        rw [heq]
        rfl
  | moved h =>
      obtain rfl : h.id = i := Option.some.inj hn
      show p.followUp h step g = _
      obtain ⟨hnone, -⟩ | ⟨w', e, hw', hf, heq⟩ | ⟨w', t, g', hw', hf, heq⟩ :=
        followUp_cases p h step g
      · cases hw.symm.trans hnone
      · obtain rfl := Option.some.inj (hw.symm.trans hw')
        obtain ⟨stmt, hl, he⟩ := Trail.follow_eq_error hf
        rw [heq, deed_unplaced hl he]
        rfl
      · obtain rfl := Option.some.inj (hw.symm.trans hw')
        rw [heq]
        obtain ⟨hl, rfl, rfl⟩ | ⟨stmt, id, b, hl, hb, rfl, rfl⟩ := FlowGraph.follow_eq_ok hf
        · simp only [deed, hl]
          rfl
        · have hlies := (hp.lies _ w hw).stepOn (FlowGraph.block_of_locate hb)
            stmt.site.index h.forks step
          rw [deed_placed hl hb, Trail.arrival_eq, hstate,
            hlies.recount_eq (FlowGraph.sameCoverage_tread g h.id _)]
          rfl

-- ================================================================== two deeds

/-- A state that has lost sight of another is as it was but for its links. -/
theorem parting_eq_relink (gone : StateNo) (t : Trail) (k : StateNo) (v : Walker) :
    parting gone t k v = v.relink (if k ∈ t.children then none else v.trail.parent)
      (if t.parent = some k then v.trail.children.erase gone else v.trail.children) := by
  unfold parting Walker.relink Trail.relink Trail.orphan Trail.disown
  dsimp only
  by_cases hchild : k ∈ t.children <;> by_cases hparent : t.parent = some k <;>
    simp [hchild, hparent]

theorem parting_comm (i j : StateNo) (t u : Trail) (k : StateNo) (x : Walker) :
    parting i t k (parting j u k x) = parting j u k (parting i t k x) := by
  have hchildren : (x.trail.children.erase i).erase j = (x.trail.children.erase j).erase i :=
    IdSet.ext_mem fun a => by simp only [IdSet.mem_erase, and_right_comm]
  simp only [parting_eq_relink, Walker.relink, Trail.relink]
  by_cases ht : t.parent = some k <;> by_cases hu : u.parent = some k <;>
    by_cases ht' : k ∈ t.children <;> by_cases hu' : k ∈ u.children <;>
    simp [ht, hu, ht', hu', hchildren]

/-- Who loses sight of a state goes by the links that it has to them. -/
theorem parting_congr {gone k : StateNo} {t t' : Trail}
    (hparent : t'.parent = some k ↔ t.parent = some k)
    (hchild : k ∈ t'.children ↔ k ∈ t.children) (x : Walker) :
    parting gone t' k x = parting gone t k x := by
  simp only [parting_eq_relink, hparent, hchild]

/-- A state that has lost sight of another still sees all others. -/
theorem Forest.links_parting (hp : p.Forest) (hv : p.tracked.find? i = some v)
    (hw : p.tracked.find? j = some w) (hk : k ≠ i) :
    ((parting i v.trail j w).trail.parent = some k ↔ w.trail.parent = some k) ∧
      (k ∈ (parting i v.trail j w).trail.children ↔ k ∈ w.trail.children) := by
  have hchild : j ∈ v.trail.children → w.trail.parent = some i := by
    intro h
    rw [← parentOf?_of_tracked hw, hp.linked, childrenOf_of_tracked hv]
    exact h
  rw [(kin_parting i v.trail j w).1, (kin_parting i v.trail j w).2]
  constructor
  · split
    next h =>
      rw [hchild h, Option.some.injEq]
      exact iff_of_false (fun h => nomatch h) hk.symm
    next => exact Iff.rfl
  · split
    next => exact IdSet.mem_erase.trans (and_iff_left hk)
    next => exact Iff.rfl

namespace Deed

variable {d e : Deed} {x : Walker}

/-- Another state's deed leaves a state as it was but for its links. -/
theorem sight_eq_relink (d : Deed) (i : StateNo) (v : Walker) (j : StateNo) (w : Walker) :
    ∃ parent children, d.sight i v j w = w.relink parent children := by
  cases d with
  | idle r => exact ⟨w.trail.parent, w.trail.children, rfl⟩
  | goes => exact ⟨_, _, parting_eq_relink i v.trail j w⟩
  | moves h t way => exact ⟨w.trail.parent, w.trail.children, rfl⟩

theorem blocks_relink (d : Deed) (w : Walker) (parent : Option StateNo) (children : IdSet) :
    d.blocks (w.relink parent children) = d.blocks w := by
  cases d <;> rfl

theorem way_relink (d : Deed) (w : Walker) (parent : Option StateNo) (children : IdSet) :
    d.way (w.relink parent children) = d.way w := by
  cases d <;> rfl

theorem find?_tracked {m : IdMap Walker} (hw : m.find? i = some w) (d : Deed) :
    (d.tracked i w m).find? k = if k = i then d.own w else (m.find? k).map (d.sight i w k) := by
  cases d with
  | idle r =>
      by_cases hk : k = i
      · rw [if_pos hk, hk]
        exact hw
      · rw [if_neg hk]
        exact (congrFun Option.map_id _).symm
  | goes =>
      simp only [tracked, IdMap.find?_map, IdMap.find?_erase]
      by_cases hk : k = i
      · rw [if_pos hk, if_pos hk]
        rfl
      · rw [if_neg hk, if_neg hk]
        rfl
  | moves h t way =>
      simp only [tracked, IdMap.find?_insert]
      by_cases hk : k = i
      · rw [if_pos hk, if_pos hk]
        rfl
      · rw [if_neg hk, if_neg hk]
        exact (congrFun Option.map_id _).symm

theorem contains_tracked {m : IdMap Walker} (hw : m.find? i = some w) (d : Deed) :
    (d.tracked i w m).contains k = if k = i then (d.own w).isSome else m.contains k := by
  rw [IdMap.contains, find?_tracked hw]
  split
  · rfl
  · exact Option.isSome_map

theorem sight_comm (d e : Deed) (i j : StateNo) (v w : Walker) (k : StateNo) (x : Walker) :
    d.sight i v k (e.sight j w k x) = e.sight j w k (d.sight i v k x) := by
  cases d <;> cases e <;> first | rfl | exact parting_comm _ _ _ _ _ _

/-- What others see of a deed is the same if another deed has come first. -/
theorem sight_later (hp : p.Forest) (hv : p.tracked.find? i = some v)
    (hw : p.tracked.find? j = some w) (hk : k ≠ i) (d e : Deed) (x : Walker) :
    e.sight j (d.sight i v j w) k x = e.sight j w k x := by
  cases e with
  | idle r => rfl
  | moves h t way => rfl
  | goes =>
      cases d with
      | idle r => rfl
      | moves h t way => rfl
      | goes =>
          obtain ⟨hparent, hchild⟩ := hp.links_parting hv hw hk
          exact parting_congr hparent hchild x

/-- What becomes of a state itself is the same if another deed has come
first, up to what it sees of that one. -/
theorem own_later (d e : Deed) (i j : StateNo) (v w : Walker) :
    e.own (d.sight i v j w) = (e.own w).map (d.sight i (e.sight j w i v) j) := by
  cases e with
  | idle r => rfl
  | goes => rfl
  | moves h t way =>
      cases d with
      | idle r => rfl
      | moves h' t' way' => rfl
      | goes =>
          show some _ = some (parting i v.trail j _)
          rw [parting_eq_relink]
          exact congrArg (fun u : Walker => some (Walker.mk h (t.relink u.trail.parent
            u.trail.children))) (parting_eq_relink i v.trail j w)

theorem tracked_comm (hp : p.Forest) (hij : i ≠ j) (hv : p.tracked.find? i = some v)
    (hw : p.tracked.find? j = some w) (d e : Deed) :
    e.tracked j (d.sight i v j w) (d.tracked i v p.tracked) =
      d.tracked i (e.sight j w i v) (e.tracked j w p.tracked) := by
  have hw' : (d.tracked i v p.tracked).find? j = some (d.sight i v j w) := by
    rw [find?_tracked hv, if_neg hij.symm, hw]
    rfl
  have hv' : (e.tracked j w p.tracked).find? i = some (e.sight j w i v) := by
    rw [find?_tracked hw, if_neg hij, hv]
    rfl
  refine IdMap.ext_find? fun k => ?_
  rw [find?_tracked hw', find?_tracked hv', find?_tracked hv, find?_tracked hw]
  by_cases hi : k = i
  · subst hi
    rw [if_neg hij, if_pos rfl, if_pos rfl, own_later]
  by_cases hj : k = j
  · subst hj
    rw [if_pos rfl, if_neg hi, if_pos rfl, own_later]
  · rw [if_neg hi, if_neg hj, if_neg hi, if_neg hj, Option.map_map, Option.map_map]
    refine Option.map_congr fun u _ => ?_
    simp only [Function.comp_apply]
    rw [sight_later hp hv hw hi, sight_later hp hw hv hj, sight_comm]

theorem chosen_comm (hij : i ≠ j) (o : Option StateNo) (d e : Deed) :
    e.chosen j (d.chosen i o) = d.chosen i (e.chosen j o) := by
  cases d <;> cases e <;> first | rfl | skip
  simp only [chosen]
  by_cases hi : o = some i
  · simp [hi, hij]
  · by_cases hj : o = some j <;> simp [hi, hj]

/-- The states that are noted after a deed. -/
theorem mem_states {d : Deed} {a : StateNo} :
    a ∈ d.states i w p ↔
      match d with
      | .idle _ => a ∈ p.touchedStates
      | .goes => a ≠ i ∧ ((a ∈ kin w.trail ∧ p.tracked.contains a = true) ∨ a ∈ p.touchedStates)
      | .moves _ _ _ => a = i ∨ a ∈ p.touchedStates := by
  cases d with
  | idle r => exact Iff.rfl
  | moves h t way => exact IdSet.mem_insert
  | goes =>
      simp only [states, IdSet.mem_erase, IdSet.mem_insertAll, List.mem_filter]
      rw [and_comm]
      refine and_congr_right fun ha => ?_
      rw [IdMap.contains, IdMap.find?_erase, if_neg ha]
      rfl

theorem states_comm (hp : p.Forest) (hij : i ≠ j) (hv : p.tracked.find? i = some v)
    (hw : p.tracked.find? j = some w) (d e : Deed) :
    e.states j (d.sight i v j w) (d.pool i v p) = d.states i (e.sight j w i v) (e.pool j w p) := by
  have hkin : ∀ {a i j : StateNo} {v w : Walker}, p.tracked.find? i = some v →
      p.tracked.find? j = some w → a ≠ i →
      (a ∈ kin (parting i v.trail j w).trail ↔ a ∈ kin w.trail) := by
    intro a i j v w hv hw ha
    obtain ⟨hparent, hchild⟩ := hp.links_parting hv hw ha
    rw [mem_kin, mem_kin, hparent, hchild]
  refine IdSet.ext_mem fun a => ?_
  rw [mem_states, mem_states]
  show (match e with
    | .idle _ => a ∈ d.states i v p
    | .goes => a ≠ j ∧ ((a ∈ kin (d.sight i v j w).trail ∧
        (d.tracked i v p.tracked).contains a = true) ∨ a ∈ d.states i v p)
    | .moves _ _ _ => a = j ∨ a ∈ d.states i v p) ↔
    (match d with
    | .idle _ => a ∈ e.states j w p
    | .goes => a ≠ i ∧ ((a ∈ kin (e.sight j w i v).trail ∧
        (e.tracked j w p.tracked).contains a = true) ∨ a ∈ e.states j w p)
    | .moves _ _ _ => a = i ∨ a ∈ e.states j w p)
  rw [mem_states, mem_states, contains_tracked hv, contains_tracked hw]
  by_cases hi : a = i
  · subst hi
    have hfound : p.tracked.contains a = true := IdMap.contains_iff.2 ⟨v, hv⟩
    cases d <;> cases e <;> simp [sight, own, hij, hfound]
  by_cases hj : a = j
  · subst hj
    have hfound : p.tracked.contains a = true := IdMap.contains_iff.2 ⟨w, hw⟩
    cases d <;> cases e <;> simp [sight, own, hi, hfound]
  · cases d <;> cases e <;> simp [sight, hi, hj, hkin hv hw hi, hkin hw hv hj, or_left_comm]

theorem pool_comm (hp : p.Forest) (hij : i ≠ j) (hv : p.tracked.find? i = some v)
    (hw : p.tracked.find? j = some w) (d e : Deed) :
    e.pool j (d.sight i v j w) (d.pool i v p) = d.pool i (e.sight j w i v) (e.pool j w p) := by
  have hblocks : (p.touchedBlocks.insertAll (d.blocks v)).insertAll
        (e.blocks (d.sight i v j w)) =
      (p.touchedBlocks.insertAll (e.blocks w)).insertAll (d.blocks (e.sight j w i v)) := by
    obtain ⟨_, _, hd⟩ := d.sight_eq_relink i v j w
    obtain ⟨_, _, he⟩ := e.sight_eq_relink j w i v
    rw [hd, he, blocks_relink, blocks_relink]
    exact IdSet.ext_mem fun a => by simp only [IdSet.mem_insertAll, or_left_comm]
  have htracked := tracked_comm hp hij hv hw d e
  have hchosen := chosen_comm hij p.chosen d e
  have hstates := states_comm hp hij hv hw d e
  show Guided.mk _ _ _ _ _ _ _ _ = Guided.mk _ _ _ _ _ _ _ _
  exact Guided.mk.injEq .. ▸ ⟨rfl, rfl, htracked, hchosen, hstates, hblocks, rfl, rfl⟩

end Deed

-- ================================================================= two notices

theorem tell_untracked (h : p.tracked.find? i = none) {n : Notice} (hn : n.about? = some i)
    (step : Nat) (g : FlowGraph) : p.tell n step g = ⟨.ok (), p, g⟩ := by
  cases n with
  | added hs => cases hn
  | removed h' =>
      obtain rfl := Option.some.inj hn
      simp only [tell, letGo, h]
  | moved h' =>
      obtain rfl := Option.some.inj hn
      simp only [tell, followUp, h]

/-- What the second of two notices about different states comes to: the deed
that it would have told of as the first. -/
theorem tell_later (hp : p.Sound g) (hij : i ≠ j) (hv : p.tracked.find? i = some v)
    (hw : p.tracked.find? j = some w) {n m : Notice} (hn : n.about? = some i)
    (hm : m.about? = some j) (step : Nat) :
    (p.tell n step g).pool.tell m step (p.tell n step g).graph =
      ⟨(deed m step w g).result,
        (deed m step w g).pool j ((deed n step v g).sight i v j w) ((deed n step v g).pool i v p),
        (g.tread i ((deed n step v g).way v)).tread j ((deed m step w g).way w)⟩ := by
  have hsound := hp.tell n step
  rw [tell_eq hp hv hn] at hsound ⊢
  generalize deed n step v g = d at hsound ⊢
  have hw' : (d.pool i v p).tracked.find? j = some (d.sight i v j w) := by
    show (d.tracked i v p.tracked).find? j = _
    rw [Deed.find?_tracked hv, if_neg hij.symm, hw]
    rfl
  obtain ⟨parent, children, hrelink⟩ := d.sight_eq_relink i v j w
  have hdeed : deed m step (d.sight i v j w) (g.tread i (d.way v)) = deed m step w g := by
    rw [hrelink]
    exact deed_relink (hp.lies j w hw) (FlowGraph.alike_tread g i _)
      (FlowGraph.sameCoverage_tread g i _) m step parent children
  refine (tell_eq hsound hw' hm step).trans ?_
  rw [hdeed]
  have hway : (deed m step w g).way (d.sight i v j w) = (deed m step w g).way w := by
    rw [hrelink, Deed.way_relink]
  rw [hway]

/-- Two notices about different states come to the same in either order. -/
theorem tell_comm (hp : p.Sound g) (hf : p.Forest) (hij : i ≠ j) {n m : Notice}
    (hn : n.about? = some i) (hm : m.about? = some j) (step : Nat) :
    ((p.tell n step g).pool.tell m step (p.tell n step g).graph).result =
        (p.tell m step g).result ∧
      ((p.tell n step g).pool.tell m step (p.tell n step g).graph).pool =
        ((p.tell m step g).pool.tell n step (p.tell m step g).graph).pool ∧
      ((p.tell n step g).pool.tell m step (p.tell n step g).graph).graph =
        ((p.tell m step g).pool.tell n step (p.tell m step g).graph).graph := by
  cases hv : p.tracked.find? i with
  | none =>
      have hv' : (p.tell m step g).pool.tracked.find? i = none := by
        cases hw : p.tracked.find? j with
        | none => rw [tell_untracked hw hm, hv]
        | some w =>
            rw [tell_eq hp hw hm]
            show ((deed m step w g).tracked j w p.tracked).find? i = none
            rw [Deed.find?_tracked hw, if_neg hij, hv]
            rfl
      rw [tell_untracked hv hn, tell_untracked hv' hn]
      exact ⟨rfl, rfl, rfl⟩
  | some v =>
      cases hw : p.tracked.find? j with
      | none =>
          have hw' : (p.tell n step g).pool.tracked.find? j = none := by
            rw [tell_eq hp hv hn]
            show ((deed n step v g).tracked i v p.tracked).find? j = none
            rw [Deed.find?_tracked hv, if_neg hij.symm, hw]
            rfl
          rw [tell_untracked hw hm, tell_untracked hw' hm]
          exact ⟨rfl, rfl, rfl⟩
      | some w =>
          rw [tell_later hp hij hv hw hn hm, tell_later hp hij.symm hw hv hm hn, tell_eq hp hw hm]
          exact ⟨rfl, Deed.pool_comm hf hij hv hw _ _, FlowGraph.tread_comm hij g _ _⟩

/-- In every scene that can arise, two notices about different states come
to the same, each for itself and the scene after both, in either order. -/
theorem notices_commute (a : Adviser) (policy : Policy) (as : List Act) (step : Nat)
    {n m : Notice} (hn : n.about? = some i) (hm : m.about? = some j) (hij : i ≠ j) :
    let w := (opening a policy).run as
    ((w.act (.tell n step)).tell m step).result = (w.tell m step).result ∧
      ((w.act (.tell m step)).tell n step).result = (w.tell n step).result ∧
      (w.act (.tell n step)).act (.tell m step) = (w.act (.tell m step)).act (.tell n step) := by
  intro w
  have hsound := sound_opening a policy as
  have hforest := (forest_run a policy as).1
  obtain ⟨hresult, hpool, hgraph⟩ := tell_comm hsound hforest hij hn hm step
  refine ⟨hresult, (tell_comm hsound hforest hij.symm hm hn step).1, ?_⟩
  show Scene.mk _ _ = Scene.mk _ _
  exact Scene.mk.injEq .. ▸ ⟨hgraph, hpool⟩

/-- A parent and its child stand in one block. -/
def household : List Act :=
  [.graph (.register (looping 0)), .tell (.added [standing 0 0 0]) 0, .peek,
    .tell (.added [standing 1 0 0]) 1, .tell (.moved (standing 0 0 0)) 2,
    .tell (.moved (standing 1 0 0)) 2]

/-- The parent goes before its child moves on, or after that. -/
theorem notices_commute_kin :
    let w := (opening (.oracle (.live (fun _ => .ok 0) [])) .auto).run household
    w.pool.parentOf? 1 = some 0 ∧ (w.pool.trail? 0).bind (·.block) = some 0 ∧
      (w.pool.trail? 1).bind (·.block) = some 0 ∧
      (w.act (.tell (.removed (standing 0 0 0)) 3)).act (.tell (.moved (standing 1 0 1)) 3) =
        (w.act (.tell (.moved (standing 1 0 1)) 3)).act (.tell (.removed (standing 0 0 0)) 3) :=
  ⟨by decide, by decide, by decide, (notices_commute _ .auto household 3 rfl rfl (by decide)).2.2⟩

end Guided

end SymbolicSearch
