/-
Families of states. A trail names the parent that its state was forked
off and the children forked off it, so every link is kept at both ends.
The two ends never come apart, whichever states come and go and come
again, and nobody descends from itself (`forest_run`).

# Links come and go in whole

A state comes in with no children, so the one link that it brings makes
it a leaf (`begets_track`); a state that goes takes all its links with it
(`begets_letGo`). Nothing else touches a link. Each of the two is said
once for the child's end and once for the parent's, in the same words.
-/
import Mathlib.Logic.Relation
import SymbolicSearch.Proofs.Guided.Notes

namespace SymbolicSearch.Guided

variable {p p' : Guided} {g : FlowGraph} {k c : StateNo}

-- =============================================================== the two ends

/-- The parent of a state, as the state's own trail names it. -/
def parentOf? (p : Guided) (c : StateNo) : Option StateNo := (p.trail? c).bind (·.parent)

/-- The children of a state, as the state's own trail lists them. -/
def childrenOf (p : Guided) (k : StateNo) : IdSet := ((p.trail? k).map (·.children)).getD ∅

/-- One state is the parent of another. -/
def Begets (p : Guided) (k c : StateNo) : Prop := p.parentOf? c = some k

theorem parentOf?_of_tracked {w : Walker} (hw : p.tracked.find? c = some w) :
    p.parentOf? c = w.trail.parent := by
  rw [parentOf?, trail?, hw]
  rfl

theorem childrenOf_of_tracked {w : Walker} (hw : p.tracked.find? k = some w) :
    p.childrenOf k = w.trail.children := by
  rw [childrenOf, trail?, hw]
  rfl

theorem parentOf?_of_not_tracked (hw : p.tracked.find? c = none) : p.parentOf? c = none := by
  rw [parentOf?, trail?, hw]
  rfl

theorem childrenOf_of_not_tracked (hw : p.tracked.find? k = none) : p.childrenOf k = ∅ := by
  rw [childrenOf, trail?, hw]
  rfl

theorem tracked_of_parentOf? (h : p.parentOf? c = some k) : p.tracked.contains c = true := by
  by_contra hnot
  rw [Bool.not_eq_true, IdMap.contains_eq_false] at hnot
  rw [parentOf?_of_not_tracked hnot] at h
  cases h

theorem tracked_of_mem_childrenOf (h : c ∈ p.childrenOf k) : p.tracked.contains k = true := by
  by_contra hnot
  rw [Bool.not_eq_true, IdMap.contains_eq_false] at hnot
  rw [childrenOf_of_not_tracked hnot] at h
  exact IdSet.not_mem_empty c h

/-- Whatever is done to the trails of tracked states without touching
their links leaves both ends as they are. -/
theorem kin_map {f : Walker → Walker} (hfind : p'.tracked.find? c = (p.tracked.find? c).map f)
    (hf : ∀ w, (f w).trail.parent = w.trail.parent ∧ (f w).trail.children = w.trail.children) :
    p'.parentOf? c = p.parentOf? c ∧ p'.childrenOf c = p.childrenOf c := by
  simp only [parentOf?, childrenOf, trail?, hfind, Option.map_map, Option.bind_map]
  constructor
  · exact Option.bind_congr fun w _ => (hf w).1
  · exact congrArg (·.getD ∅) (Option.map_congr fun w _ => (hf w).2)

-- ================================================================== forests

/-- The links agree at both ends, what the pool remembers is tracked, and
no state is its own ancestor. -/
structure Forest (p : Guided) : Prop where
  linked : ∀ k c, p.parentOf? c = some k ↔ c ∈ p.childrenOf k
  chosen : ∀ k, p.chosen = some k → p.tracked.contains k = true
  touched : ∀ k ∈ p.touchedStates, p.tracked.contains k = true
  acyclic : ∀ k, ¬ Relation.TransGen p.Begets k k

theorem forest_new (a : Adviser) (policy : Policy) : (new a policy).Forest := by
  have hnone : ∀ k c, ¬ (new a policy).Begets k c := by
    intro k c h
    cases h
  refine ⟨fun k c => iff_of_false (hnone k c) (IdSet.not_mem_empty c), fun k h => ?_,
    fun k h => ?_, fun k h => ?_⟩
  · cases h
  · cases h
  · obtain ⟨m, hm, -⟩ := Relation.TransGen.head'_iff.1 h
    exact hnone k m hm

/-- Both ends of every link are tracked. -/
theorem Forest.tracked (hp : p.Forest) (h : p.parentOf? c = some k) :
    p.tracked.contains k = true ∧ p.tracked.contains c = true :=
  ⟨tracked_of_mem_childrenOf ((hp.linked k c).1 h), tracked_of_parentOf? h⟩

/-- Where the links are those of a forest and the pool remembers only what
is tracked, there is a forest again. -/
theorem Forest.of_kin (hp : p.Forest)
    (hkin : ∀ c, p'.parentOf? c = p.parentOf? c ∧ p'.childrenOf c = p.childrenOf c)
    (hchosen : ∀ k, p'.chosen = some k → p'.tracked.contains k = true)
    (htouched : ∀ k ∈ p'.touchedStates, p'.tracked.contains k = true) : p'.Forest := by
  refine ⟨fun k c => ?_, hchosen, htouched, fun k h => hp.acyclic k ?_⟩
  · rw [(hkin c).1, (hkin k).2]
    exact hp.linked k c
  · exact Relation.TransGen.mono (fun m c hm => (hkin c).1.symm.trans hm) k k h

-- ================================================================= coming in

theorem contains_track {step : Nat} {parent : Option (StateNo × Trail)} {h : Handle} {id : StateNo} :
    (track step parent p h).tracked.contains id = true ↔
      id = h.id ∨ p.tracked.contains id = true := by
  cases ht : p.tracked.contains h.id with
  | true =>
      rw [track_of_tracked ht]
      refine (or_iff_right_of_imp fun hid => ?_).symm
      rw [hid, ht]
  | false =>
      rw [IdMap.contains, find?_track ht]
      by_cases hid : id = h.id
      · simp [hid]
      · simp [hid, IdMap.contains]

/-- A parent that is handed over for new states: it is tracked, and its
trail is its own. -/
def Adopts (p : Guided) (parent : Option (StateNo × Trail)) : Prop :=
  ∀ k t, parent = some (k, t) → p.tracked.contains k = true ∧ t.state = k

theorem Adopts.tracked {parent : Option (StateNo × Trail)} (hpar : p.Adopts parent)
    (hk : parent.map Prod.fst = some k) : p.tracked.contains k = true := by
  obtain ⟨q, rfl, rfl⟩ := Option.map_eq_some_iff.1 hk
  exact (hpar q.1 q.2 rfl).1

theorem parentOf?_track {step : Nat} {parent : Option (StateNo × Trail)} {h : Handle}
    (ht : p.tracked.contains h.id = false) (hpar : p.Adopts parent) :
    (track step parent p h).parentOf? c =
      if c = h.id then parent.map Prod.fst else p.parentOf? c := by
  have hfind : (track step parent p h).tracked.find? c = _ := find?_track ht c
  by_cases hc : c = h.id
  · rw [if_pos hc] at hfind
    rw [if_pos hc, parentOf?_of_tracked hfind]
    cases parent with
    | none => rfl
    | some q => exact congrArg some (hpar q.1 q.2 rfl).2
  · rw [if_neg hc] at hfind
    rw [if_neg hc, parentOf?, trail?, hfind, Option.map_map, parentOf?, trail?]
    cases p.tracked.find? c with
    | none => rfl
    | some w =>
        show (adopting parent h.id c w).trail.parent = w.trail.parent
        unfold adopting
        split <;> rfl

theorem mem_childrenOf_track {step : Nat} {parent : Option (StateNo × Trail)} {h : Handle}
    (ht : p.tracked.contains h.id = false) (hpar : p.Adopts parent) :
    c ∈ (track step parent p h).childrenOf k ↔
      c ∈ p.childrenOf k ∨ (c = h.id ∧ parent.map Prod.fst = some k) := by
  have hnew : p.tracked.find? h.id = none := IdMap.contains_eq_false.1 ht
  have hfind : (track step parent p h).tracked.find? k = _ := find?_track ht k
  by_cases hk : k = h.id
  · rw [if_pos hk] at hfind
    rw [childrenOf_of_tracked hfind, hk, childrenOf_of_not_tracked hnew]
    have hempty : (offspring step parent h).children = ∅ := by
      cases parent <;> rfl
    rw [hempty]
    refine iff_of_false (IdSet.not_mem_empty c) (not_or.2 ⟨IdSet.not_mem_empty c, fun hc => ?_⟩)
    -- a parent is tracked, so the new state is not its own
    rw [hpar.tracked hc.2] at ht
    cases ht
  · rw [if_neg hk] at hfind
    cases hw : p.tracked.find? k with
    | none =>
        rw [hw] at hfind
        rw [childrenOf_of_not_tracked hfind, childrenOf_of_not_tracked hw]
        refine iff_of_false (IdSet.not_mem_empty c)
          (not_or.2 ⟨IdSet.not_mem_empty c, fun hc => ?_⟩)
        obtain ⟨w, hw'⟩ := IdMap.contains_iff.1 (hpar.tracked hc.2)
        rw [hw] at hw'
        cases hw'
    | some w =>
        rw [hw] at hfind
        rw [childrenOf_of_tracked hfind, childrenOf_of_tracked hw]
        unfold adopting
        by_cases hk' : parent.map Prod.fst = some k
        · simp [hk', Trail.adopt, or_comm]
        · simp [hk']

/-- A new state brings one link, the one to its parent. -/
theorem begets_track {step : Nat} {parent : Option (StateNo × Trail)} {h : Handle}
    (ht : p.tracked.contains h.id = false) (hpar : p.Adopts parent) :
    (track step parent p h).parentOf? c = some k ↔
      p.parentOf? c = some k ∨ (c = h.id ∧ parent.map Prod.fst = some k) := by
  rw [parentOf?_track ht hpar]
  by_cases hc : c = h.id
  · rw [if_pos hc, hc, parentOf?_of_not_tracked (IdMap.contains_eq_false.1 ht)]
    simp
  · simp [hc]

/-- Links that all lead to one leaf close no circle. -/
theorem acyclic_of_leaf {r r' : StateNo → StateNo → Prop} {leaf : StateNo}
    (hr : ∀ k c, r' k c → r k c ∨ c = leaf) (hleaf : ∀ c, ¬ r' leaf c)
    (hac : ∀ k, ¬ Relation.TransGen r k k) (k : StateNo) : ¬ Relation.TransGen r' k k := by
  have hold : ∀ {a b : StateNo}, Relation.TransGen r' a b → b ≠ leaf → Relation.TransGen r a b := by
    intro a b hab
    induction hab with
    | single hstep =>
        intro hb
        exact .single ((hr _ _ hstep).resolve_right hb)
    | @tail m b _ hstep ih =>
        intro hb
        have hm : m ≠ leaf := by
          intro hm
          subst hm
          exact hleaf b hstep
        exact (ih hm).tail ((hr _ _ hstep).resolve_right hb)
  intro h
  by_cases hk : k = leaf
  · subst hk
    obtain ⟨m, hm, -⟩ := Relation.TransGen.head'_iff.1 h
    exact hleaf m hm
  · exact hac k (hold h hk)

theorem Forest.track (hp : p.Forest) {parent : Option (StateNo × Trail)} (hpar : p.Adopts parent)
    (step : Nat) (h : Handle) : (track step parent p h).Forest := by
  cases ht : p.tracked.contains h.id with
  | true =>
      rw [track_of_tracked ht]
      exact hp
  | false =>
      have hlink : ∀ k c, (Guided.track step parent p h).Begets k c → p.Begets k c ∨ c = h.id :=
        fun k c hkc => ((begets_track ht hpar).1 hkc).imp_right And.left
      have hleaf : ∀ c, ¬ (Guided.track step parent p h).Begets h.id c := by
        intro c hc
        have htracked : p.tracked.contains h.id = true := by
          rcases (begets_track ht hpar).1 hc with hold | ⟨-, hself⟩
          · exact (hp.tracked hold).1
          · exact hpar.tracked hself
        rw [ht] at htracked
        cases htracked
      refine ⟨fun k c => ?_, fun k hk => ?_, fun k hk => ?_, acyclic_of_leaf hlink hleaf hp.acyclic⟩
      · rw [begets_track ht hpar, mem_childrenOf_track ht hpar, hp.linked k c]
      · rw [track_eq] at hk
        exact contains_track.2 (Or.inr (hp.chosen k hk))
      · rw [touchedStates_track ht, IdSet.mem_insert] at hk
        exact contains_track.2 (hk.imp_right (hp.touched k))

theorem Adopts.track {parent : Option (StateNo × Trail)} (hpar : p.Adopts parent) (step : Nat)
    (h : Handle) : (Guided.track step parent p h).Adopts parent := by
  intro k t hk
  exact ⟨contains_track.2 (Or.inr (hpar k t hk).1), (hpar k t hk).2⟩

/-- Taking in a batch keeps a forest a forest, and loses no state. -/
theorem Forest.foldl_track {parent : Option (StateNo × Trail)} (step : Nat) (hs : List Handle)
    {p : Guided} (hp : p.Forest) (hpar : p.Adopts parent) :
    (hs.foldl (Guided.track step parent) p).Forest ∧
      ∀ k, p.tracked.contains k = true →
        (hs.foldl (Guided.track step parent) p).tracked.contains k = true := by
  induction hs generalizing p with
  | nil => exact ⟨hp, fun _ hk => hk⟩
  | cons h rest ih =>
      obtain ⟨hforest, hkept⟩ := ih (hp.track hpar step h) (hpar.track step h)
      exact ⟨hforest, fun k hk => hkept k (contains_track.2 (Or.inr hk))⟩

theorem contains_foldl_track {step : Nat} {parent : Option (StateNo × Trail)} {hs : List Handle}
    {id : StateNo} :
    (hs.foldl (track step parent) p).tracked.contains id = true ↔
      id ∈ hs.map Handle.id ∨ p.tracked.contains id = true := by
  induction hs generalizing p with
  | nil => exact (or_iff_right List.not_mem_nil).symm
  | cons h rest ih =>
      rw [List.foldl_cons, ih, contains_track, List.map_cons, List.mem_cons]
      tauto

/-- The parent gets those for its children that are new. -/
theorem mem_childrenOf_foldl_track {step : Nat} {parent : Option (StateNo × Trail)}
    {hs : List Handle} (hpar : p.Adopts parent) :
    c ∈ (hs.foldl (Guided.track step parent) p).childrenOf k ↔
      c ∈ p.childrenOf k ∨
        (c ∈ hs.map Handle.id ∧ p.tracked.contains c = false ∧ parent.map Prod.fst = some k) := by
  induction hs generalizing p with
  | nil => exact (or_iff_left fun h => List.not_mem_nil h.1).symm
  | cons h rest ih =>
      rw [List.foldl_cons, ih (hpar.track step h), List.map_cons, List.mem_cons]
      cases ht : p.tracked.contains h.id with
      | true =>
          rw [track_of_tracked ht]
          have hne : p.tracked.contains c = false → c ≠ h.id := by
            rintro hc rfl
            cases ht.symm.trans hc
          tauto
      | false =>
          rw [mem_childrenOf_track ht hpar, ← Bool.not_eq_true, contains_track, not_or,
            Bool.not_eq_true]
          by_cases hc : c = h.id
          · simp [hc, ht]
          · simp [hc]

theorem adopts_parent? (hs : p.Sound g) : p.Adopts p.parent? := by
  intro k t hk
  obtain ⟨w, hw, rfl⟩ := parent?_eq_some hk
  exact ⟨IdMap.contains_iff.2 ⟨w, hw⟩, (hs.numbered k w hw).2⟩

theorem tracked_of_mem_elders (hs : p.Sound g) {batch : List Handle} (hk : k ∈ p.elders batch) :
    p.tracked.contains k = true := by
  unfold elders at hk
  split at hk
  · obtain ⟨q, hq, rfl⟩ := Option.map_eq_some_iff.1 (Option.mem_toList.1 hk)
    exact (adopts_parent? hs q.1 q.2 hq).1
  · cases hk

theorem Forest.takeIn (hp : p.Forest) (hs : p.Sound g) (batch : List Handle) (step : Nat) :
    (p.takeIn batch step g).Forest := by
  obtain ⟨hforest, hkept⟩ := Forest.foldl_track step batch hp (adopts_parent? hs)
  rw [takeIn_eq]
  refine hforest.of_kin (fun c => ⟨rfl, rfl⟩) (fun k hk => hkept k (hp.chosen k hk)) fun k hk => ?_
  rcases IdSet.mem_insertAll.1 hk with hk | hk
  · exact hkept k (tracked_of_mem_elders hs hk)
  · exact hforest.touched k hk

-- =================================================================== going

theorem contains_letGo {h : Handle} {w : Walker} (ht : p.tracked.find? h.id = some w)
    {id : StateNo} :
    (p.letGo h g).1.tracked.contains id = true ↔ id ≠ h.id ∧ p.tracked.contains id = true := by
  rw [IdMap.contains, find?_letGo ht]
  by_cases hid : id = h.id
  · simp [hid]
  · simp [hid, IdMap.contains]

/-- The links of a state that has lost sight of another: the link to its
parent is cut if the other was its parent, and the other is no child. -/
theorem kin_parting (gone : StateNo) (t : Trail) (id : StateNo) (w : Walker) :
    (parting gone t id w).trail.parent = (if id ∈ t.children then none else w.trail.parent) ∧
      (parting gone t id w).trail.children =
        if t.parent = some id then w.trail.children.erase gone else w.trail.children := by
  unfold parting
  dsimp only
  by_cases hchild : id ∈ t.children <;> by_cases hparent : t.parent = some id <;>
    simp [hchild, hparent, Trail.orphan, Trail.disown]

/-- A state that goes takes its links with it, as its children and its
parent's other children see it. -/
theorem begets_letGo (hp : p.Forest) {h : Handle} {w : Walker}
    (ht : p.tracked.find? h.id = some w) :
    (p.letGo h g).1.parentOf? c = some k ↔ p.parentOf? c = some k ∧ k ≠ h.id ∧ c ≠ h.id := by
  have hfind := find?_letGo (g := g) ht c
  by_cases hc : c = h.id
  · rw [if_pos hc] at hfind
    rw [parentOf?_of_not_tracked hfind]
    simp [hc]
  · rw [if_neg hc] at hfind
    cases hw : p.tracked.find? c with
    | none =>
        rw [hw] at hfind
        rw [parentOf?_of_not_tracked hfind, parentOf?_of_not_tracked hw]
        simp
    | some v =>
        rw [hw] at hfind
        -- a child of the state that goes is one that names it as its parent
        have hchild : c ∈ w.trail.children ↔ p.parentOf? c = some h.id := by
          rw [hp.linked, childrenOf_of_tracked ht]
        rw [parentOf?_of_tracked hfind, (kin_parting h.id w.trail c v).1,
          ← parentOf?_of_tracked hw]
        by_cases hmem : c ∈ w.trail.children
        · rw [if_pos hmem, hchild.1 hmem]
          simp [hc, eq_comm]
        · rw [if_neg hmem]
          refine ⟨fun hk => ⟨hk, fun hkid => hmem (hchild.2 (hkid ▸ hk)), hc⟩, And.left⟩

/-- A state that goes takes its links with it, as its parent sees it. -/
theorem mem_childrenOf_letGo (hp : p.Forest) {h : Handle} {w : Walker}
    (ht : p.tracked.find? h.id = some w) :
    c ∈ (p.letGo h g).1.childrenOf k ↔ c ∈ p.childrenOf k ∧ k ≠ h.id ∧ c ≠ h.id := by
  have hfind := find?_letGo (g := g) ht k
  by_cases hk : k = h.id
  · rw [if_pos hk] at hfind
    rw [childrenOf_of_not_tracked hfind]
    simp [hk]
  · rw [if_neg hk] at hfind
    cases hw : p.tracked.find? k with
    | none =>
        rw [hw] at hfind
        rw [childrenOf_of_not_tracked hfind, childrenOf_of_not_tracked hw]
        simp
    | some v =>
        rw [hw] at hfind
        -- the state that goes is a child of the one that it names as its parent
        have hparent : w.trail.parent = some k ↔ h.id ∈ p.childrenOf k := by
          rw [← hp.linked, parentOf?_of_tracked ht]
        rw [childrenOf_of_tracked hfind, (kin_parting h.id w.trail k v).2,
          ← childrenOf_of_tracked hw]
        by_cases hpar : w.trail.parent = some k
        · simp [hpar, hk]
        · rw [if_neg hpar]
          refine ⟨fun hmem => ⟨hmem, hk, fun hc => hpar (hparent.2 (hc ▸ hmem))⟩, And.left⟩

theorem Forest.letGo (hp : p.Forest) (h : Handle) : (p.letGo h g).1.Forest := by
  obtain ⟨-, heq⟩ | ⟨w, ht, heq⟩ := letGo_cases p h g
  · rw [heq]
    exact hp
  · refine ⟨fun k c => ?_, fun k hk => ?_, fun k hk => ?_, fun k hk => ?_⟩
    · rw [begets_letGo hp ht, mem_childrenOf_letGo hp ht, hp.linked k c]
    · rw [heq] at hk
      simp only at hk
      split at hk
      next => cases hk
      next hne =>
        refine (contains_letGo ht).2 ⟨fun hid => hne ?_, hp.chosen k hk⟩
        rw [hk, hid]
    · rw [heq] at hk
      obtain ⟨hk, hid⟩ := IdSet.mem_erase.1 hk
      refine (contains_letGo ht).2 ⟨hid, ?_⟩
      rcases IdSet.mem_insertAll.1 hk with hk | hk
      · have hrest := (List.mem_filter.1 hk).2
        rw [IdMap.contains, IdMap.find?_erase, if_neg hid] at hrest
        exact hrest
      · exact hp.touched k hk
    · apply hp.acyclic k
      exact Relation.TransGen.mono (fun m c hm => ((begets_letGo hp ht).1 hm).1) k k hk

-- ========================================================= moving and asking

theorem kin_follow {t t' : Trail} {g g' : FlowGraph} {h : Handle} {step : Nat}
    (hf : t.follow h step g = .ok (t', g')) :
    t'.parent = t.parent ∧ t'.children = t.children := by
  obtain ⟨-, rfl, -⟩ | ⟨stmt, id, b, -, -, -, rfl⟩ := FlowGraph.follow_eq_ok hf <;> exact ⟨rfl, rfl⟩

/-- A state that moves keeps its links. -/
theorem kin_followUp (p : Guided) (h : Handle) (step : Nat) (g : FlowGraph) (c : StateNo) :
    (p.followUp h step g).pool.parentOf? c = p.parentOf? c ∧
      (p.followUp h step g).pool.childrenOf c = p.childrenOf c := by
  obtain ⟨-, heq⟩ | ⟨w, e, -, -, heq⟩ | ⟨w, t, g', ht, hf, heq⟩ := followUp_cases p h step g
  · rw [heq]
    exact ⟨rfl, rfl⟩
  · rw [heq]
    exact ⟨rfl, rfl⟩
  · rw [heq]
    by_cases hc : c = h.id
    · subst hc
      have hfind : (p.tracked.insert h.id ⟨h, t⟩).find? h.id = some ⟨h, t⟩ := by
        rw [IdMap.find?_insert, if_pos rfl]
      rw [parentOf?_of_tracked ht, childrenOf_of_tracked ht, parentOf?_of_tracked hfind,
        childrenOf_of_tracked hfind]
      exact kin_follow hf
    · apply kin_map (f := id)
      · rw [IdMap.find?_insert, if_neg hc, Option.map_id, id]
      · intro v
        exact ⟨rfl, rfl⟩

theorem Forest.followUp (hp : p.Forest) (h : Handle) (step : Nat) :
    (p.followUp h step g).pool.Forest := by
  have hkin := kin_followUp p h step g
  obtain ⟨-, heq⟩ | ⟨w, e, -, -, heq⟩ | ⟨w, t, g', ht, hf, heq⟩ := followUp_cases p h step g
  · rw [heq]
    exact hp
  · rw [heq]
    exact hp
  · rw [heq] at hkin ⊢
    have hkept : ∀ k, p.tracked.contains k = true →
        (p.tracked.insert h.id ⟨h, t⟩).contains k = true := by
      intro k hk
      rw [IdMap.contains, IdMap.find?_insert]
      by_cases hid : k = h.id
      · simp [hid]
      · rw [if_neg hid]
        exact hk
    refine hp.of_kin hkin (fun k hk => hkept k (hp.chosen k hk)) fun k hk => ?_
    rcases IdSet.mem_insert.1 hk with hk | hk
    · rw [IdMap.contains, IdMap.find?_insert, if_pos hk]
      rfl
    · exact hkept k (hp.touched k hk)

theorem contains_consult (p : Guided) (g : FlowGraph) (id : StateNo) :
    (p.consult g).2.tracked.contains id = p.tracked.contains id := by
  rw [IdMap.contains, find?_consult, Option.isSome_map]
  rfl

theorem Forest.consult (hp : p.Forest) : (p.consult g).2.Forest := by
  refine hp.of_kin (fun c => kin_map (find?_consult p g c) fun _ => ⟨rfl, rfl⟩) (fun k hk => ?_)
    fun k hk => ?_
  · rw [contains_consult]
    apply hp.chosen
    cases h : (p.consult g).1.answer with
    | ok id => rw [consult_of_ok h] at hk; exact hk
    | error e => rw [consult_of_error h] at hk; exact hk
  · rw [contains_consult]
    cases h : (p.consult g).1.answer with
    | ok id =>
        rw [consult_of_ok h] at hk
        exact absurd hk (IdSet.not_mem_empty k)
    | error e =>
        rw [consult_of_error h] at hk
        exact hp.touched k hk

theorem Forest.choose (hp : p.Forest) {id : StateNo} (hid : p.tracked.contains id = true) :
    ({ p with chosen := some id } : Guided).Forest := by
  refine hp.of_kin (fun c => ⟨rfl, rfl⟩) (fun k hk => ?_) hp.touched
  obtain rfl := Option.some.inj hk
  exact hid

theorem Forest.peek (hp : p.Forest) : (peek g p).pool.Forest := by
  obtain ⟨-, h⟩ | ⟨id, w, hone, h⟩ | ⟨-, e, -, h⟩ | ⟨-, id, -, -, h⟩ | ⟨-, id, w, -, hw, h⟩ :=
    peek_cases g p
  · rw [h]
    exact hp
  · rw [h]
    apply hp.choose
    refine IdMap.contains_iff.2 ⟨w, IdMap.find?_eq_some.2 ?_⟩
    rw [hone]
    exact List.mem_singleton_self _
  · rw [h]
    exact hp.consult
  · rw [h]
    exact hp.consult
  · rw [h]
    exact hp.consult.choose (IdMap.contains_iff.2 ⟨w, hw⟩)

-- ==================================================================== a run

theorem Forest.act {w : Scene Guided} (hp : w.pool.Forest) (hw : w.pool.Sound w.graph) (a : Act) :
    (w.act a).pool.Forest := by
  cases a with
  | peek => exact hp.peek
  | tell n step =>
      cases n with
      | added hs => exact hp.takeIn hw hs step
      | removed h => exact hp.letGo h
      | moved h => exact hp.followUp h step
  | graph a => exact hp

/-- However a pool is asked and told and whatever happens to its graph, the
links between its states agree at both ends and form a forest, both ends
of every link and all states that the pool remembers are tracked, and all
blocks that it has noted are blocks of the graph. -/
theorem forest_run (a : Adviser) (policy : Policy) (as : List Act) :
    ((opening a policy).run as).pool.Forest ∧
      (∀ k c, ((opening a policy).run as).pool.parentOf? c = some k →
        ((opening a policy).run as).pool.tracked.contains k = true ∧
          ((opening a policy).run as).pool.tracked.contains c = true) ∧
      ∀ b ∈ ((opening a policy).run as).pool.touchedBlocks,
        b < ((opening a policy).run as).graph.size := by
  have hrun : ((opening a policy).run as).pool.Sound ((opening a policy).run as).graph ∧
      ((opening a policy).run as).pool.Forest := by
    apply Scene.run_induction (P := fun w : Scene Guided => w.pool.Sound w.graph ∧ w.pool.Forest)
    · intro w x hw
      exact ⟨hw.1.act x, hw.2.act hw.1 x⟩
    · exact ⟨sound_new a policy .empty, forest_new a policy⟩
  obtain ⟨hsound, hforest⟩ := hrun
  exact ⟨hforest, fun k c => hforest.tracked, hsound.blocks⟩

end SymbolicSearch.Guided
