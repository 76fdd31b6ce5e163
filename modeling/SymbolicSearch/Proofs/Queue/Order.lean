/-
Whose turn it is. What a queue has been told is cut into notices of one
state each, so that the states of a batch come in one after the other, and
the place of a notice in that list is its time. A notice counts for a state
if it lets the state in, and where states take turns also if it moves the
state. The time of the last notice that counts for a state is its stamp.

# The law of a queue

A queue keeps the live states in the order of their stamps (`InTurn`), which
one notice keeps up in two ways: those that stay keep their stamps, and the
one that the notice counts for takes the latest stamp and the last place
(`InTurn.keep`, `InTurn.join`). Breadth then serves the oldest stamp and
depth the newest.
-/
import Mathlib.Order.Bounds.Basic
import SymbolicSearch.Proofs.Queue

namespace SymbolicSearch

-- ============================================================ the clock

/-- A notice, one state at a time. -/
def Notice.singles : Notice → List Notice
  | .added hs => hs.map fun h => .added [h]
  | n => [n]

/-- Some notices, one state at a time. -/
def singly (ns : List Notice) : List Notice := ns.flatMap Notice.singles

/-- After some notices, one more lets a state in that is not live, or moves
a state where states take turns. -/
def Notice.Counts (order : Order) (ns : List Notice) (id : StateNo) : Notice → Prop
  | .added hs => ¬ Live ns id ∧ ∃ h ∈ hs, h.id = id
  | .removed _ => False
  | .moved h => order = .breadth ∧ h.id = id

/-- The notice at some time counts for a state. -/
def CountsAt (order : Order) (ns : List Notice) (id : StateNo) (k : Nat) : Prop :=
  ∃ n, ns[k]? = some n ∧ n.Counts order (ns.take k) id

/-- The time of the last notice that counts for a state. -/
def Stamp (order : Order) (ns : List Notice) (id : StateNo) (k : Nat) : Prop :=
  IsGreatest {k | CountsAt order ns id k} k

/-- A stamp that is served before another. -/
def Order.Ahead : Order → Nat → Nat → Prop
  | .breadth, k, l => k < l
  | .depth, k, l => l < k

/-- The state that an order serves after some notices: one that is live,
under the handle given last, with a stamp ahead of all others. -/
structure Order.Serves (order : Order) (ns : List Notice) (h : Handle) : Prop where
  handle : roster ns h.id = some h
  first : ∃ k, Stamp order (singly ns) h.id k ∧
    ∀ id, Live ns id → id ≠ h.id → ∃ l, Stamp order (singly ns) id l ∧ order.Ahead k l

variable {order : Order} {ns : List Notice} {n : Notice} {id : StateNo} {k l : Nat}

theorem singly_concat (ns : List Notice) (n : Notice) :
    singly (ns ++ [n]) = singly ns ++ n.singles := by
  rw [singly, List.flatMap_append, List.flatMap_singleton]
  rfl

/-- What holds after every list of notices of one state each holds after
every list of notices, taken one state at a time. -/
theorem singly_induction {P : List Notice → Prop} (nil : P [])
    (added : ∀ ns h, P ns → P (ns ++ [.added [h]]))
    (removed : ∀ ns h, P ns → P (ns ++ [.removed h]))
    (moved : ∀ ns h, P ns → P (ns ++ [.moved h])) (ns : List Notice) : P (singly ns) := by
  induction ns using List.reverseRecOn with
  | nil => exact nil
  | append_singleton ns n ih =>
      rw [singly_concat]
      cases n with
      | added hs =>
          show P (singly ns ++ hs.map fun h => .added [h])
          induction hs using List.reverseRecOn with
          | nil => rwa [List.map_nil, List.append_nil]
          | append_singleton hs h ihs =>
              rw [List.map_append, List.map_singleton, ← List.append_assoc]
              exact added _ h ihs
      | removed h => exact removed _ h ih
      | moved h => exact moved _ h ih

theorem CountsAt.lt (hk : CountsAt order ns id k) : k < ns.length := by
  obtain ⟨n, hn, -⟩ := hk
  exact (List.getElem?_eq_some_iff.1 hn).1

theorem countsAt_concat :
    CountsAt order (ns ++ [n]) id k ↔
      CountsAt order ns id k ∨ k = ns.length ∧ n.Counts order ns id := by
  unfold CountsAt
  rcases Nat.lt_trichotomy k ns.length with hk | rfl | hk
  · rw [List.getElem?_append_left hk, List.take_append_of_le_length (Nat.le_of_lt hk)]
    simp [Nat.ne_of_lt hk]
  · rw [List.getElem?_concat_length, List.take_left]
    simp
  · have hbeyond : (ns ++ [n]).length ≤ k := by simpa using Nat.succ_le_of_lt hk
    rw [List.getElem?_eq_none hbeyond, List.getElem?_eq_none (Nat.le_of_lt hk)]
    simp [Nat.ne_of_gt hk]

/-- A notice that counts for a state stamps it with its own time. -/
theorem stamp_concat_self (hn : n.Counts order ns id) : Stamp order (ns ++ [n]) id ns.length := by
  refine ⟨countsAt_concat.2 (Or.inr ⟨rfl, hn⟩), fun l hl => ?_⟩
  rcases countsAt_concat.1 hl with hl | hl
  · exact Nat.le_of_lt hl.lt
  · exact Nat.le_of_eq hl.1

/-- A notice that does not count for a state leaves its stamp. -/
theorem stamp_concat (hn : ¬ n.Counts order ns id) :
    Stamp order (ns ++ [n]) id k ↔ Stamp order ns id k := by
  have hsame : ∀ l, CountsAt order (ns ++ [n]) id l ↔ CountsAt order ns id l := by
    intro l
    rw [countsAt_concat, or_iff_left fun hl => hn hl.2]
  simp only [Stamp, hsame]

theorem Stamp.lt (hk : Stamp order ns id k) : k < ns.length := hk.1.lt

/-- A batch makes of the roster what its states make of it one by one. -/
theorem roster_singly (ns : List Notice) : roster (singly ns) = roster ns := by
  induction ns using List.reverseRecOn with
  | nil => rfl
  | append_singleton ns n ih =>
      rw [singly_concat, roster_concat, ← ih, roster, List.foldl_append]
      cases n with
      | added hs =>
          funext id
          refine (congrFun List.foldl_map id).trans ?_
          refine @reading_foldl _ (fun ρ => ρ) _ id (fun ρ h => ?_) hs (roster (singly ns))
          simp [Notice.update]
      | removed h => rfl
      | moved h => rfl

theorem live_singly : Live (singly ns) id ↔ Live ns id := by
  rw [← isSome_roster, ← isSome_roster, roster_singly]

theorem Order.Serves.live {h : Handle} (hh : order.Serves ns h) : Live ns h.id := by
  rw [← isSome_roster, hh.handle]
  rfl

/-- Two states cannot both have the turn. -/
theorem Order.Serves.unique {h h' : Handle} (hh : order.Serves ns h) (hh' : order.Serves ns h') :
    h = h' := by
  by_cases hid : h.id = h'.id
  · have hsame := hh.handle
    rw [hid, hh'.handle] at hsame
    exact (Option.some.inj hsame).symm
  · obtain ⟨k, hk, hfirst⟩ := hh.first
    obtain ⟨k', hk', hfirst'⟩ := hh'.first
    obtain ⟨l', hl', hahead⟩ := hfirst h'.id hh'.live (Ne.symm hid)
    obtain ⟨l, hl, hahead'⟩ := hfirst' h.id hh.live hid
    obtain rfl := hl.unique hk
    obtain rfl := hl'.unique hk'
    cases order with
    | breadth => exact absurd hahead' (Nat.lt_asymm hahead)
    | depth => exact absurd hahead' (Nat.lt_asymm hahead)

-- ======================================================= in order of stamps

/-- Some states have stamps, and stand in their order. -/
structure InTurn (order : Order) (ns : List Notice) (ids : List StateNo) : Prop where
  stamped : ∀ id ∈ ids, ∃ k, Stamp order ns id k
  sorted : ids.Pairwise fun x y => ∃ k l, Stamp order ns x k ∧ Stamp order ns y l ∧ k < l

namespace InTurn

variable {ids kept : List StateNo}

/-- Those that stay stay in their order. -/
theorem keep (hids : InTurn order ns ids) (hsub : kept.Sublist ids)
    (hn : ∀ id ∈ kept, ¬ n.Counts order ns id) : InTurn order (ns ++ [n]) kept := by
  refine ⟨fun id hid => ?_, ?_⟩
  · obtain ⟨k, hk⟩ := hids.stamped id (hsub.subset hid)
    exact ⟨k, (stamp_concat (hn id hid)).2 hk⟩
  · refine (hids.sorted.sublist hsub).imp_of_mem fun {x y} hx hy hxy => ?_
    obtain ⟨k, l, hk, hl, hlt⟩ := hxy
    exact ⟨k, l, (stamp_concat (hn x hx)).2 hk, (stamp_concat (hn y hy)).2 hl, hlt⟩

/-- The one that a notice counts for goes behind them. -/
theorem join (hids : InTurn order ns ids) (hsub : kept.Sublist ids)
    (hn : ∀ id ∈ kept, ¬ n.Counts order ns id) (hid : n.Counts order ns id) :
    InTurn order (ns ++ [n]) (kept ++ [id]) := by
  have hkept := hids.keep hsub hn
  have hlast := stamp_concat_self hid
  refine ⟨fun x hx => ?_,
    List.pairwise_append.2 ⟨hkept.sorted, List.pairwise_singleton _ _, fun x hx y hy => ?_⟩⟩
  · rcases List.mem_append.1 hx with hx | hx
    · exact hkept.stamped x hx
    · obtain rfl := List.mem_singleton.1 hx
      exact ⟨_, hlast⟩
  · obtain rfl := List.mem_singleton.1 hy
    obtain ⟨k, hk⟩ := hids.stamped x (hsub.subset hx)
    exact ⟨k, _, (stamp_concat (hn x hx)).2 hk, hlast, hk.lt⟩

/-- Whatever stands in front is ahead of the others where the oldest is
served. -/
theorem head (hids : InTurn .breadth ns ids) (hhead : ids.head? = some id) :
    ∃ k, Stamp .breadth ns id k ∧
      ∀ x ∈ ids, x ≠ id → ∃ l, Stamp .breadth ns x l ∧ Order.breadth.Ahead k l := by
  obtain ⟨rest, rfl⟩ := List.head?_eq_some_iff.1 hhead
  obtain ⟨k, hk⟩ := hids.stamped id List.mem_cons_self
  refine ⟨k, hk, fun x hx hne => ?_⟩
  obtain ⟨k', l, hk', hl, hlt⟩ :=
    List.rel_of_pairwise_cons hids.sorted ((List.mem_cons.1 hx).resolve_left hne)
  obtain rfl := hk.unique hk'
  exact ⟨l, hl, hlt⟩

/-- Whatever stands last is ahead of the others where the newest is
served. -/
theorem last (hids : InTurn .depth ns ids) (hlast : ids.getLast? = some id) :
    ∃ k, Stamp .depth ns id k ∧
      ∀ x ∈ ids, x ≠ id → ∃ l, Stamp .depth ns x l ∧ Order.depth.Ahead k l := by
  obtain ⟨front, rfl⟩ := List.getLast?_eq_some_iff.1 hlast
  obtain ⟨k, hk⟩ := hids.stamped id (List.mem_append_right _ List.mem_cons_self)
  refine ⟨k, hk, fun x hx hne => ?_⟩
  have hfront : x ∈ front :=
    (List.mem_append.1 hx).resolve_right fun h => hne (List.mem_singleton.1 h)
  obtain ⟨l, k', hl, hk', hlt⟩ :=
    (List.pairwise_append.1 hids.sorted).2.2 x hfront id List.mem_cons_self
  obtain rfl := hk.unique hk'
  exact ⟨l, hl, hlt⟩

end InTurn

namespace Queue

variable {q : Queue} {h : Handle}

theorem order_hear (q : Queue) (n : Notice) : (q.hear n).order = q.order := by
  have hpush : ∀ (q : Queue) (h : Handle), (q.push h).order = q.order := by
    intro q h
    unfold push
    split <;> rfl
  cases n with
  | added hs =>
      show (hs.foldl push q).order = q.order
      induction hs generalizing q with
      | nil => rfl
      | cons h hs ih => exact (ih (q.push h)).trans (hpush q h)
  | removed h => rfl
  | moved h =>
      show (q.advance h).order = q.order
      unfold advance
      split
      next => cases hq : q.order <;> rfl
      next => rfl

-- =========================================================== one notice more

/-- A queue that has heard some notices, each of one state: it holds the
live states under their handles, in the order of their stamps. -/
structure Heard (order : Order) (ns : List Notice) (q : Queue) : Prop where
  served : q.order = order
  tidy : q.Tidy
  handles : q.handle? = roster ns
  inTurn : InTurn order ns q.ids

theorem Heard.holds_iff (hq : Heard order ns q) : q.holds id = true ↔ Live ns id := by
  rw [Queue.holds_iff, hq.handles, isSome_roster]

/-- Whatever the queue hears, its order aside, it takes up. -/
theorem Heard.concat (hq : Heard order ns q) (n : Notice)
    (hturn : InTurn order (ns ++ [n]) (q.hear n).ids) : Heard order (ns ++ [n]) (q.hear n) :=
  ⟨(order_hear q n).trans hq.served, tidy_hear hq.tidy n,
    by rw [handle?_hear hq.tidy, hq.handles, roster_concat], hturn⟩

theorem Heard.added (hq : Heard order ns q) (h : Handle) :
    Heard order (ns ++ [.added [h]]) (q.hear (.added [h])) := by
  refine hq.concat _ ?_
  show InTurn order _ (q.push h).ids
  by_cases hheld : q.holds h.id = true
  · rw [push, if_pos hheld]
    refine hq.inTurn.keep (List.Sublist.refl _) fun id hid hcounts => ?_
    exact hcounts.1 (hq.holds_iff.1 (mem_ids.1 hid))
  · rw [ids_push hheld]
    refine hq.inTurn.join (List.Sublist.refl _) (fun id hid hcounts => ?_) ?_
    · exact hcounts.1 (hq.holds_iff.1 (mem_ids.1 hid))
    · exact ⟨fun hlive => hheld (hq.holds_iff.2 hlive), h, List.mem_cons_self, rfl⟩

theorem Heard.removed (hq : Heard order ns q) (h : Handle) :
    Heard order (ns ++ [.removed h]) (q.hear (.removed h)) :=
  hq.concat _ (hq.inTurn.keep (ids_drop_sublist q h.id) fun _ _ hcounts => hcounts)

theorem Heard.moved (hq : Heard order ns q) (h : Handle) :
    Heard order (ns ++ [.moved h]) (q.hear (.moved h)) := by
  refine hq.concat _ ?_
  show InTurn order _ (q.advance h).ids
  cases horder : order with
  | depth =>
      rw [ids_advance_depth (hq.served.trans horder), ← horder]
      refine hq.inTurn.keep (List.Sublist.refl _) fun id _ hcounts => ?_
      exact nomatch horder.symm.trans hcounts.1
  | breadth =>
      subst horder
      by_cases hheld : q.holds h.id = true
      · rw [ids_advance_breadth hq.served hheld]
        refine hq.inTurn.join (ids_drop_sublist q h.id) (fun id hid hcounts => ?_) ⟨rfl, rfl⟩
        exact ((mem_ids_drop hq.tidy).1 hid).2 hcounts.2.symm
      · rw [advance, if_neg hheld]
        refine hq.inTurn.keep (List.Sublist.refl _) fun id hid hcounts => hheld ?_
        rw [hcounts.2]
        exact mem_ids.1 hid

-- ======================================================== whole histories

theorem hear_singles (q : Queue) (n : Notice) : n.singles.foldl hear q = q.hear n := by
  cases n with
  | added hs => exact List.foldl_map
  | removed h => rfl
  | moved h => rfl

/-- A queue hears a batch one state at a time. -/
theorem hear_singly (q : Queue) (ns : List Notice) :
    (singly ns).foldl hear q = ns.foldl hear q := by
  induction ns generalizing q with
  | nil => rfl
  | cons n ns ih =>
      rw [singly, List.flatMap_cons, List.foldl_append, hear_singles]
      exact ih (q.hear n)

theorem heard_singly (order : Order) (ns : List Notice) :
    Heard order (singly ns) ((singly ns).foldl hear (empty order)) := by
  have hconcat : ∀ (ns : List Notice) (n : Notice), (ns ++ [n]).foldl hear (empty order) =
      (ns.foldl hear (empty order)).hear n := fun ns n => List.foldl_append
  refine singly_induction (P := fun ns => Heard order ns (ns.foldl hear (empty order)))
    ⟨rfl, List.nodup_nil, rfl, fun id hid => absurd hid List.not_mem_nil, List.Pairwise.nil⟩
    (fun ns h ih => ?_) (fun ns h ih => ?_) (fun ns h ih => ?_) ns
  · rw [hconcat]
    exact ih.added h
  · rw [hconcat]
    exact ih.removed h
  · rw [hconcat]
    exact ih.moved h

/-- What a run tells a queue is all that it comes to. -/
theorem pool_run (w : Scene Queue) (as : List Act) :
    (w.run as).pool = (notices as).foldl hear w.pool := by
  induction as generalizing w with
  | nil => rfl
  | cons a as ih =>
      rw [Scene.run_cons, ih]
      cases a with
      | peek =>
          show _ = (notices as).foldl hear w.pool
          rw [Scene.act, Scene.peek, pool_peek]
      | tell n step => rfl
      | graph a => rfl

theorem heard_run (order : Order) (g : FlowGraph) (as : List Act) :
    Heard order (singly (notices as)) ((⟨g, empty order⟩ : Scene Queue).run as).pool := by
  rw [pool_run, ← hear_singly]
  exact heard_singly order (notices as)

-- ================================================================== the law

/-- The state that is served stands at the end that is served. -/
theorem head?_map_id (q : Queue) :
    q.head?.map Handle.id = match q.order with
      | .breadth => q.ids.head?
      | .depth => q.ids.getLast? := by
  unfold head? ids
  cases q.order with
  | breadth => exact List.head?_map.symm
  | depth => exact List.getLast?_map.symm

/-- Whatever is served has its turn. -/
theorem Heard.serves (hq : Heard order (singly ns) q) (hh : q.head? = some h) :
    order.Serves ns h := by
  have hread : q.handle? h.id = some h := (handle?_eq_some hq.tidy).2 ⟨mem_of_head? hh, rfl⟩
  refine ⟨by rw [← roster_singly, ← hq.handles, hread], ?_⟩
  have hids : ∀ id, Live ns id → id ∈ q.ids := by
    intro id hid
    exact mem_ids.2 (hq.holds_iff.2 (live_singly.2 hid))
  have hend := head?_map_id q
  rw [hh, hq.served, Option.map_some] at hend
  have hturn := hq.inTurn
  cases order with
  | breadth =>
      obtain ⟨k, hk, hfirst⟩ := hturn.head hend.symm
      exact ⟨k, hk, fun id hid => hfirst id (hids id hid)⟩
  | depth =>
      obtain ⟨k, hk, hfirst⟩ := hturn.last hend.symm
      exact ⟨k, hk, fun id hid => hfirst id (hids id hid)⟩

/-- States that come in stand behind those held, in the order given. -/
theorem foldl_push (q : Queue) (hs : List Handle) :
    ∃ fresh, (hs.foldl push q).states = q.states ++ fresh ∧ fresh.Sublist hs ∧
      ∀ h ∈ fresh, ¬ q.holds h.id = true := by
  induction hs generalizing q with
  | nil => exact ⟨[], (List.append_nil _).symm, List.Sublist.refl _, fun h hh => nomatch hh⟩
  | cons h hs ih =>
      obtain ⟨fresh, hstates, hsub, hnew⟩ := ih (q.push h)
      rw [List.foldl_cons, hstates]
      by_cases hheld : q.holds h.id = true
      · have hsame : q.push h = q := if_pos hheld
        rw [hsame] at hnew ⊢
        exact ⟨fresh, rfl, hsub.cons h, hnew⟩
      · have hpush : (q.push h).states = q.states ++ [h] := congrArg states (if_neg hheld)
        rw [hpush, ← List.append_cons]
        refine ⟨h :: fresh, rfl, hsub.cons_cons h, fun x hx => ?_⟩
        rcases List.mem_cons.1 hx with rfl | hx
        · exact hheld
        · intro hxq
          refine hnew x hx ?_
          rw [holds, hpush, List.any_append, Bool.or_eq_true]
          exact Or.inl hxq

theorem result_peek (g : FlowGraph) (q : Queue) :
    (Pool.peek g q).result = .ok h ↔ q.head? = some h := by
  simp only [Pool.peek]
  cases q.head? with
  | none => simp
  | some x => simp

/-- A queue after some notices: it holds no number twice and serves the
state whose turn it is, if there is any. States that come in stand behind
the others, in the order given; those already live keep handle and place.
Depth changes the handle of a state that has moved, and nothing else. -/
structure KeepsOrder (order : Order) (ns : List Notice) (w : Scene Queue) : Prop where
  distinct : (w.pool.states.map Handle.id).Nodup
  none : w.peek.result = .error .emptyPool ↔ ∀ id, ¬ Live ns id
  next : ∀ h, w.peek.result = .ok h ↔ order.Serves ns h
  added : ∀ hs step, ∃ fresh, (w.tell (.added hs) step).pool.states = w.pool.states ++ fresh ∧
    fresh.Sublist hs ∧ ∀ h ∈ fresh, ¬ Live ns h.id
  moved : order = .depth → ∀ h step, (w.tell (.moved h) step).pool.states =
    w.pool.states.map fun x => if x.id = h.id then h else x

/-- After every run a queue has kept the law of its order. -/
theorem keepsOrder_run (order : Order) (g : FlowGraph) (as : List Act) :
    KeepsOrder order (notices as) ((⟨g, empty order⟩ : Scene Queue).run as) := by
  have hq := heard_run order g as
  generalize (⟨g, empty order⟩ : Scene Queue).run as = w at hq ⊢
  have hlive : ∀ id, w.pool.holds id = true ↔ Live (notices as) id :=
    fun id => hq.holds_iff.trans live_singly
  have hnone : (∀ id, w.pool.handle? id = none) ↔ ∀ id, ¬ Live (notices as) id := by
    refine forall_congr' fun id => ?_
    rw [← hlive, holds_iff, Option.not_isSome_iff_eq_none]
  refine ⟨hq.tidy, ?_, fun h => ?_, fun hs step => ?_, fun horder h step => ?_⟩
  · rw [← hnone]
    exact (faithful w.pool hq.tidy).peek_empty w.graph
  · refine (result_peek w.graph w.pool).trans ⟨hq.serves, fun hh => ?_⟩
    cases hhead : w.pool.head? with
    | none =>
        have hempty := hnone.1 (states_eq_nil_iff.1 (head?_eq_none_iff.1 hhead))
        exact absurd hh.live (hempty h.id)
    | some x => rw [hh.unique (hq.serves hhead)]
  · obtain ⟨fresh, hstates, hsub, hnew⟩ := foldl_push w.pool hs
    exact ⟨fresh, hstates, hsub, fun h hh hin => hnew h hh ((hlive h.id).2 hin)⟩
  · exact congrArg states (advance_depth (hq.served.trans horder) h)

/-- A state that comes in again is the newest; one that is there already
keeps its place. -/
example :
    ((⟨.empty, empty .depth⟩ : Scene Queue).run
      [.tell (.added [unmoved 0, unmoved 1]) 0, .tell (.removed (unmoved 0)) 1,
        .tell (.added [unmoved 1, unmoved 0]) 2]).pool.ids = [1, 0] := by decide

end Queue

end SymbolicSearch
