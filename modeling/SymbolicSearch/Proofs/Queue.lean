/-
Queues are faithful: whatever their order, they hold just the live states,
each once and under the handle given last.
-/
import SymbolicSearch.Proofs.Roster
import SymbolicSearch.Queue

namespace SymbolicSearch.Queue

variable {q : Queue} {id : StateNo} {h : Handle}

/-- No number is held twice. -/
def Tidy (q : Queue) : Prop := (q.states.map Handle.id).Nodup

/-- The handle that a queue holds for a state. -/
def handle? (q : Queue) (id : StateNo) : Option Handle := q.states.find? fun h => h.id = id

theorem id_of_handle? (hh : q.handle? id = some h) : h.id = id := by
  unfold handle? at hh
  simpa using List.find?_some hh

theorem mem_of_handle? (hh : q.handle? id = some h) : h ∈ q.states := List.mem_of_find?_eq_some hh

/-- In a tidy queue a state is found under the handle it is held with. -/
theorem handle?_eq_some (hq : q.Tidy) : q.handle? id = some h ↔ h ∈ q.states ∧ h.id = id := by
  constructor
  · intro hh
    exact ⟨mem_of_handle? hh, id_of_handle? hh⟩
  · intro hh
    obtain ⟨hmem, rfl⟩ := hh
    cases hf : q.handle? h.id with
    | none =>
        unfold handle? at hf
        have hne := List.find?_eq_none.1 hf h hmem
        simp at hne
    | some h' => rw [List.inj_on_of_nodup_map hq (mem_of_handle? hf) hmem (id_of_handle? hf)]

theorem holds_iff : q.holds id = true ↔ (q.handle? id).isSome = true := by
  rw [holds, handle?, List.find?_isSome, List.any_eq_true]

-- ================================================================= numbers

/-- The numbers of the states, as they stand. -/
def ids (q : Queue) : List StateNo := q.states.map Handle.id

theorem mem_ids : id ∈ q.ids ↔ q.holds id = true := by
  simp [ids, holds]

theorem ids_push (hnot : ¬ q.holds h.id = true) : (q.push h).ids = q.ids ++ [h.id] := by
  rw [push, if_neg hnot, ids, List.map_append]
  rfl

theorem ids_advance_breadth (hq : q.order = .breadth) (hheld : q.holds h.id = true) :
    (q.advance h).ids = (q.drop h.id).ids ++ [h.id] := by
  rw [advance, if_pos hheld, hq, ids, List.map_append]
  rfl

/-- Depth changes the handle of a state that has moved, and nothing else. -/
theorem advance_depth (hq : q.order = .depth) (h : Handle) :
    q.advance h = { q with states := q.states.map fun x => if x.id = h.id then h else x } := by
  unfold advance
  split
  next => rw [hq]
  next hnot =>
    have hsame : q.states.map (fun x => if x.id = h.id then h else x) = q.states := by
      refine (List.map_congr_left fun x hx => if_neg fun hid => hnot ?_).trans (List.map_id _)
      exact List.any_eq_true.2 ⟨x, hx, decide_eq_true hid⟩
    rw [hsame]

theorem ids_advance_depth (hq : q.order = .depth) (h : Handle) : (q.advance h).ids = q.ids := by
  rw [advance_depth hq, ids, ids, List.map_map]
  refine List.map_congr_left fun x _ => ?_
  by_cases hid : x.id = h.id
  · simp [hid]
  · simp [hid]

-- ==================================================================== tidy

/-- One more at the back, whose number is new. -/
theorem tidy_concat {q' : Queue} (hids : q'.ids = q.ids ++ [id]) (hq : q.Tidy)
    (hnot : id ∉ q.ids) : q'.Tidy := by
  show q'.ids.Nodup
  rw [hids, ← List.concat_eq_append]
  exact List.Nodup.concat hnot hq

theorem tidy_push (hq : q.Tidy) (h : Handle) : (q.push h).Tidy := by
  by_cases hheld : q.holds h.id = true
  · rwa [push, if_pos hheld]
  · exact tidy_concat (ids_push hheld) hq fun hid => hheld (mem_ids.1 hid)

theorem tidy_foldl_push (hs : List Handle) (hq : q.Tidy) : (hs.foldl push q).Tidy := by
  induction hs generalizing q with
  | nil => exact hq
  | cons h rest ih => exact ih (tidy_push hq h)

/-- Where no number is held twice, taking one out takes out all there is
of it. -/
theorem eraseP_eq_filter {l : List Handle} (hl : (l.map Handle.id).Nodup) (id : StateNo) :
    (l.eraseP fun x => x.id = id) = l.filter fun x => x.id ≠ id := by
  induction l with
  | nil => rfl
  | cons x rest ih =>
      obtain ⟨hx, hrest⟩ := List.nodup_cons.1 hl
      by_cases hid : x.id = id
      · have hall : rest.filter (fun y => y.id ≠ id) = rest := by
          refine List.filter_eq_self.2 fun y hy => decide_eq_true ?_
          intro hy'
          exact hx (List.mem_map.2 ⟨y, hy, hy'.trans hid.symm⟩)
        rw [List.eraseP_cons_of_pos (by simp [hid])]
        rw [List.filter_cons_of_neg (by simp [hid]), hall]
      · rw [List.eraseP_cons_of_neg (by simp [hid]), ih hrest]
        rw [List.filter_cons_of_pos (by simp [hid])]

theorem ids_drop (hq : q.Tidy) (id : StateNo) : (q.drop id).ids = q.ids.filter (· ≠ id) := by
  rw [drop, ids, eraseP_eq_filter hq, ids, List.filter_map]
  rfl

theorem mem_ids_drop (hq : q.Tidy) {gone : StateNo} :
    id ∈ (q.drop gone).ids ↔ id ∈ q.ids ∧ id ≠ gone := by
  rw [ids_drop hq, List.mem_filter, decide_eq_true_eq]

theorem mem_drop (hq : q.Tidy) : h ∈ (q.drop id).states ↔ h ∈ q.states ∧ h.id ≠ id := by
  show h ∈ (q.states.eraseP fun x => x.id = id) ↔ _
  rw [eraseP_eq_filter hq, List.mem_filter, decide_eq_true_eq]

theorem ids_drop_sublist (q : Queue) (id : StateNo) : (q.drop id).ids.Sublist q.ids :=
  List.eraseP_sublist.map Handle.id

theorem tidy_drop (hq : q.Tidy) (id : StateNo) : (q.drop id).Tidy :=
  (ids_drop_sublist q id).nodup hq

/-- A state that has moved takes its own place or the last one. -/
theorem mem_advance (hq : q.Tidy) (hh : q.holds h.id = true) {x : Handle} :
    x ∈ (q.advance h).states ↔ x = h ∨ (x ∈ q.states ∧ x.id ≠ h.id) := by
  unfold advance
  rw [if_pos hh]
  cases q.order with
  | breadth =>
      show x ∈ (q.drop h.id).states ++ [h] ↔ _
      rw [List.mem_append, mem_drop hq, List.mem_singleton, or_comm]
  | depth =>
      show x ∈ q.states.map (fun y => if y.id = h.id then h else y) ↔ _
      rw [List.mem_map]
      constructor
      · intro hx
        obtain ⟨y, hy, rfl⟩ := hx
        by_cases hid : y.id = h.id
        · exact Or.inl (if_pos hid)
        · rw [if_neg hid]
          exact Or.inr ⟨hy, hid⟩
      · intro hx
        rcases hx with hx | hx
        · obtain ⟨y, hy, hid⟩ := List.any_eq_true.1 hh
          exact ⟨y, hy, (if_pos (of_decide_eq_true hid)).trans hx.symm⟩
        · exact ⟨x, hx.1, if_neg hx.2⟩

theorem tidy_advance (hq : q.Tidy) (h : Handle) : (q.advance h).Tidy := by
  cases horder : q.order with
  | depth =>
      show (q.advance h).ids.Nodup
      rw [ids_advance_depth horder]
      exact hq
  | breadth =>
      by_cases hheld : q.holds h.id = true
      · refine tidy_concat (ids_advance_breadth horder hheld) (tidy_drop hq h.id) fun hid => ?_
        exact ((mem_ids_drop hq).1 hid).2 rfl
      · rwa [advance, if_neg hheld]

theorem tidy_hear (hq : q.Tidy) (n : Notice) : (q.hear n).Tidy := by
  cases n with
  | added hs => exact tidy_foldl_push hs hq
  | removed h => exact tidy_drop hq h.id
  | moved h => exact tidy_advance hq h

-- ================================================================= readings

theorem handle?_push (q : Queue) (h : Handle) (id : StateNo) :
    (q.push h).handle? id = (q.handle? id).or (if h.id = id then some h else none) := by
  unfold push
  split
  next hheld =>
    by_cases hid : h.id = id
    · subst hid
      rw [Option.or_of_isSome (holds_iff.1 hheld)]
    · rw [if_neg hid, Option.or_none]
  next =>
    show (q.states ++ [h]).find? (fun x => x.id = id) = _
    rw [List.find?_append, List.find?_singleton]
    simp [handle?]

theorem handle?_drop (hq : q.Tidy) (gone id : StateNo) :
    (q.drop gone).handle? id = if id = gone then none else q.handle? id := by
  apply Option.ext
  intro x
  rw [handle?_eq_some (tidy_drop hq gone), mem_drop hq]
  split
  next hid =>
    refine iff_of_false ?_ (by simp)
    intro hx
    exact hx.1.2 (hx.2.trans hid)
  next hid =>
    rw [handle?_eq_some hq]
    constructor
    · intro hx
      exact ⟨hx.1.1, hx.2⟩
    · intro hx
      exact ⟨⟨hx.1, fun h => hid (hx.2.symm.trans h)⟩, hx.2⟩

theorem handle?_advance (hq : q.Tidy) (h : Handle) (id : StateNo) :
    (q.advance h).handle? id =
      if id = h.id then (q.handle? id).map fun _ => h else q.handle? id := by
  cases hheld : q.holds h.id with
  | false =>
      have hnone : q.handle? h.id = none := by
        cases hf : q.handle? h.id with
        | none => rfl
        | some x =>
            have htrue := holds_iff.2 (Option.isSome_iff_exists.2 ⟨x, hf⟩)
            rw [hheld] at htrue
            cases htrue
      unfold advance
      rw [hheld, if_neg Bool.false_ne_true]
      split
      next hid => rw [hid, hnone, Option.map_none]
      next => rfl
  | true =>
      apply Option.ext
      intro x
      rw [handle?_eq_some (tidy_advance hq h), mem_advance hq hheld]
      split
      next hid =>
        obtain ⟨y, hy⟩ := Option.isSome_iff_exists.1 (holds_iff.1 hheld)
        rw [hid, hy, Option.map_some, Option.some.injEq]
        constructor
        · intro hx
          exact hx.1.elim Eq.symm fun hold => absurd hx.2 hold.2
        · intro hx
          subst hx
          exact ⟨Or.inl rfl, rfl⟩
      next hid =>
        rw [handle?_eq_some hq]
        constructor
        · intro hx
          refine ⟨hx.1.elim (fun heq => ?_) And.left, hx.2⟩
          exact absurd (hx.2.symm.trans (congrArg Handle.id heq)) hid
        · intro hx
          exact ⟨Or.inr ⟨hx.1, fun heq => hid (hx.2.symm.trans heq)⟩, hx.2⟩

theorem handle?_hear (hq : q.Tidy) (n : Notice) : (q.hear n).handle? = n.update q.handle? := by
  funext id
  cases n with
  | added hs => exact reading_foldl (fun s h => handle?_push s h id) hs q
  | removed h => exact handle?_drop hq h.id id
  | moved h => exact handle?_advance hq h id

theorem states_eq_nil_iff : q.states = [] ↔ ∀ id, q.handle? id = none := by
  constructor
  · intro hnil id
    rw [handle?, hnil, List.find?_nil]
  · intro hnone
    refine List.eq_nil_iff_forall_not_mem.2 fun h hmem => ?_
    have hnot := List.find?_eq_none.1 (hnone h.id) h hmem
    simp at hnot

theorem mem_of_head? (hh : q.head? = some h) : h ∈ q.states := by
  unfold head? at hh
  split at hh
  · exact List.mem_of_head? hh
  · exact List.mem_of_getLast? hh

theorem head?_eq_none_iff : q.head? = none ↔ q.states = [] := by
  unfold head?
  split
  · exact List.head?_eq_none_iff
  · exact List.getLast?_eq_none_iff

/-- A queue serves a state that it holds, or holds none. -/
theorem peek_cases (g : FlowGraph) (q : Queue) :
    (q.states = [] ∧ Pool.peek g q = ⟨.error .emptyPool, q, none⟩) ∨
      ∃ h ∈ q.states, Pool.peek g q = ⟨.ok h, q, none⟩ := by
  cases hh : q.head? with
  | none =>
      refine Or.inl ⟨head?_eq_none_iff.1 hh, ?_⟩
      simp only [Pool.peek, hh]
  | some h =>
      refine Or.inr ⟨h, mem_of_head? hh, ?_⟩
      simp only [Pool.peek, hh]

theorem pool_peek (g : FlowGraph) (q : Queue) : (Pool.peek g q).pool = q := by
  obtain ⟨-, h⟩ | ⟨x, -, h⟩ := peek_cases g q
  · rw [h]
  · rw [h]

theorem faithful : Faithful Tidy handle? := by
  intro q hq
  refine ⟨List.isEmpty_iff.trans states_eq_nil_iff, fun g => ?_, fun g => ?_, fun g => ?_,
    fun g h hh => ?_, fun n step g => tidy_hear hq n, fun n step g _ => handle?_hear hq n,
    fun n step g e he => nomatch he⟩
  · rw [pool_peek]
    exact hq
  · rw [pool_peek]
  · rw [← states_eq_nil_iff]
    obtain ⟨hnil, h⟩ | ⟨x, hx, h⟩ := peek_cases g q
    · rw [h]
      exact iff_of_true rfl hnil
    · rw [h]
      exact iff_of_false (fun he => nomatch he) (List.ne_nil_of_mem hx)
  · obtain ⟨-, hp⟩ | ⟨x, hx, hp⟩ := peek_cases g q
    · rw [hp] at hh
      cases hh
    · rw [hp] at hh
      obtain rfl := Except.ok.inj hh
      exact (handle?_eq_some hq).2 ⟨hx, rfl⟩

end SymbolicSearch.Queue
