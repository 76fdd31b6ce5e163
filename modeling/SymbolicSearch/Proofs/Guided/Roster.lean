/-
Guided pools are faithful: they track just the live states, each under the
handle given last. An adviser can fail in many ways, but none of them
passes for an empty pool.
-/
import SymbolicSearch.Proofs.Guided.Step
import SymbolicSearch.Proofs.Ranking.Choice
import SymbolicSearch.Proofs.Roster

namespace SymbolicSearch

/-- No adviser says that there is no state to choose from. -/
theorem Adviser.answer_ne_emptyPool (a : Adviser) (s : Snapshot) :
    (a.consult s).1.answer ≠ .error .emptyPool := by
  obtain ⟨id, h⟩ | ⟨reason, h⟩ | ⟨cause, h, -⟩ := a.answer_cases s <;> rw [h] <;> nofun

namespace Guided

variable {p : Guided} {g : FlowGraph} {id : StateNo} {h : Handle}

/-- The handle that a pool tracks a state with. -/
def handle? (p : Guided) (id : StateNo) : Option Handle := (p.tracked.find? id).map Walker.handle

/-- Handles are filed under their own numbers. -/
def Filed (p : Guided) : Prop := ∀ id h, p.handle? id = some h → h.id = id

theorem handle?_adopting (parent : Option (StateNo × Trail)) (child id : StateNo) (w : Walker) :
    (adopting parent child id w).handle = w.handle := by
  unfold adopting
  split <;> rfl

theorem handle?_parting (gone : StateNo) (t : Trail) (id : StateNo) (w : Walker) :
    (parting gone t id w).handle = w.handle := by
  unfold parting
  dsimp only
  split <;> split <;> rfl

theorem handle?_track (step : Nat) (parent : Option (StateNo × Trail)) (p : Guided) (h : Handle)
    (id : StateNo) :
    (track step parent p h).handle? id =
      (p.handle? id).or (if h.id = id then some h else none) := by
  cases ht : p.tracked.contains h.id with
  | true =>
      rw [track_of_tracked ht]
      by_cases hid : h.id = id
      · have hsome : (p.handle? id).isSome = true := by
          rw [handle?, Option.isSome_map, ← hid]
          exact ht
        rw [Option.or_of_isSome hsome]
      · rw [if_neg hid, Option.or_none]
  | false =>
      unfold handle?
      rw [find?_track ht]
      by_cases hid : h.id = id
      · have hnone : p.tracked.find? id = none := hid ▸ IdMap.contains_eq_false.1 ht
        rw [if_pos hid.symm, if_pos hid, hnone]
        rfl
      · rw [if_neg (Ne.symm hid), if_neg hid, Option.or_none, Option.map_map]
        exact Option.map_congr fun w _ => handle?_adopting parent h.id id w

theorem handle?_letGo (p : Guided) (h : Handle) (g : FlowGraph) (id : StateNo) :
    (p.letGo h g).1.handle? id = if id = h.id then none else p.handle? id := by
  obtain ⟨ht, heq⟩ | ⟨w, ht, -⟩ := letGo_cases p h g
  · rw [heq]
    split
    next hid => rw [hid, handle?, ht, Option.map_none]
    next => rfl
  · unfold handle?
    rw [find?_letGo ht]
    split
    next => rfl
    next =>
      rw [Option.map_map]
      exact Option.map_congr fun v _ => handle?_parting h.id w.trail id v

/-- A move that is followed gives the state its new handle; one that is not
leaves the pool as it was. -/
theorem reading_followUp (p : Guided) (h : Handle) (step : Nat) (g : FlowGraph) :
    ((p.followUp h step g).result = .ok () ∧ ∀ id, (p.followUp h step g).pool.handle? id =
        if id = h.id then (p.handle? id).map fun _ => h else p.handle? id) ∨
      (∃ e, (p.followUp h step g).result = .error e) ∧ (p.followUp h step g).pool = p := by
  obtain ⟨ht, heq⟩ | ⟨w, e, -, -, heq⟩ | ⟨w, t, g', ht, -, heq⟩ := followUp_cases p h step g
  · rw [heq]
    refine Or.inl ⟨rfl, fun id => ?_⟩
    split
    next hid => rw [hid, handle?, ht, Option.map_none, Option.map_none]
    next => rfl
  · rw [heq]
    exact Or.inr ⟨⟨e, rfl⟩, rfl⟩
  · rw [heq]
    refine Or.inl ⟨rfl, fun id => ?_⟩
    unfold handle?
    rw [IdMap.find?_insert]
    split
    next hid =>
      rw [hid, ht]
      rfl
    next => rfl

theorem handle?_consult (p : Guided) (g : FlowGraph) : (p.consult g).2.handle? = p.handle? := by
  funext id
  unfold handle?
  rw [find?_consult, Option.map_map]
  rfl

theorem pool_peek (g : FlowGraph) (p : Guided) : (peek g p).pool.handle? = p.handle? := by
  obtain ⟨-, o, h⟩ | ⟨-, o, h⟩ := peek_pool g p
  · rw [h]
    rfl
  · rw [h]
    exact handle?_consult p g

theorem entries_eq_nil_iff : p.tracked.entries = [] ↔ ∀ id, p.handle? id = none := by
  constructor
  · intro hnil id
    rw [handle?, IdMap.find?, hnil]
    rfl
  · intro hnone
    refine List.eq_nil_iff_forall_not_mem.2 fun e he => ?_
    have hsome : p.tracked.find? e.1 = some e.2 := IdMap.find?_eq_some.2 he
    have hnot := hnone e.1
    rw [handle?, hsome] at hnot
    cases hnot

/-- A notice does to a pool what it does to a roster, unless it fails. -/
theorem tell_cases (p : Guided) (n : Notice) (step : Nat) (g : FlowGraph) :
    ((p.tell n step g).result = .ok () ∧
        (p.tell n step g).pool.handle? = n.update p.handle?) ∨
      (∃ e, (p.tell n step g).result = .error e) ∧ (∃ h, n = .moved h) ∧
        (p.tell n step g).pool = p := by
  cases n with
  | added hs =>
      refine Or.inl ⟨rfl, funext fun id => ?_⟩
      show (p.takeIn hs step g).handle? id = _
      rw [takeIn_eq]
      exact reading_foldl (fun q h => handle?_track step p.parent? q h id) hs p
  | removed h => exact Or.inl ⟨rfl, funext fun id => handle?_letGo p h g id⟩
  | moved h =>
      obtain ⟨hok, hread⟩ | ⟨herr, hpool⟩ := reading_followUp p h step g
      · exact Or.inl ⟨hok, funext hread⟩
      · exact Or.inr ⟨herr, ⟨h, rfl⟩, hpool⟩

end Guided

/-- Handles that come in under their own numbers stay under them. -/
theorem Notice.filed_update (n : Notice) {ρ : StateNo → Option Handle}
    (hρ : ∀ id h, ρ id = some h → h.id = id) :
    ∀ id h, n.update ρ id = some h → h.id = id := by
  intro id h hh
  cases n with
  | added hs =>
      rcases Option.or_eq_some_iff.1 hh with hold | hnew
      · exact hρ id h hold
      · simpa using List.find?_some hnew.2
  | removed x =>
      simp only [update] at hh
      split at hh
      next => cases hh
      next => exact hρ id h hh
  | moved x =>
      simp only [update] at hh
      split at hh
      next hid =>
        obtain ⟨y, -, rfl⟩ := Option.map_eq_some_iff.1 hh
        exact hid.symm
      next => exact hρ id h hh

namespace Guided

variable {p : Guided} {g : FlowGraph}

theorem isEmpty_entries : Pool.isEmpty p = true ↔ p.tracked.entries = [] := List.isEmpty_iff

theorem entries_ne_nil_of_two (h : 2 ≤ p.tracked.entries.length) : p.tracked.entries ≠ [] := by
  intro hnil
  rw [hnil] at h
  cases h

/-- An empty pool says so, and no other pool does. -/
theorem peek_eq_emptyPool : (peek g p).result = .error .emptyPool ↔ p.tracked.entries = [] := by
  obtain ⟨hnil, h⟩ | ⟨id, w, hone, h⟩ | ⟨htwo, e, he, h⟩ | ⟨htwo, id, -, -, h⟩ |
    ⟨htwo, id, w, -, -, h⟩ := peek_cases g p
  · rw [h]
    exact iff_of_true rfl hnil
  · rw [h, hone]
    exact iff_of_false (fun hh => nomatch hh) (List.cons_ne_nil _ _)
  · rw [h]
    refine iff_of_false (fun hh => ?_) (entries_ne_nil_of_two htwo)
    rw [Except.error.inj hh, consult_fst] at he
    exact Adviser.answer_ne_emptyPool _ _ he
  · rw [h]
    exact iff_of_false (fun hh => nomatch hh) (entries_ne_nil_of_two htwo)
  · rw [h]
    exact iff_of_false (fun hh => nomatch hh) (entries_ne_nil_of_two htwo)

/-- What is chosen is a tracked state. -/
theorem peek_eq_ok {h : Handle} (hh : (peek g p).result = .ok h) :
    ∃ id, p.handle? id = some h := by
  obtain ⟨-, heq⟩ | ⟨id, w, hone, heq⟩ | ⟨-, e, -, heq⟩ | ⟨-, id, -, -, heq⟩ |
    ⟨-, id, w, -, hw, heq⟩ := peek_cases g p
  · rw [heq] at hh
    cases hh
  · rw [heq] at hh
    obtain rfl := Except.ok.inj hh
    have hw : p.tracked.find? id = some w := by
      rw [IdMap.find?_eq_some, hone]
      exact List.mem_singleton_self _
    exact ⟨id, by rw [handle?, hw]; rfl⟩
  · rw [heq] at hh
    cases hh
  · rw [heq] at hh
    cases hh
  · rw [heq] at hh
    obtain rfl := Except.ok.inj hh
    refine ⟨id, ?_⟩
    rw [← handle?_consult p g, handle?, hw]
    rfl

theorem faithful : Faithful Filed handle? := by
  intro p hp
  refine ⟨isEmpty_entries.trans entries_eq_nil_iff, fun g => ?_, fun g => pool_peek g p,
    fun g => peek_eq_emptyPool.trans entries_eq_nil_iff, fun g h hh => ?_, fun n step g => ?_,
    fun n step g hok => ?_, fun n step g e he => ?_⟩
  · intro id h hh
    exact hp id h (congrFun (pool_peek g p) id ▸ hh)
  · obtain ⟨id, hid⟩ := peek_eq_ok hh
    rw [hp id h hid]
    exact hid
  · obtain ⟨-, hread⟩ | ⟨-, -, hpool⟩ := tell_cases p n step g
    · intro id h hh
      exact n.filed_update hp id h (congrFun hread id ▸ hh)
    · intro id h hh
      exact hp id h (hpool ▸ hh)
  · obtain ⟨-, hread⟩ | ⟨⟨e, he⟩, -, -⟩ := tell_cases p n step g
    · exact hread
    · exact nomatch he.symm.trans hok
  · obtain ⟨hok, -⟩ | ⟨-, hmove, hpool⟩ := tell_cases p n step g
    · exact nomatch hok.symm.trans he
    · exact ⟨hmove, congrArg handle? hpool⟩

end Guided

end SymbolicSearch
