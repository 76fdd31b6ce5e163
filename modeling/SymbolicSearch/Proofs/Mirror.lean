/-
What one keeps in mind who is told reports. A full report is taken as it
is; of a delta, what it lists takes the place of what was known under the
same numbers.

# Reading by number

A report is read here number by number: `under key k` are the records
filed under `k`. Laying one report over another comes to a choice between
the two for each number (`under_overwrite`), and a snapshot of a graph
whose blocks bear their own numbers shows under each number what the graph
has there, or nothing (`vertices_ofSnapshot`, `arrows_ofSnapshot`).
-/
import Mathlib.Data.List.Perm.Basic
import SymbolicSearch.Adviser
import SymbolicSearch.Proofs.Flow.Chronicle

namespace SymbolicSearch

-- ==================================================== what an oracle is told

/-- The adviser chose some state, tracked or not. -/
def Consultation.Answered (c : Consultation) : Prop := ∃ id, c.answer = .ok id

instance (c : Consultation) : Decidable c.Answered :=
  match h : c.answer with
  | .ok id => isTrue ⟨id, h⟩
  | .error _ => isFalse fun ⟨_, h'⟩ => nomatch h.symm.trans h'

/-- A report was what the adviser was shown, as it is or as a line. -/
def Consultation.Tells (c : Consultation) (r : Report) : Prop :=
  c.shown = some (.report r) ∨ c.shown = some (.line ((Exchange.request.encode r).text ++ "\n"))

/-- Where there is an answer, the report went out. -/
theorem Dialogue.sent_of_answer {d : Dialogue} {r : Report} {id : StateNo}
    (h : (d.ask r).answer = .ok id) :
    (d.ask r).sent = some ((Exchange.request.encode r).text ++ "\n") := by
  unfold ask at h ⊢
  cases hsend : d.outlet.send (Exchange.request.encode r).text with
  | mk result outlet =>
      cases result with
      | error e =>
          simp only [hsend] at h
          cases h
      | ok u => simp only [hsend]

/-- An oracle that answers has been told the report of the snapshot. -/
theorem Adviser.tells_of_answered {o : Oracle} {s : Snapshot}
    (h : ((Adviser.oracle o).consult s).1.Answered) :
    ((Adviser.oracle o).consult s).1.Tells (.ofSnapshot s) := by
  cases o with
  | live reply told => exact Or.inl rfl
  | remote d =>
      right
      obtain ⟨id, hid⟩ := h
      have hid : (d.ask (.ofSnapshot s)).answer.mapError
          (fun e => Fault.adviserFailed e.message) = .ok id := hid
      have hsent : (d.ask (.ofSnapshot s)).sent =
          some ((Exchange.request.encode (.ofSnapshot s)).text ++ "\n") := by
        cases hanswer : (d.ask (.ofSnapshot s)).answer with
        | error e =>
            rw [hanswer] at hid
            cases hid
        | ok id' => exact Dialogue.sent_of_answer hanswer
      show (d.ask (.ofSnapshot s)).sent.map Shown.line = _
      rw [hsent]
      rfl

/-- An oracle that was asked is still an oracle. -/
theorem Adviser.oracle_consult (o : Oracle) (s : Snapshot) :
    ∃ o', ((Adviser.oracle o).consult s).2 = .oracle o' := ⟨_, rfl⟩

namespace Report

variable {α : Type} {key : α → Nat}

-- ========================================================= laying over

/-- The records filed under a number. -/
def under (key : α → Nat) (k : Nat) (l : List α) : List α := l.filter fun x => key x = k

theorem mem_under {k : Nat} {l : List α} {x : α} : x ∈ under key k l ↔ x ∈ l ∧ key x = k := by
  rw [under, List.mem_filter, decide_eq_true_eq]

/-- New records put in the place of old ones under the listed numbers. -/
def overwrite (key : α → Nat) (listed : List Nat) (new old : List α) : List α :=
  (old.filter fun x => key x ∉ listed) ++ new

/-- What is known after a report, from what was known before it. -/
def lay (old : Report) (extent : Extent) (new : Report) : Report :=
  match extent with
  | .full => new
  | .delta =>
    let blocks := new.vertices.map Vertex.id
    { vertices := overwrite Vertex.id blocks new.vertices old.vertices
      states := overwrite State.id (new.states.map State.id) new.states old.states
      arrows := overwrite Arrow.source blocks new.arrows old.arrows }

/-- What is known is what a report says: of every block, of every relation
and of every state that the report speaks of. -/
structure Agrees (known r : Report) : Prop where
  vertices : known.vertices.Perm r.vertices
  arrows : known.arrows.Perm r.arrows
  states : ∀ s ∈ r.states, under State.id s.id known.states = [s]

/-- Records that are the same under every number are the same. -/
theorem perm_of_under [DecidableEq α] (key : α → Nat) {l l' : List α}
    (h : ∀ k, under key k l = under key k l') : l.Perm l' := by
  refine List.perm_iff_count.2 fun a => ?_
  have hcount : ∀ m : List α, (under key (key a) m).count a = m.count a :=
    fun m => List.count_filter (by simp)
  rw [← hcount l, ← hcount l', h]

/-- Under each number, either the new records or the old ones are known. -/
theorem under_overwrite {listed : List Nat} {new old : List α}
    (hnew : ∀ x ∈ new, key x ∈ listed) (k : Nat) :
    under key k (overwrite key listed new old) =
      if k ∈ listed then under key k new else under key k old := by
  unfold under overwrite
  rw [List.filter_append, List.filter_filter]
  by_cases hk : k ∈ listed
  · have hold : old.filter (fun x => decide (key x = k) && decide (key x ∉ listed)) = [] := by
      refine List.filter_eq_nil_iff.2 fun x _ => ?_
      rw [Bool.and_eq_true, decide_eq_true_eq, decide_eq_true_eq]
      intro h
      exact h.2 (h.1 ▸ hk)
    rw [if_pos hk, hold, List.nil_append]
  · have hold : old.filter (fun x => decide (key x = k) && decide (key x ∉ listed)) =
        old.filter fun x => key x = k := by
      refine List.filter_congr fun x _ => ?_
      by_cases hx : key x = k
      · simp [hx, hk]
      · simp [hx]
    have hnone : new.filter (fun x => decide (key x = k)) = [] := by
      refine List.filter_eq_nil_iff.2 fun x hx => ?_
      rw [decide_eq_true_eq]
      intro h
      exact hk (h ▸ hnew x hx)
    rw [if_neg hk, hold, hnone, List.append_nil]

/-- Records made number by number, read by number. -/
theorem under_flatMap {f : Nat → List α} (hf : ∀ k, ∀ x ∈ f k, key x = k) {ks : List Nat}
    (hks : ks.Nodup) (k : Nat) :
    under key k (ks.flatMap f) = if k ∈ ks then f k else [] := by
  have hother : ∀ j, under key k (f j) = if j = k then f j else [] := by
    intro j
    split
    next h =>
      refine List.filter_eq_self.2 fun x hx => ?_
      rw [decide_eq_true_eq, hf j x hx, h]
    next h =>
      refine List.filter_eq_nil_iff.2 fun x hx => ?_
      rw [decide_eq_true_eq, hf j x hx]
      exact h
  induction ks with
  | nil => rfl
  | cons j rest ih =>
      obtain ⟨hj, hrest⟩ := List.nodup_cons.1 hks
      have hsplit : under key k ((j :: rest).flatMap f) =
          under key k (f j) ++ under key k (rest.flatMap f) := by
        rw [List.flatMap_cons]
        exact List.filter_append ..
      rw [hsplit, hother, ih hrest]
      by_cases h : j = k
      · subst h
        rw [if_pos rfl, if_neg hj, if_pos List.mem_cons_self, List.append_nil]
      · rw [if_neg h, List.nil_append]
        have hmem : k ∈ j :: rest ↔ k ∈ rest := by
          rw [List.mem_cons, or_iff_right (Ne.symm h)]
        simp only [hmem]

-- ================================================= what a snapshot shows

/-- The block with a number, as an oracle sees it. -/
def vertexAt (g : FlowGraph) (k : Nat) : List Vertex := (g.blocks[k]?.map .ofBlock).toList

/-- The relations out of a block, as an oracle sees them. -/
def arrowsAt (g : FlowGraph) (k : Nat) : List Arrow :=
  Relation.reported.flatMap fun r => (g.targets k r.1).toList.map fun target => ⟨k, target, r.2⟩

variable {g : FlowGraph} {s : Snapshot}

theorem vertexAt_of_le {k : Nat} (hk : g.size ≤ k) : vertexAt g k = [] := by
  have hnone : g.blocks[k]? = none := Array.getElem?_eq_none hk
  rw [vertexAt, hnone]
  rfl

theorem arrowsAt_of_le (hg : g.Closed) {k : Nat} (hk : g.size ≤ k) : arrowsAt g k = [] := by
  refine List.flatMap_eq_nil_iff.2 fun r _ => List.map_eq_nil_iff.2 ?_
  refine List.eq_nil_iff_forall_not_mem.2 fun b hb => ?_
  have hlt := (hg.edge _ (FlowGraph.mem_targets.1 hb)).1
  exact absurd hlt (Nat.not_lt.2 hk)

theorem vertices_eq (s : Snapshot) :
    (ofSnapshot s).vertices = s.blocks.flatMap (vertexAt s.graph) := by
  show (s.blocks.filterMap fun id => s.graph.blocks[id]?).map Vertex.ofBlock = _
  rw [List.map_filterMap, List.filterMap_eq_flatMap_toList]
  rfl

theorem arrows_eq (s : Snapshot) : (ofSnapshot s).arrows = s.blocks.flatMap (arrowsAt s.graph) := by
  simp only [ofSnapshot, Snapshot.edges, List.map_flatMap, List.map_map]
  rfl

theorem id_of_mem_vertexAt (hg : g.Closed) {k : Nat} {v : Vertex} (hv : v ∈ vertexAt g k) :
    v.id = k := by
  obtain ⟨b, hb, rfl⟩ := Option.map_eq_some_iff.1 (Option.mem_toList.1 hv)
  exact hg.numbered k b hb

theorem source_of_mem_arrowsAt {k : Nat} {a : Arrow} (ha : a ∈ arrowsAt g k) : a.source = k := by
  obtain ⟨r, -, ha⟩ := List.mem_flatMap.1 ha
  obtain ⟨b, -, rfl⟩ := List.mem_map.1 ha
  rfl

/-- Under a number, a snapshot shows the block if it lists it. -/
theorem vertices_ofSnapshot (hg : s.graph.Closed) (hs : s.blocks.Nodup) (k : Nat) :
    under Vertex.id k (ofSnapshot s).vertices =
      if k ∈ s.blocks then vertexAt s.graph k else [] := by
  rw [vertices_eq]
  exact under_flatMap (fun j v hv => id_of_mem_vertexAt hg hv) hs k

/-- Under a number, a snapshot shows the block's relations if it lists it. -/
theorem arrows_ofSnapshot (hs : s.blocks.Nodup) (k : Nat) :
    under Arrow.source k (ofSnapshot s).arrows =
      if k ∈ s.blocks then arrowsAt s.graph k else [] := by
  rw [arrows_eq]
  exact under_flatMap (fun j a ha => source_of_mem_arrowsAt ha) hs k

/-- The numbers of the blocks that a snapshot shows. -/
theorem mem_numbers (hg : s.graph.Closed) (hs : ∀ k ∈ s.blocks, k < s.graph.size) {k : Nat} :
    k ∈ (ofSnapshot s).vertices.map Vertex.id ↔ k ∈ s.blocks := by
  rw [vertices_eq, List.mem_map]
  constructor
  · intro h
    obtain ⟨v, hv, rfl⟩ := h
    obtain ⟨j, hj, hv⟩ := List.mem_flatMap.1 hv
    exact (id_of_mem_vertexAt hg hv).symm ▸ hj
  · intro hk
    obtain ⟨b, hb⟩ := FlowGraph.lt_size_iff.1 (hs k hk)
    have hv : Vertex.ofBlock b ∈ vertexAt s.graph k := by
      rw [vertexAt, hb]
      exact List.mem_singleton_self _
    exact ⟨_, List.mem_flatMap.2 ⟨k, hk, hv⟩, id_of_mem_vertexAt hg hv⟩

end Report

end SymbolicSearch
