/-
A ranking read back. The tensors of a ranking speak of blocks and states by
their places in the snapshot; with the lists of numbers at hand, the places
can be turned back into numbers, and what is then said is what the report of
the same snapshot says (`ranking_retells_report`).

# The reader

The reader sees the tensors by their names, the numbers of the blocks and
those of the states, and nothing else of the ranking. It refuses a tensor
whose values do not fill its shape, two tensors that should run side by side
and do not, and a place that there is nothing at.

# What is left out

A ranking leaves out whatever leads out of its snapshot. The report says
more: `Report.excerpt` is what remains of it if only relations, visits,
positions and children inside the snapshot count.
-/
import SymbolicSearch.Proofs.Mirror
import SymbolicSearch.Proofs.Scene

namespace SymbolicSearch

open Binary

-- ================================================================== tensors

namespace Tensor

/-- The rows of a table of floats, if its values fill it. -/
def rows? : Tensor → Option (List (List Single))
  | .floats [count, width] values =>
    if values.length = count * width then some (Ranking.rowsOf count width values) else none
  | _ => none

/-- The pairs that two rows of integers hold, one above the other. -/
def columns? : Tensor → Option (List (Int × Int))
  | .ints [2, count] values =>
    if values.length = 2 * count then some ((values.take count).zip (values.drop count)) else none
  | _ => none

/-- Every two neighbours of a list, none of them twice. -/
def inPairs : List Int → List (Int × Int)
  | a :: b :: rest => (a, b) :: inPairs rest
  | _ => []

/-- The pairs that a table of two columns holds, row by row. -/
def pairs? : Tensor → Option (List (Int × Int))
  | .ints [count, 2] values =>
    if values.length = count * 2 then some (inPairs values) else none
  | _ => none

/-- The integers in a row. -/
def ints? : Tensor → Option (List Int)
  | .ints [count] values => if values.length = count then some values else none
  | _ => none

theorem rowsOf_flatten {width : Nat} {rows : List (List Single)}
    (h : ∀ row ∈ rows, row.length = width) :
    rows.flatten.length = rows.length * width ∧
      Ranking.rowsOf rows.length width rows.flatten = rows := by
  induction rows with
  | nil => exact ⟨(Nat.zero_mul width).symm, rfl⟩
  | cons row rest ih =>
      obtain ⟨hrow, hrest⟩ := List.forall_mem_cons.1 h
      obtain ⟨hlength, hrows⟩ := ih hrest
      refine ⟨?_, ?_⟩
      · rw [List.flatten_cons, List.length_append, hlength, hrow, List.length_cons, Nat.succ_mul,
          Nat.add_comm]
      · -- the first row is taken off, and the others begin one row later
        have hshift : ∀ i, ((row ++ rest.flatten).drop ((i + 1) * width)).take width =
            (rest.flatten.drop (i * width)).take width := by
          intro i
          rw [Nat.succ_mul, Nat.add_comm, ← List.drop_drop, ← hrow, List.drop_left]
        rw [Ranking.rowsOf] at hrows
        rw [Ranking.rowsOf, List.length_cons, List.range_succ_eq_map, List.map_cons, List.map_map,
          List.flatten_cons, Nat.zero_mul, List.drop_zero, ← hrow, List.take_left, hrow]
        exact congrArg (row :: ·) ((List.map_congr_left fun i _ => hshift i).trans hrows)

theorem rows?_ofRows {width : Nat} {rows : List (List Single)}
    (h : ∀ row ∈ rows, row.length = width) : (ofRows width rows).rows? = some rows := by
  obtain ⟨hlength, hrows⟩ := rowsOf_flatten h
  rw [ofRows, rows?, if_pos hlength, hrows]

theorem columns?_ofPairs (l : List (Int × Int)) : (ofPairs l).columns? = some l := by
  have hlength : (l.map Prod.fst ++ l.map Prod.snd).length = 2 * l.length := by
    rw [List.length_append, List.length_map, List.length_map, Nat.two_mul]
  have hfst : (l.map Prod.fst).length = l.length := List.length_map _
  rw [ofPairs, columns?, if_pos hlength, List.take_left' hfst, List.drop_left' hfst,
    List.zip_map']
  exact congrArg some (List.map_id l)

theorem inPairs_flatMap {α : Type} (f g : α → Int) (l : List α) :
    inPairs (l.flatMap fun x => [f x, g x]) = l.map fun x => (f x, g x) := by
  induction l with
  | nil => rfl
  | cons x rest ih => exact congrArg ((f x, g x) :: ·) ih

theorem pairs?_flatMap {α : Type} (f g : α → Int) (l : List α) :
    (ints [l.length, 2] (l.flatMap fun x => [f x, g x])).pairs? =
      some (l.map fun x => (f x, g x)) := by
  have hlength : (l.flatMap fun x => [f x, g x]).length = l.length * 2 := by
    simp [List.length_flatMap]
  rw [pairs?, if_pos hlength, inPairs_flatMap]

theorem ints?_of_length {count : Nat} {l : List Int} (h : l.length = count) :
    (ints [count] l).ints? = some l := by
  rw [ints?, if_pos h]

end Tensor

-- ================================================================== places

/-- The number at a place of a list. -/
def numberAt? (l : List Nat) (place : Int) : Option Nat :=
  if place < 0 then none else l[place.toNat]?

theorem numberAt?_natCast (l : List Nat) (i : Nat) : numberAt? l i = l[i]? := by
  rw [numberAt?, if_neg (by omega), Int.toNat_natCast]

namespace Ranking

theorem lastPlace?_concat (l : List Nat) (a n : Nat) :
    lastPlace? (l ++ [a]) n = if a = n then some l.length else lastPlace? l n := by
  rw [lastPlace?, List.zipIdx_append, List.foldl_append, Nat.zero_add]
  rfl

/-- A number is found where it stands. -/
theorem getElem?_of_lastPlace? {l : List Nat} {n i : Nat} (h : lastPlace? l n = some i) :
    l[i]? = some n := by
  induction l using List.reverseRecOn with
  | nil => cases h
  | append_singleton l a ih =>
      rw [lastPlace?_concat] at h
      split at h
      next heq =>
        obtain rfl := Option.some.inj h
        rw [List.getElem?_concat_length, heq]
      next =>
        have hi := ih h
        rw [List.getElem?_append_left (List.getElem?_eq_some_iff.1 hi).1, hi]

/-- It is found just if it is there. -/
theorem lastPlace?_eq_none {l : List Nat} {n : Nat} : lastPlace? l n = none ↔ n ∉ l := by
  induction l using List.reverseRecOn with
  | nil => exact iff_of_true rfl List.not_mem_nil
  | append_singleton l a ih =>
      rw [lastPlace?_concat, List.mem_append, List.mem_singleton, not_or]
      split
      next heq => exact iff_of_false (Option.some_ne_none _) fun h => h.2 heq.symm
      next hne => rw [ih]; exact ⟨fun h => ⟨h, fun heq => hne heq.symm⟩, And.left⟩

/-- A listed number has a place at which it is found again; another has
none. -/
theorem lastPlace?_cases (l : List Nat) (n : Nat) :
    (n ∈ l ∧ ∃ i, lastPlace? l n = some i ∧ numberAt? l i = some n) ∨
      (n ∉ l ∧ lastPlace? l n = none) := by
  cases h : lastPlace? l n with
  | none => exact Or.inr ⟨lastPlace?_eq_none.1 h, rfl⟩
  | some i =>
      have hi := getElem?_of_lastPlace? h
      exact Or.inl ⟨List.mem_of_getElem? hi, i, rfl, (numberAt?_natCast l i).trans hi⟩

-- =========================================================== lists read back

variable {α β γ : Type} {l : List α} {r : β → Option γ}

/-- What was kept of a list can be read back as what it was made from, if
every item can. -/
theorem mapM_filterMap_eq {f : α → Option β} {g : α → Option γ}
    (h : ∀ x ∈ l, (f x).map r = (g x).map some) :
    (l.filterMap f).mapM r = some (l.filterMap g) := by
  induction l with
  | nil => rfl
  | cons x rest ih =>
      obtain ⟨hx, hrest⟩ := List.forall_mem_cons.1 h
      cases hf : f x with
      | none =>
          cases hg : g x with
          | none => rw [List.filterMap_cons_none hf, List.filterMap_cons_none hg, ih hrest]
          | some z => rw [hf, hg] at hx; cases hx
      | some y =>
          cases hg : g x with
          | none => rw [hf, hg] at hx; cases hx
          | some z =>
              rw [hf, hg] at hx
              have hback : r y = some z := Option.some.inj hx
              rw [List.filterMap_cons_some hf, List.filterMap_cons_some hg, List.mapM_cons, hback,
                ih hrest]
              rfl

theorem mapM_flatMap_eq {f : α → List β} {g : α → List γ}
    (h : ∀ x ∈ l, (f x).mapM r = some (g x)) :
    (l.flatMap f).mapM r = some (l.flatMap g) := by
  induction l with
  | nil => rfl
  | cons x rest ih =>
      obtain ⟨hx, hrest⟩ := List.forall_mem_cons.1 h
      rw [List.flatMap_cons, List.mapM_append, hx, ih hrest, List.flatMap_cons]
      rfl

theorem map_filter_eq_filterMap (p : α → Bool) (g : α → γ) :
    (l.filter p).map g = l.filterMap fun x => if p x then some (g x) else none := by
  rw [← List.filterMap_eq_map, List.filterMap_filter]
  rfl

end Ranking

-- ================================================================ retellings

/-- What a ranking and a report both say. Of a state it is not said where
it stands among its numbers; the positions say that. -/
structure Retelling where
  vertices : List (List Single)
  states : List (List Single)
  arrows : List Report.Arrow
  /-- Block and state, how often and when. -/
  visits : List (BlockNo × StateNo × Int × Int)
  positions : List (BlockNo × StateNo)
  /-- Parent and child. -/
  children : List (StateNo × StateNo)
deriving DecidableEq

namespace Report

/-- A block's numbers in single precision. -/
def Vertex.image (v : Vertex) : List Single :=
  [.ofBool v.inZone, .ofNat v.size, .ofBool v.covered, .ofBool v.visited, .ofBool v.touched,
    .ofBool v.hasCall, .ofBool v.hasThrow]

/-- A state's numbers in single precision, but for its position. -/
def State.image (s : State) : List Single :=
  [.ofNat s.conditions, .ofNat s.again, .ofNat s.openInZone, .ofNat s.openOutside,
    .ofNat s.moved, .ofNat s.dwell]

/-- A number modulo the size of a word, the upper half of the words
standing for negative numbers. -/
def signed (n : Nat) : Int :=
  if n % UInt64.size < UInt64.size / 2 then (n % UInt64.size : Nat)
  else (n % UInt64.size : Nat) - (UInt64.size : Nat)

/-- What a report says within the given blocks and states. -/
def excerpt (r : Report) (blocks : List BlockNo) (ids : List StateNo) : Retelling where
  vertices := r.vertices.map Vertex.image
  states := r.states.map State.image
  arrows := r.arrows.filter (·.target ∈ blocks)
  visits := r.states.flatMap fun s =>
    (s.history.filter (·.block ∈ blocks)).map fun v => (v.block, s.id, v.count, signed v.step)
  positions := r.states.filterMap fun s => (s.position.filter (· ∈ blocks)).map (·, s.id)
  children := r.states.flatMap fun s => (s.children.filter (· ∈ ids)).map (s.id, ·)

end Report

namespace Ranking

theorem wrapStep_eq_signed (n : Nat) : wrapStep n = Report.signed n := by
  unfold wrapStep Report.signed
  have heven : UInt64.size = UInt64.size / 2 + UInt64.size / 2 := by decide
  generalize UInt64.size = size at *
  rw [Int.bmod_def]
  split <;> split <;> omega

/-- Two lists side by side, if they are equally long. -/
def abreast? {α β : Type} (l : List α) (l' : List β) : Option (List (α × β)) :=
  if l.length = l'.length then some (l.zip l') else none

def arrowOf? (blocks : List BlockNo) (e : (Int × Int) × Int) : Option Report.Arrow := do
  return ⟨← numberAt? blocks e.1.1, ← numberAt? blocks e.1.2, e.2⟩

def visitOf? (blocks : List BlockNo) (ids : List StateNo) (e : (Int × Int) × (Int × Int)) :
    Option (BlockNo × StateNo × Int × Int) := do
  return (← numberAt? blocks e.1.1, ← numberAt? ids e.1.2, e.2)

/-- A pair of numbers from their places in two lists. -/
def pairOf? (l l' : List Nat) (e : Int × Int) : Option (Nat × Nat) := do
  return (← numberAt? l e.1, ← numberAt? l' e.2)

/-- What a ranking says, read from its tensors by means of the numbers of
the blocks and of the states. -/
def retold? (r : Ranking) (blocks : List BlockNo) : Option Retelling := do
  let vertices ← (← r.input? "game_vertex").rows?
  let states ← (← r.input? "state_vertex").rows?
  let ends ← (← r.input? "gamevertex_to_gamevertex_index").columns?
  let tokens ← (← r.input? "gamevertex_to_gamevertex_type").ints?
  let visited ← (← r.input? "gamevertex_history_statevertex_index").columns?
  let attributes ← (← r.input? "gamevertex_history_statevertex_attrs").pairs?
  let stands ← (← r.input? "gamevertex_in_statevertex").columns?
  let kin ← (← r.input? "statevertex_parentof_statevertex").columns?
  return {
    vertices := vertices
    states := states.map List.tail
    arrows := ← (← abreast? ends tokens).mapM (arrowOf? blocks)
    visits := ← (← abreast? visited attributes).mapM (visitOf? blocks r.ids)
    positions := ← stands.mapM (pairOf? blocks r.ids)
    children := ← kin.mapM (pairOf? r.ids r.ids) }

-- ============================================================= part by part

variable (s : Snapshot)

theorem length_vertexFeatures : ∀ row ∈ (ofSnapshot s).vertices, row.length = featureCount := by
  intro row hrow
  obtain ⟨b, -, rfl⟩ := List.mem_map.1 hrow
  rfl

theorem length_stateFeatures : ∀ row ∈ (ofSnapshot s).states, row.length = featureCount := by
  intro row hrow
  obtain ⟨t, -, rfl⟩ := List.mem_map.1 hrow
  rfl

theorem vertices_retold (hsize : ∀ b ∈ s.vertices, b.size < FlowGraph.numberBound) :
    (ofSnapshot s).vertices = (Report.ofSnapshot s).vertices.map Report.Vertex.image := by
  show s.vertices.map vertexFeatures = (s.vertices.map Report.Vertex.ofBlock).map _
  rw [List.map_map]
  refine List.map_congr_left fun b hb => ?_
  simp only [Function.comp_apply, Report.Vertex.image, Report.Vertex.ofBlock,
    Nat.mod_eq_of_lt (hsize b hb)]
  rfl

theorem states_retold :
    (ofSnapshot s).states.map List.tail = (Report.ofSnapshot s).states.map Report.State.image := by
  show (s.trails.map (stateFeatures _)).map List.tail = (s.trails.map Report.State.ofTrail).map _
  rw [List.map_map, List.map_map]
  rfl

/-- A relation goes out of a visible block. -/
theorem source_mem_blocks {e : BlockNo × BlockNo × Int} (he : e ∈ s.edges) : e.1 ∈ s.blocks := by
  obtain ⟨id, hid, he⟩ := List.mem_flatMap.1 he
  obtain ⟨r, -, he⟩ := List.mem_flatMap.1 he
  obtain ⟨target, -, rfl⟩ := List.mem_map.1 he
  exact hid

theorem arrows_retold :
    (ofSnapshot s).arrows.mapM (fun a => arrowOf? s.blocks ((a.source, a.target), a.token)) =
      some ((Report.ofSnapshot s).arrows.filter (·.target ∈ s.blocks)) := by
  have hfilter : (Report.ofSnapshot s).arrows.filter (·.target ∈ s.blocks) =
      s.edges.filterMap fun e =>
        if e.2.1 ∈ s.blocks then some (⟨e.1, e.2.1, e.2.2⟩ : Report.Arrow) else none := by
    show (s.edges.map _).filter _ = _
    rw [List.filter_map, map_filter_eq_filterMap]
    simp only [Function.comp_apply, decide_eq_true_eq]
  rw [hfilter]
  refine mapM_filterMap_eq fun e he => ?_
  obtain ⟨-, a, ha, hsource⟩ | ⟨hout, -⟩ := lastPlace?_cases s.blocks e.1
  · obtain ⟨hin, b, hb, htarget⟩ | ⟨hout, hb⟩ := lastPlace?_cases s.blocks e.2.1
    · simp only [ha, hb, if_pos hin, Option.map_some, arrowOf?, hsource, htarget]
      rfl
    · simp only [ha, hb, if_neg hout]
      rfl
  · exact absurd (source_mem_blocks s he) hout

/-- The state of a row is the one whose number stands at its place. -/
theorem numberAt?_row {row : Trail × Nat} (hrow : row ∈ s.trails.zipIdx) :
    numberAt? (ofSnapshot s).ids row.2 = some row.1.state := by
  rw [numberAt?_natCast]
  show (s.trails.map Trail.state)[row.2]? = _
  rw [List.getElem?_map, List.mem_zipIdx_iff_getElem?.1 hrow]
  rfl

/-- What is said of each row without its place is said of each state of the
report. -/
theorem flatMap_rows {δ : Type} (f : Report.State → List δ) :
    s.trails.zipIdx.flatMap (fun row => f (.ofTrail row.1)) =
      (Report.ofSnapshot s).states.flatMap f := by
  show _ = (s.trails.map Report.State.ofTrail).flatMap f
  rw [← List.flatMap_map Prod.fst fun t => f (.ofTrail t), List.zipIdx_map_fst, List.flatMap_map]

theorem filterMap_rows {δ : Type} (f : Report.State → Option δ) :
    s.trails.zipIdx.filterMap (fun row => f (.ofTrail row.1)) =
      (Report.ofSnapshot s).states.filterMap f := by
  show _ = (s.trails.map Report.State.ofTrail).filterMap f
  rw [List.filterMap_map, ← List.zipIdx_map_fst 0 s.trails, List.filterMap_map,
    List.zipIdx_map_fst]
  rfl

theorem visits_retold :
    (ofSnapshot s).history.mapM (fun v => visitOf? s.blocks (ofSnapshot s).ids
        ((v.vertex, v.state), ((v.count : Int), wrapStep v.step))) =
      some ((Report.ofSnapshot s).states.flatMap fun t =>
        (t.history.filter (·.block ∈ s.blocks)).map fun v =>
          (v.block, t.id, (v.count : Int), Report.signed v.step)) := by
  have hrows := mapM_flatMap_eq (l := s.trails.zipIdx)
    (f := fun row => row.1.history.values.filterMap fun v =>
      (lastPlace? s.blocks v.block).map fun a => (⟨a, row.2, v.count, v.step⟩ : RankedVisit))
    (r := fun v => visitOf? s.blocks (ofSnapshot s).ids
      ((v.vertex, v.state), ((v.count : Int), wrapStep v.step)))
    (g := fun row => (row.1.history.values.filter (·.block ∈ s.blocks)).map fun v =>
      (v.block, row.1.state, (v.count : Int), Report.signed v.step)) ?_
  · exact hrows.trans (congrArg some (flatMap_rows s fun t =>
      (t.history.filter (·.block ∈ s.blocks)).map fun v =>
        (v.block, t.id, (v.count : Int), Report.signed v.step)))
  · intro row hrow
    rw [map_filter_eq_filterMap]
    refine mapM_filterMap_eq fun v _ => ?_
    obtain ⟨hin, a, ha, hblock⟩ | ⟨hout, ha⟩ := lastPlace?_cases s.blocks v.block
    · simp only [ha, hin, Option.map_some, visitOf?, hblock, numberAt?_row s hrow,
        wrapStep_eq_signed, decide_true, if_true]
      rfl
    · simp only [ha, hout, decide_false]
      rfl

theorem positions_retold :
    (ofSnapshot s).positions.mapM (fun p => pairOf? s.blocks (ofSnapshot s).ids (p.1, p.2)) =
      some ((Report.ofSnapshot s).states.filterMap fun t =>
        (t.position.filter (· ∈ s.blocks)).map (·, t.id)) := by
  have hrows := mapM_filterMap_eq (l := s.trails.zipIdx)
    (f := fun row => (row.1.block.bind (lastPlace? s.blocks)).map fun a => (a, row.2))
    (r := fun p => pairOf? s.blocks (ofSnapshot s).ids (p.1, p.2))
    (g := fun row => (row.1.block.filter (· ∈ s.blocks)).map (·, row.1.state)) ?_
  · exact hrows.trans (congrArg some (filterMap_rows s fun t =>
      (t.position.filter (· ∈ s.blocks)).map (·, t.id)))
  · intro row hrow
    cases hblock : row.1.block with
    | none => rfl
    | some id =>
        obtain ⟨hin, a, ha, hid⟩ | ⟨hout, ha⟩ := lastPlace?_cases s.blocks id
        · simp only [Option.bind_some, ha, Option.map_some, pairOf?, hid, numberAt?_row s hrow,
            Option.filter_some, hin, decide_true, if_true]
          rfl
        · simp only [Option.bind_some, ha, Option.filter_some, hout, decide_false]
          rfl

theorem children_retold :
    (ofSnapshot s).parents.mapM
        (fun p => pairOf? (ofSnapshot s).ids (ofSnapshot s).ids (p.1, p.2)) =
      some ((Report.ofSnapshot s).states.flatMap fun t =>
        (t.children.filter (· ∈ (ofSnapshot s).ids)).map (t.id, ·)) := by
  have hrows := mapM_flatMap_eq (l := s.trails.zipIdx)
    (f := fun row => row.1.children.toList.filterMap fun c =>
      (lastPlace? (ofSnapshot s).ids c).map fun b => (row.2, b))
    (r := fun p => pairOf? (ofSnapshot s).ids (ofSnapshot s).ids (p.1, p.2))
    (g := fun row => (row.1.children.toList.filter (· ∈ (ofSnapshot s).ids)).map
      (row.1.state, ·)) ?_
  · exact hrows.trans (congrArg some (flatMap_rows s fun t =>
      (t.children.filter (· ∈ (ofSnapshot s).ids)).map (t.id, ·)))
  · intro row hrow
    rw [map_filter_eq_filterMap]
    refine mapM_filterMap_eq fun c _ => ?_
    obtain ⟨hin, b, hb, hc⟩ | ⟨hout, hb⟩ := lastPlace?_cases (ofSnapshot s).ids c
    · simp only [hb, hin, Option.map_some, pairOf?, hc, numberAt?_row s hrow, decide_true, if_true]
      rfl
    · simp only [hb, hout, decide_false]
      rfl

theorem abreast?_map {α β γ : Type} (f : α → β) (g : α → γ) (l : List α) :
    abreast? (l.map f) (l.map g) = some (l.map fun x => (f x, g x)) := by
  rw [abreast?, if_pos (by rw [List.length_map, List.length_map]), List.zip_map']

theorem columns?_asPairs (l : List (Nat × Nat)) :
    (asPairs l).columns? = some (l.map fun p => ((p.1 : Int), (p.2 : Int))) :=
  Tensor.columns?_ofPairs _

-- ========================================================== tensors by name

section

variable (r : Ranking)

theorem input?_vertices : r.input? "game_vertex" = some (.ofRows featureCount r.vertices) := rfl

theorem input?_states : r.input? "state_vertex" = some (.ofRows featureCount r.states) := rfl

theorem input?_ends : r.input? "gamevertex_to_gamevertex_index" =
    some (asPairs (r.arrows.map fun a => (a.source, a.target))) := rfl

theorem input?_tokens : r.input? "gamevertex_to_gamevertex_type" =
    some (.ints [r.arrows.length] (r.arrows.map (·.token))) := rfl

theorem input?_visited : r.input? "gamevertex_history_statevertex_index" =
    some (asPairs (r.history.map fun v => (v.vertex, v.state))) := rfl

theorem input?_attributes : r.input? "gamevertex_history_statevertex_attrs" =
    some (.ints [r.history.length, 2]
      (r.history.flatMap fun v => [(v.count : Int), wrapStep v.step])) := rfl

theorem input?_stands : r.input? "gamevertex_in_statevertex" = some (asPairs r.positions) := rfl

theorem input?_kin : r.input? "statevertex_parentof_statevertex" = some (asPairs r.parents) := rfl

end

/-- Whatever is visible: what the ranking of a snapshot says is what the
report says within the snapshot, as long as no visible block is too long to
be reported. -/
theorem retold?_ofSnapshot (hsize : ∀ b ∈ s.vertices, b.size < FlowGraph.numberBound) :
    (ofSnapshot s).retold? s.blocks =
      some ((Report.ofSnapshot s).excerpt s.blocks (ofSnapshot s).ids) := by
  have hrows : (Tensor.ofRows featureCount (ofSnapshot s).vertices).rows? =
      some ((Report.ofSnapshot s).vertices.map Report.Vertex.image) := by
    rw [Tensor.rows?_ofRows (length_vertexFeatures s), vertices_retold s hsize]
  have hpairs := Tensor.pairs?_flatMap (fun v : RankedVisit => (v.count : Int))
    (fun v => wrapStep v.step) (ofSnapshot s).history
  -- each tensor is looked up and read, then its places are turned into numbers
  simp only [retold?, input?_vertices, input?_states, input?_ends, input?_tokens, input?_visited,
    input?_attributes, input?_stands, input?_kin, Option.bind_eq_bind, Option.bind_some, hrows,
    Tensor.rows?_ofRows (length_stateFeatures s), columns?_asPairs, hpairs,
    Tensor.ints?_of_length (List.length_map _), List.map_map, abreast?_map, List.mapM_map,
    Function.comp_def, arrows_retold s, visits_retold s, positions_retold s, children_retold s,
    states_retold s]
  rfl

end Ranking

-- ========================================================== snapshots of graphs

/-- A snapshot is full, or a delta of some blocks. -/
inductive Snapshot.Of (g : FlowGraph) (trails : List Trail) : Snapshot → Prop
  | full : Of g trails (.full g trails)
  | delta (blocks : List BlockNo) : Of g trails (.delta g blocks trails)

variable {g : FlowGraph} {trails : List Trail} {s : Snapshot}

theorem Snapshot.Of.graph_eq (hs : s.Of g trails) : s.graph = g := by cases hs <;> rfl

theorem Snapshot.Of.trails_eq (hs : s.Of g trails) : s.trails = trails := by cases hs <;> rfl

/-- The blocks of a snapshot are listed in increasing order, and the graph
has them. -/
theorem Snapshot.Of.blocks (hs : s.Of g trails) :
    s.blocks.Pairwise (· < ·) ∧ ∀ id ∈ s.blocks, id < g.size := by
  cases hs with
  | full => exact ⟨List.pairwise_lt_range, fun id hid => List.mem_range.1 hid⟩
  | delta blocks =>
      refine ⟨IdSet.increasing _, fun id hid => ?_⟩
      have hmem := (List.mem_filter.1 (IdSet.mem_ofList.1 (IdSet.mem_toList.1 hid))).2
      exact of_decide_eq_true hmem

/-- The blocks that a report shows bear the numbers that are visible. -/
theorem Snapshot.Of.map_id_vertices (hg : g.Closed) (hs : s.Of g trails) :
    (Report.ofSnapshot s).vertices.map Report.Vertex.id = s.blocks := by
  show (s.vertices.map Report.Vertex.ofBlock).map _ = _
  rw [Snapshot.vertices, hs.graph_eq, List.map_map, List.map_filterMap]
  have hown : ∀ id ∈ s.blocks,
      g.blocks[id]?.map (Report.Vertex.id ∘ Report.Vertex.ofBlock) = some id := by
    intro id hid
    obtain ⟨b, hb⟩ := FlowGraph.lt_size_iff.1 (hs.blocks.2 id hid)
    rw [hb, Option.map_some]
    exact congrArg some (hg.numbered id b hb)
  rw [List.filterMap_congr hown, List.filterMap_some]

/-- The ranking of a snapshot and its report tell the same game. For every
graph that can arise, every list of blocks and every list of trails: the
reader takes the tensors, each row of blocks and of states is that of the
block and the state at its place in the report, and relations, visits,
positions and children are, in order, those that the report has within the
snapshot. -/
theorem ranking_retells_report (as : List FlowGraph.Act)
    (hs : s.Of (FlowGraph.chronicle as).graph trails)
    (hsize : ∀ b ∈ s.vertices, b.size < FlowGraph.numberBound) :
    (Report.ofSnapshot s).vertices.map Report.Vertex.id = s.blocks ∧ s.blocks.Nodup ∧
      (Report.ofSnapshot s).states.map Report.State.id = (Ranking.ofSnapshot s).ids ∧
      (Ranking.ofSnapshot s).ids = trails.map Trail.state ∧
      (Ranking.ofSnapshot s).retold? s.blocks =
        some ((Report.ofSnapshot s).excerpt s.blocks (Ranking.ofSnapshot s).ids) := by
  refine ⟨hs.map_id_vertices (FlowGraph.sound_chronicle as).closed,
    hs.blocks.1.imp Nat.ne_of_lt, ?_, ?_, Ranking.retold?_ofSnapshot s hsize⟩
  · show (s.trails.map Report.State.ofTrail).map _ = s.trails.map Trail.state
    rw [List.map_map]
    rfl
  · show s.trails.map Trail.state = _
    rw [hs.trails_eq]

/-- Two loops of which one block each is visible, a state that has seen a
block of both and has a child among the states and one that is not, and the
child, which stands nowhere yet. -/
def glimpse : Snapshot :=
  let seen : IdMap Visit := (IdMap.insert ∅ 0 ⟨0, 2, 18446744073709551615⟩).insert 1 ⟨1, 1, 5⟩
  let elder : Trail :=
    { Trail.fresh 3 5 with block := some 0, children := .ofList [4, 9], history := seen }
  .delta (FlowGraph.chronicle [.register (looping 0), .register (looping 1)]).graph [2, 0, 7]
    [elder, elder.fork 4 6]

/-- The step past the signed range is the last one below zero, and of the
two relations of a visible block the one to itself is left. -/
theorem ranking_retells_report_glimpse :
    (∀ b ∈ glimpse.vertices, b.size < FlowGraph.numberBound) ∧
      ∃ t, (Ranking.ofSnapshot glimpse).retold? glimpse.blocks = some t ∧
        t.arrows = [⟨0, 0, 0⟩, ⟨2, 2, 0⟩] ∧ t.visits = [(0, 3, 2, -1), (0, 4, 2, -1)] ∧
        t.positions = [(0, 3)] ∧ t.children = [(3, 4)] := by
  have hsize : ∀ b ∈ glimpse.vertices, b.size < FlowGraph.numberBound := by decide
  obtain ⟨-, -, -, -, htold⟩ :=
    ranking_retells_report [.register (looping 0), .register (looping 1)] (.delta [2, 0, 7]) hsize
  exact ⟨hsize, _, htold, by decide, by decide, by decide, by decide⟩

end SymbolicSearch
