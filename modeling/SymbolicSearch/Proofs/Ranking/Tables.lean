/-
The tensors of a ranking fit together. Their sizes come from different lists
with different filters, and every number in them that names a row of another
tensor was found by looking a number up in the snapshot. So what is said here
is said of the tensors alone, as a model gets to see them: they are read as
tables, and no table names a row that another does not have
(`ranking_well_formed`).

# Places

A place is where a number was found last in a list (`lastPlace?`). It is
below the length of the list, and the number can be read off it, so different
numbers have different places. That the relations of a snapshot are listed
once each therefore carries over to their places (`nodup_arrows`).

# Nowhere

A state that stands in no visible block has the position minus one, which is
no place: the image of a whole number never has the sign
(`Single.ofNat_ne_neg_one`).
-/
import Mathlib.Data.List.Nodup
import SymbolicSearch.Proofs.Ranking.Retelling

namespace SymbolicSearch

open Binary

-- =================================================================== images

namespace Binary

theorem roundDiv_le_succ (num den : Nat) : roundDiv num den ≤ num / den + 1 := by
  unfold roundDiv
  dsimp only
  split
  · omega
  · split <;> omega

/-- A whole number fills the width from its highest bit on. -/
theorem log2Div_one_eq {n : Nat} (hn : n ≠ 0) : log2Div n 1 = n.log2 := by
  have hone : Nat.log2 1 = 0 := by decide
  unfold log2Div
  dsimp only
  rw [hone]
  refine (if_pos ?_).trans (Int.sub_zero _)
  have hself := Nat.log2_self_le hn
  simpa [Nat.shiftLeft_eq] using hself

/-- A whole number in units that bring its highest bit to the top of the
width is below the width. -/
theorem shifted_lt (n : Nat) :
    (n <<< (23 - n.log2)) / (1 <<< (n.log2 - 23)) < 1 <<< 24 := by
  have hlt : n < 2 ^ (n.log2 + 1) := Nat.lt_log2_self
  have hwidth : n.log2 + 1 + (23 - n.log2) = n.log2 - 23 + 24 := by omega
  rw [Nat.one_shiftLeft, Nat.one_shiftLeft, Nat.shiftLeft_eq]
  refine Nat.div_lt_of_lt_mul ?_
  calc n * 2 ^ (23 - n.log2)
      < 2 ^ (n.log2 + 1) * 2 ^ (23 - n.log2) :=
        Nat.mul_lt_mul_of_pos_right hlt (Nat.two_pow_pos _)
    _ = 2 ^ (n.log2 - 23) * 2 ^ 24 := by rw [← Nat.pow_add, hwidth, Nat.pow_add]

/-- A whole number is rounded to a significand that hardly leaves the width,
in units that stay in the range. -/
theorem single_ofNat_le {n : Nat} {m : Magnitude} (h : single.ofNat n = some m) :
    m.significand ≤ 1 <<< 24 ∧ m.exponent ≤ 104 := by
  by_cases hn : n = 0
  · rw [Format.ofNat, Format.nearest, if_pos hn] at h
    obtain rfl := Option.some.inj h
    exact ⟨by decide, by decide⟩
  · rw [Format.ofNat, Format.nearest, if_neg hn, log2Div_one_eq hn] at h
    have hunit : max single.least ((n.log2 : Int) + 0 - (single.width - 1)) = n.log2 - 23 := by
      show max (-149) ((n.log2 : Int) + 0 - (24 - 1)) = _
      omega
    have hup : (-((n.log2 : Int) - 23 - 0)).toNat = 23 - n.log2 := by omega
    have hdown : ((n.log2 : Int) - 23 - 0).toNat = n.log2 - 23 := by omega
    simp only [hunit, hup, hdown] at h
    split at h
    next => cases h
    next hrange =>
      obtain rfl := Option.some.inj h
      refine ⟨?_, Int.not_lt.1 fun hlt => hrange (Or.inl hlt)⟩
      exact Nat.le_trans (roundDiv_le_succ _ _) (shifted_lt n)

namespace Single

/-- What has no sign among its parts is not negative. -/
theorem isNegative_ofParts {unsigned : Nat} (h : unsigned < signBit) :
    (ofParts false unsigned).isNegative = false := by
  have hword : unsigned % UInt32.size = unsigned :=
    Nat.mod_eq_of_lt (Nat.lt_trans h (by decide))
  have hbits : (ofParts false unsigned).bits.toNat = unsigned := by
    show (UInt32.ofNat (0 + unsigned)).toNat = _
    rw [Nat.zero_add, UInt32.toNat_ofNat']
    exact hword
  rw [isNegative, hbits]
  exact decide_eq_false (Nat.not_le.2 h)

theorem isNegative_ofNat (n : Nat) : (ofNat n).isNegative = false := by
  unfold ofNat ofMagnitude
  split
  next => decide
  next m hm =>
    obtain ⟨hsignificand, hexponent⟩ := single_ofNat_le hm
    split
    next => decide
    next =>
      have htop : (m.exponent + 149).toNat ≤ 253 := by omega
      have hmul := Nat.mul_le_mul_right fractionBound htop
      have hbound : 253 * fractionBound + 1 <<< 24 < signBit := by decide
      exact isNegative_ofParts (by omega)

/-- No whole number has the image minus one. -/
theorem ofNat_ne_neg_one (n : Nat) : ofNat n ≠ one.neg := by
  intro h
  have hneg : one.neg.isNegative = true := by decide
  rw [← h, isNegative_ofNat] at hneg
  cases hneg

end Single

end Binary

-- ================================================================== tables

namespace Ranking

/-- What the eight tensors of a ranking hold, read as tables. -/
structure Tables where
  vertices : List (List Single)
  states : List (List Single)
  /-- Source and target of each relation. -/
  ends : List (Int × Int)
  tokens : List Int
  /-- Block and state of each visit. -/
  visited : List (Int × Int)
  attributes : List (Int × Int)
  /-- Block and state of each position. -/
  stands : List (Int × Int)
  /-- Parent and child. -/
  kin : List (Int × Int)

/-- The tensors of a ranking under their names, each read by its shape. -/
def tables? (r : Ranking) : Option Tables := do
  return {
    vertices := ← (← r.input? "game_vertex").rows?
    states := ← (← r.input? "state_vertex").rows?
    ends := ← (← r.input? "gamevertex_to_gamevertex_index").columns?
    tokens := ← (← r.input? "gamevertex_to_gamevertex_type").ints?
    visited := ← (← r.input? "gamevertex_history_statevertex_index").columns?
    attributes := ← (← r.input? "gamevertex_history_statevertex_attrs").pairs?
    stands := ← (← r.input? "gamevertex_in_statevertex").columns?
    kin := ← (← r.input? "statevertex_parentof_statevertex").columns? }

/-- Both numbers of a pair name rows, of the one table and of the other. -/
def InRange (rows rows' : Nat) (c : Int × Int) : Prop :=
  (0 ≤ c.1 ∧ c.1 < rows) ∧ (0 ≤ c.2 ∧ c.2 < rows')

/-- The tables fit together. -/
structure Tables.Sound (t : Tables) : Prop where
  ends : ∀ c ∈ t.ends, InRange t.vertices.length t.vertices.length c
  tokens : t.tokens.length = t.ends.length
  /-- No relation of a kind is listed twice. -/
  distinct : (t.ends.zip t.tokens).Nodup
  visited : ∀ c ∈ t.visited, InRange t.vertices.length t.states.length c
  attributes : t.attributes.length = t.visited.length
  stands : ∀ c ∈ t.stands, InRange t.vertices.length t.states.length c
  kin : ∀ c ∈ t.kin, InRange t.states.length t.states.length c
  /-- A state has one position at most. -/
  once : (t.stands.map Prod.snd).Nodup
  /-- A state's first feature is minus one just if it has no position. -/
  nowhere : ∀ (i : Nat) row, t.states[i]? = some row →
    (row.head? = some Single.one.neg ↔ ∀ c ∈ t.stands, c.2 ≠ i)
  /-- Otherwise it is the image of the block's place in the position. -/
  somewhere : ∀ (i : Nat) row, t.states[i]? = some row →
    ∀ c ∈ t.stands, c.2 = i → row.head? = some (.ofNat c.1.toNat)

-- ================================================================== places

theorem lastPlace?_lt {l : List Nat} {n i : Nat} (h : lastPlace? l n = some i) : i < l.length :=
  (List.getElem?_eq_some_iff.1 (getElem?_of_lastPlace? h)).1

/-- Different numbers have different places. -/
theorem lastPlace?_inj {l : List Nat} {m n i : Nat} (hm : lastPlace? l m = some i)
    (hn : lastPlace? l n = some i) : m = n :=
  Option.some.inj ((getElem?_of_lastPlace? hm).symm.trans (getElem?_of_lastPlace? hn))

variable {s : Snapshot}

/-- A relation is shown by its places if both of its blocks have one. -/
theorem arrow_eq_some {blocks : List BlockNo} {e : BlockNo × BlockNo × Int} {a : RankedArrow} :
    (match lastPlace? blocks e.1, lastPlace? blocks e.2.1 with
      | some x, some y => some (⟨x, y, e.2.2⟩ : RankedArrow)
      | _, _ => none) = some a ↔
      lastPlace? blocks e.1 = some a.source ∧ lastPlace? blocks e.2.1 = some a.target ∧
        e.2.2 = a.token := by
  obtain ⟨source, target, token⟩ := a
  cases lastPlace? blocks e.1 <;> cases lastPlace? blocks e.2.1 <;> simp

theorem mem_arrows {a : RankedArrow} (ha : a ∈ (ofSnapshot s).arrows) :
    a.source < s.blocks.length ∧ a.target < s.blocks.length := by
  obtain ⟨e, -, he⟩ := List.mem_filterMap.1 ha
  obtain ⟨hsource, htarget, -⟩ := arrow_eq_some.1 he
  exact ⟨lastPlace?_lt hsource, lastPlace?_lt htarget⟩

theorem mem_history {v : RankedVisit} (hv : v ∈ (ofSnapshot s).history) :
    v.vertex < s.blocks.length ∧ v.state < s.trails.length := by
  obtain ⟨row, hrow, hv⟩ := List.mem_flatMap.1 hv
  obtain ⟨w, -, hw⟩ := List.mem_filterMap.1 hv
  obtain ⟨a, ha, rfl⟩ := Option.map_eq_some_iff.1 hw
  have hplace := List.mem_zipIdx_iff_getElem?.1 hrow
  exact ⟨lastPlace?_lt ha, (List.getElem?_eq_some_iff.1 hplace).1⟩

/-- A state has a position just if it stands in a block that is visible. -/
theorem mem_positions {p : Nat × Nat} :
    p ∈ (ofSnapshot s).positions ↔
      ∃ t, s.trails[p.2]? = some t ∧ t.block.bind (lastPlace? s.blocks) = some p.1 := by
  obtain ⟨a, i⟩ := p
  show (a, i) ∈ s.trails.zipIdx.filterMap _ ↔ _
  rw [List.mem_filterMap]
  constructor
  · intro h
    obtain ⟨⟨t, j⟩, hrow, hp⟩ := h
    obtain ⟨b, hb, heq⟩ := Option.map_eq_some_iff.1 hp
    obtain ⟨rfl, rfl⟩ := Prod.mk.inj heq
    exact ⟨t, List.mem_zipIdx_iff_getElem?.1 hrow, hb⟩
  · intro h
    obtain ⟨t, ht, hb⟩ := h
    exact ⟨(t, i), List.mem_zipIdx_iff_getElem?.2 ht, by rw [hb]; rfl⟩

theorem mem_parents {p : Nat × Nat} (hp : p ∈ (ofSnapshot s).parents) :
    p.1 < s.trails.length ∧ p.2 < s.trails.length := by
  obtain ⟨row, hrow, hp⟩ := List.mem_flatMap.1 hp
  obtain ⟨c, -, hc⟩ := List.mem_filterMap.1 hp
  obtain ⟨b, hb, rfl⟩ := Option.map_eq_some_iff.1 hc
  have hplace := List.mem_zipIdx_iff_getElem?.1 hrow
  refine ⟨(List.getElem?_eq_some_iff.1 hplace).1, ?_⟩
  have hlt := lastPlace?_lt hb
  rwa [List.length_map] at hlt

-- ============================================================ nothing twice

/-- Blocks that are listed once have their relations listed once. -/
theorem nodup_edges (hs : s.blocks.Nodup) : s.edges.Nodup := by
  have hkinds : (Relation.reported.map Prod.snd).Nodup := by decide
  refine List.nodup_flatMap.2 ⟨fun id _ => List.nodup_flatMap.2 ⟨fun r _ => ?_, ?_⟩, ?_⟩
  · refine List.Nodup.map (fun a b h => ?_) ((s.graph.targets id r.1).increasing.imp Nat.ne_of_lt)
    exact congrArg (fun e => e.2.1) h
  · refine (List.pairwise_map.1 hkinds).imp fun {r r'} hne e he he' => ?_
    obtain ⟨a, -, rfl⟩ := List.mem_map.1 he
    obtain ⟨b, -, h⟩ := List.mem_map.1 he'
    exact hne (congrArg (fun e => e.2.2) h).symm
  · refine hs.imp fun {id id'} hne e he he' => ?_
    obtain ⟨r, -, he⟩ := List.mem_flatMap.1 he
    obtain ⟨r', -, he'⟩ := List.mem_flatMap.1 he'
    obtain ⟨a, -, rfl⟩ := List.mem_map.1 he
    obtain ⟨b, -, h⟩ := List.mem_map.1 he'
    exact hne (congrArg (fun e => e.1) h).symm

/-- Relations can be told from their places. -/
theorem nodup_arrows (hs : s.blocks.Nodup) : (ofSnapshot s).arrows.Nodup := by
  refine List.Nodup.filterMap ?_ (nodup_edges hs)
  intro e e' a he he'
  obtain ⟨hsource, htarget, htoken⟩ := arrow_eq_some.1 he
  obtain ⟨hsource', htarget', htoken'⟩ := arrow_eq_some.1 he'
  refine Prod.ext (lastPlace?_inj hsource hsource') (Prod.ext ?_ (htoken.trans htoken'.symm))
  exact lastPlace?_inj htarget htarget'

-- ============================================================== all together

/-- The tables that the tensors of a ranking are laid out from. -/
def tables (r : Ranking) : Tables where
  vertices := r.vertices
  states := r.states
  ends := r.arrows.map fun a => ((a.source : Int), (a.target : Int))
  tokens := r.arrows.map (·.token)
  visited := r.history.map fun v => ((v.vertex : Int), (v.state : Int))
  attributes := r.history.map fun v => ((v.count : Int), wrapStep v.step)
  stands := r.positions.map fun p => ((p.1 : Int), (p.2 : Int))
  kin := r.parents.map fun p => ((p.1 : Int), (p.2 : Int))

/-- Rows of the right width can be read back, and so can all the rest. -/
theorem tables?_eq {r : Ranking} (hvertices : ∀ row ∈ r.vertices, row.length = featureCount)
    (hstates : ∀ row ∈ r.states, row.length = featureCount) : r.tables? = some r.tables := by
  have hpairs := Tensor.pairs?_flatMap (fun v : RankedVisit => (v.count : Int))
    (fun v => wrapStep v.step) r.history
  simp only [tables?, input?_vertices, input?_states, input?_ends, input?_tokens, input?_visited,
    input?_attributes, input?_stands, input?_kin, Option.bind_eq_bind, Option.bind_some,
    Tensor.rows?_ofRows hvertices, Tensor.rows?_ofRows hstates, columns?_asPairs,
    Tensor.ints?_of_length (List.length_map _), hpairs, List.map_map]
  rfl

/-- The values of each tensor fill its shape. -/
theorem size_inputs {r : Ranking} (hvertices : ∀ row ∈ r.vertices, row.length = featureCount)
    (hstates : ∀ row ∈ r.states, row.length = featureCount) :
    ∀ e ∈ r.inputs, e.2.size = e.2.shape.foldl (· * ·) 1 := by
  have hrows : ∀ rows : List (List Single), (∀ row ∈ rows, row.length = featureCount) →
      (Tensor.ofRows featureCount rows).size =
        (Tensor.ofRows featureCount rows).shape.foldl (· * ·) 1 := by
    intro rows h
    show rows.flatten.length = 1 * rows.length * featureCount
    rw [(Tensor.rowsOf_flatten h).1, Nat.one_mul]
  have hpairs : ∀ l : List (Nat × Nat), (asPairs l).size = (asPairs l).shape.foldl (· * ·) 1 := by
    intro l
    show (List.map _ _ ++ List.map _ _).length = 1 * 2 * (List.map _ l).length
    simp only [List.length_append, List.length_map]
    omega
  intro e he
  simp only [inputs, List.mem_cons, List.not_mem_nil, or_false] at he
  rcases he with rfl | rfl | rfl | rfl | rfl | rfl | rfl | rfl
  · exact hrows _ hvertices
  · exact hrows _ hstates
  · exact hpairs _
  · show (r.arrows.map _).length = 1 * r.arrows.length
    rw [List.length_map, Nat.one_mul]
  · exact hpairs _
  · show (r.history.flatMap _).length = 1 * r.history.length * 2
    simp [List.length_flatMap]
  · exact hpairs _
  · exact hpairs _

theorem inRange_natCast {rows rows' a b : Nat} (ha : a < rows) (hb : b < rows') :
    InRange rows rows' ((a : Int), (b : Int)) := by
  refine ⟨⟨?_, ?_⟩, ⟨?_, ?_⟩⟩ <;> dsimp only <;> omega

/-- The first feature of a state is its position. -/
theorem head?_stateFeatures {i : Nat} {row : List Single}
    (hrow : (ofSnapshot s).states[i]? = some row) :
    ∃ t, s.trails[i]? = some t ∧
      row.head? = some (match t.block.bind (lastPlace? s.blocks) with
        | some v => .ofNat v
        | none => Single.one.neg) := by
  have hmap : (s.trails.map (stateFeatures (lastPlace? s.blocks)))[i]? = some row := hrow
  rw [List.getElem?_map] at hmap
  obtain ⟨t, ht, rfl⟩ := Option.map_eq_some_iff.1 hmap
  exact ⟨t, ht, rfl⟩

/-- Positions are listed state by state. -/
theorem positions_increasing : (ofSnapshot s).positions.Pairwise fun p q => p.2 < q.2 := by
  have hrows : s.trails.zipIdx.Pairwise fun row row' => row.2 < row'.2 := by
    refine List.pairwise_map.1 ?_
    rw [List.zipIdx_map_snd]
    exact List.pairwise_lt_range'
  refine List.pairwise_filterMap.2 (hrows.imp fun {row row'} hlt p hp q hq => ?_)
  obtain ⟨a, -, rfl⟩ := Option.map_eq_some_iff.1 hp
  obtain ⟨b, -, rfl⟩ := Option.map_eq_some_iff.1 hq
  exact hlt

/-- The positions among the tables are those of the states that stand in a
visible block. -/
theorem mem_stands {c : Int × Int} :
    c ∈ (ofSnapshot s).tables.stands ↔
      ∃ (v i : Nat) (t : Trail), c = ((v : Int), (i : Int)) ∧ s.trails[i]? = some t ∧
        t.block.bind (lastPlace? s.blocks) = some v := by
  constructor
  · intro h
    obtain ⟨⟨v, i⟩, hp, rfl⟩ := List.mem_map.1 h
    obtain ⟨t, ht, hv⟩ := mem_positions.1 hp
    exact ⟨v, i, t, rfl, ht, hv⟩
  · intro h
    obtain ⟨v, i, t, rfl, ht, hv⟩ := h
    exact List.mem_map.2 ⟨(v, i), mem_positions.2 ⟨t, ht, hv⟩, rfl⟩

theorem nodup_typed_ends (hblocks : s.blocks.Nodup) :
    ((ofSnapshot s).tables.ends.zip (ofSnapshot s).tables.tokens).Nodup := by
  show (((ofSnapshot s).arrows.map _).zip ((ofSnapshot s).arrows.map _)).Nodup
  rw [List.zip_map']
  refine List.Nodup.map (fun a b h => ?_) (nodup_arrows hblocks)
  obtain ⟨hends, htoken⟩ := Prod.mk.inj h
  obtain ⟨hsource, htarget⟩ := Prod.mk.inj hends
  cases a
  cases b
  rw [RankedArrow.mk.injEq]
  exact ⟨Int.ofNat_inj.1 hsource, Int.ofNat_inj.1 htarget, htoken⟩

theorem nodup_stands : ((ofSnapshot s).tables.stands.map Prod.snd).Nodup := by
  refine List.pairwise_map.2 (List.pairwise_map.2 (positions_increasing.imp fun hlt heq => ?_))
  exact Nat.ne_of_lt hlt (Int.ofNat_inj.1 heq)

/-- A state's first feature is minus one just if it has no position. -/
theorem first_eq_neg_one_iff {i : Nat} {row : List Single}
    (hrow : (ofSnapshot s).states[i]? = some row) :
    row.head? = some Single.one.neg ↔ ∀ c ∈ (ofSnapshot s).tables.stands, c.2 ≠ i := by
  obtain ⟨t, ht, hfirst⟩ := head?_stateFeatures hrow
  rw [hfirst, Option.some.injEq]
  cases hblock : t.block.bind (lastPlace? s.blocks) with
  | none =>
      refine iff_of_true rfl fun c hc hi => ?_
      obtain ⟨v, j, t', rfl, ht', hv⟩ := mem_stands.1 hc
      obtain rfl := Int.ofNat_inj.1 hi
      obtain rfl := Option.some.inj (ht.symm.trans ht')
      rw [hblock] at hv
      cases hv
  | some v =>
      refine iff_of_false (Single.ofNat_ne_neg_one v) fun hnone => ?_
      exact hnone _ (mem_stands.2 ⟨v, i, t, rfl, ht, hblock⟩) rfl

/-- If it has a position, the feature is the image of the place there. -/
theorem first_of_stands {i : Nat} {row : List Single}
    (hrow : (ofSnapshot s).states[i]? = some row) {c : Int × Int}
    (hc : c ∈ (ofSnapshot s).tables.stands) (hi : c.2 = i) :
    row.head? = some (.ofNat c.1.toNat) := by
  obtain ⟨t, ht, hfirst⟩ := head?_stateFeatures hrow
  obtain ⟨v, j, t', rfl, ht', hv⟩ := mem_stands.1 hc
  obtain rfl := Int.ofNat_inj.1 hi
  obtain rfl := Option.some.inj (ht.symm.trans ht')
  rw [hfirst, hv]
  rfl

/-- Where every visible block is there, the tables of a snapshot's ranking
fit together. -/
theorem sound_tables (hblocks : s.blocks.Nodup) (hlength : s.vertices.length = s.blocks.length) :
    (ofSnapshot s).tables.Sound := by
  have hvertices : (ofSnapshot s).tables.vertices.length = s.blocks.length :=
    (List.length_map _).trans hlength
  have hstates : (ofSnapshot s).tables.states.length = s.trails.length := List.length_map _
  refine ⟨fun c hc => ?_, ?_, nodup_typed_ends hblocks, fun c hc => ?_, ?_, fun c hc => ?_,
    fun c hc => ?_, nodup_stands, fun i row => first_eq_neg_one_iff,
    fun i row hrow c => first_of_stands hrow⟩
  · obtain ⟨a, ha, rfl⟩ := List.mem_map.1 hc
    rw [hvertices]
    exact inRange_natCast (mem_arrows ha).1 (mem_arrows ha).2
  · exact (List.length_map _).trans (List.length_map _).symm
  · obtain ⟨v, hv, rfl⟩ := List.mem_map.1 hc
    rw [hvertices, hstates]
    exact inRange_natCast (mem_history hv).1 (mem_history hv).2
  · exact (List.length_map _).trans (List.length_map _).symm
  · obtain ⟨v, i, t, rfl, ht, hv⟩ := mem_stands.1 hc
    obtain ⟨id, -, hid⟩ := Option.bind_eq_some_iff.1 hv
    rw [hvertices, hstates]
    exact inRange_natCast (lastPlace?_lt hid) (List.getElem?_eq_some_iff.1 ht).1
  · obtain ⟨p, hp, rfl⟩ := List.mem_map.1 hc
    rw [hstates]
    exact inRange_natCast (mem_parents hp).1 (mem_parents hp).2

end Ranking

-- ========================================================== snapshots of graphs

/-- The tensors of a snapshot's ranking are well formed. -/
structure Snapshot.WellRanked (s : Snapshot) : Prop where
  /-- There are as many values in a tensor as its shape says. -/
  filled : ∀ e ∈ (Ranking.ofSnapshot s).inputs, e.2.size = e.2.shape.foldl (· * ·) 1
  /-- Read as tables they fit together, with a row for each visible block and
  one for each state. -/
  tables : ∃ t, (Ranking.ofSnapshot s).tables? = some t ∧ t.Sound ∧
    t.vertices.length = s.blocks.length ∧ t.states.length = s.trails.length

variable {g : FlowGraph} {trails : List Trail} {s : Snapshot}

/-- Every visible block is a block of the graph. -/
theorem Snapshot.Of.length_vertices (hs : s.Of g trails) :
    s.vertices.length = s.blocks.length := by
  rw [Snapshot.vertices, hs.graph_eq, List.filterMap_length_eq_length]
  intro id hid
  obtain ⟨b, hb⟩ := FlowGraph.lt_size_iff.1 (hs.blocks.2 id hid)
  rw [hb]
  rfl

theorem Snapshot.Of.wellRanked (hs : s.Of g trails) : s.WellRanked where
  filled := Ranking.size_inputs (Ranking.length_vertexFeatures s) (Ranking.length_stateFeatures s)
  tables := by
    have hread := Ranking.tables?_eq (Ranking.length_vertexFeatures s)
      (Ranking.length_stateFeatures s)
    refine ⟨_, hread, Ranking.sound_tables ?_ hs.length_vertices, ?_, List.length_map _⟩
    · exact hs.blocks.1.imp Nat.ne_of_lt
    · exact (List.length_map _).trans hs.length_vertices

/-- Whatever the graph, the list of blocks and the list of trails: the
tensors of a full snapshot's ranking and of a delta's are well formed. -/
theorem ranking_well_formed (g : FlowGraph) (blocks : List BlockNo) (trails : List Trail) :
    (Snapshot.full g trails).WellRanked ∧ (Snapshot.delta g blocks trails).WellRanked :=
  ⟨Snapshot.Of.full.wellRanked, (Snapshot.Of.delta blocks).wellRanked⟩

end SymbolicSearch
