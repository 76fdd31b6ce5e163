/-
What can happen to a flow graph. Methods come in, calls are observed,
coverage is set and states move about, in any order; whatever happens is
the same three things in a row (`act_spec`): a routine is put in or not,
relations of calls are drawn or not, and marks are set on blocks. A fact
about all graphs that can arise needs one lemma for each of the three.

# Putting a routine in

`install` is described once and for all by its blocks (`Fits`), its
relations (`mem_edges_install`) and its entry among the methods
(`find?_install`). Each is said in terms of the routine's own cut, block
numbers being places of runs counted on from the size of the graph.

# Nothing dangles

`Closed` says that blocks are numbered by position and that relations and
exits name blocks of the graph. It holds of every graph that can arise
(`closed_chronicle`), and it is why a new block begins with no relation
but those of its own routine.
-/
import SymbolicSearch.Proofs.Routine.Cut
import SymbolicSearch.Trail

namespace SymbolicSearch

/-- A block without what a search has seen of it. -/
def Block.bare (b : Block) : Block :=
  { b with inZone := false, covered := false, visited := false, touched := false, occupants := ∅ }

theorem Block.first_of_bare {b : Block} {r : Routine} {z : Bool} {id : BlockNo} {s : Span}
    (h : b.bare = Block.ofSpan r z id s) : b.first = s.first := congrArg Block.first h

theorem Block.last_of_bare {b : Block} {r : Routine} {z : Bool} {id : BlockNo} {s : Span}
    (h : b.bare = Block.ofSpan r z id s) : b.last = s.last := congrArg Block.last h

theorem Block.holds_of_bare {b : Block} {r : Routine} {z : Bool} {id : BlockNo} {s : Span}
    (h : b.bare = Block.ofSpan r z id s) (i : Nat) : b.holds i = s.contains i := by
  rw [Block.holds, Block.first_of_bare h, Block.last_of_bare h]
  rfl

namespace FlowGraph

variable {g g' : FlowGraph} {r : Routine} {base : Nat}

-- ================================================================= marks

/-- Two graphs are alike but for what has been seen of their blocks and
which methods count. -/
structure Alike (g g' : FlowGraph) : Prop where
  bare : ∀ i : Nat, g'.blocks[i]?.map Block.bare = g.blocks[i]?.map Block.bare
  edges : g'.edges = g.edges
  methods : g'.methods = g.methods

theorem Alike.refl (g : FlowGraph) : Alike g g := ⟨fun _ => rfl, rfl, rfl⟩

theorem Alike.trans {g₁ g₂ g₃ : FlowGraph} (h : Alike g₁ g₂) (h' : Alike g₂ g₃) :
    Alike g₁ g₃ :=
  ⟨fun i => (h'.bare i).trans (h.bare i), h'.edges.trans h.edges, h'.methods.trans h.methods⟩

/-- A block of a graph has a counterpart in every graph alike. -/
theorem Alike.block (h : Alike g g') {i : Nat} {b' : Block} (hb : g'.blocks[i]? = some b') :
    ∃ b, g.blocks[i]? = some b ∧ b'.bare = b.bare := by
  have hi := h.bare i
  rw [hb, Option.map_some] at hi
  obtain ⟨b, hb, heq⟩ := Option.map_eq_some_iff.1 hi.symm
  exact ⟨b, hb, heq.symm⟩

theorem Alike.symm (h : Alike g g') : Alike g' g :=
  ⟨fun i => (h.bare i).symm, h.edges.symm, h.methods.symm⟩

theorem lt_size_iff {i : Nat} : i < g.size ↔ ∃ b, g.blocks[i]? = some b := by
  rw [size, ← Option.isSome_iff_exists]
  simp

theorem Alike.size (h : Alike g g') : g'.size = g.size := by
  have hle : ∀ {g₁ g₂ : FlowGraph}, Alike g₁ g₂ → g₂.size ≤ g₁.size := by
    intro g₁ g₂ h
    by_contra hlt
    obtain ⟨b, hb⟩ := lt_size_iff.1 (Nat.lt_of_not_le hlt)
    obtain ⟨b₁, hb₁, -⟩ := h.block hb
    exact Nat.lt_irrefl _ (lt_size_iff.2 ⟨b₁, hb₁⟩)
  exact Nat.le_antisymm (hle h) (hle h.symm)

theorem alike_modifyBlock (g : FlowGraph) (id : BlockNo) {f : Block → Block}
    (hf : ∀ b, (f b).bare = b.bare) : Alike g (g.modifyBlock id f) := by
  refine ⟨fun i => ?_, rfl, rfl⟩
  rw [modifyBlock, Array.getElem?_modify]
  split
  · rw [Option.map_map]
    exact Option.map_congr fun b _ => hf b
  · rfl

theorem alike_mapBlocks (g : FlowGraph) {f : Block → Block} (hf : ∀ b, (f b).bare = b.bare) :
    Alike g (g.mapBlocks f) := by
  refine ⟨fun i => ?_, rfl, rfl⟩
  rw [mapBlocks, Array.getElem?_map, Option.map_map]
  exact Option.map_congr fun b _ => hf b

theorem alike_zone (g : FlowGraph) (z : IdSet) : Alike g { g with zone := z } :=
  ⟨fun _ => rfl, rfl, rfl⟩

/-- To make a method count is to note it and then to mark its blocks, one
after another. -/
theorem enterZone_induction {P : FlowGraph → Prop} (m : MethodNo)
    (hnoted : P { g with zone := g.zone.insert m })
    (hmark : ∀ g id, P g → P (g.modifyBlock id fun b => { b with inZone := true })) :
    P (g.enterZone m) :=
  List.foldlRecOn (motive := P) (g.blocksOf m) _ hnoted fun g h id _ => hmark g id h

theorem alike_enterZone (g : FlowGraph) (m : MethodNo) : Alike g (g.enterZone m) := by
  apply enterZone_induction m
  · exact alike_zone g _
  · intro g' id h
    exact h.trans (alike_modifyBlock g' id fun b => rfl)

theorem alike_clearZone (g : FlowGraph) : Alike g g.clearZone :=
  (alike_zone g ∅).trans (alike_mapBlocks _ fun _ => rfl)

theorem alike_cover (g : FlowGraph) (id : Nat) : Alike g (g.cover id) :=
  alike_modifyBlock g _ fun _ => rfl

theorem alike_uncover (g : FlowGraph) : Alike g g.uncover := alike_mapBlocks g fun _ => rfl

theorem alike_vacate (g : FlowGraph) (state : StateNo) (block : Option BlockNo) :
    Alike g (Trail.vacate state block g) := by
  cases block with
  | none => exact Alike.refl g
  | some id => exact alike_modifyBlock g id fun _ => rfl

/-- The graph on which a trail's state has arrived at an index of a
block. -/
def arrival (g : FlowGraph) (t : Trail) (id : BlockNo) (index : Nat) : FlowGraph :=
  (if t.block = some id then g else Trail.vacate t.state t.block g).modifyBlock id
    (Trail.trodden t.state index)

/-- What following a state comes to: nothing if it has executed nothing,
an arrival at the block of its statement otherwise. -/
theorem follow_eq_ok {t t' : Trail} {h : Handle} {step : Nat}
    (hf : t.follow h step g = .ok (t', g')) :
    (h.last = none ∧ t' = t ∧ g' = g) ∨
      ∃ stmt id b, h.last = some stmt ∧ g.locate stmt = .ok (id, b) ∧
        g' = g.arrival t id stmt.site.index ∧
        t' = (t.stepOn id b stmt.site.index h.forks step).recount g' := by
  unfold Trail.follow at hf
  cases hl : h.last with
  | none =>
      rw [hl] at hf
      obtain ⟨rfl, rfl⟩ := Prod.mk.inj (Except.ok.inj hf)
      exact Or.inl ⟨rfl, rfl, rfl⟩
  | some stmt =>
      rw [hl] at hf
      cases hb : g.locate stmt with
      | error e => simp [hb, bind, Except.bind] at hf
      | ok found =>
          obtain ⟨id, b⟩ := found
          simp only [hb, bind, Except.bind] at hf
          obtain ⟨rfl, rfl⟩ := Prod.mk.inj (Except.ok.inj hf)
          exact Or.inr ⟨stmt, id, b, rfl, hb, rfl, rfl⟩

theorem alike_follow {t t' : Trail} {h : Handle} {step : Nat}
    (hf : t.follow h step g = .ok (t', g')) : Alike g g' := by
  obtain ⟨-, -, rfl⟩ | ⟨stmt, id, b, -, -, rfl, -⟩ := follow_eq_ok hf
  · exact Alike.refl g'
  · have harrive : ∀ g₁ : FlowGraph,
        Alike g₁ (g₁.modifyBlock id (Trail.trodden t.state stmt.site.index)) :=
      fun g₁ => alike_modifyBlock g₁ id fun _ => rfl
    unfold arrival
    split
    · exact harrive g
    · exact (alike_vacate g _ _).trans (harrive _)

-- ===================================================== look-up by places

/-- The blocks from a number on are those of a routine's runs. -/
def Fits (g : FlowGraph) (r : Routine) (base : Nat) : Prop :=
  ∀ k s, r.spans[k]? = some s →
    g.blocks[base + k]?.map Block.bare = some (Block.ofSpan r false (base + k) s)

theorem Fits.block (hf : g.Fits r base) {k : Nat} {s : Span} (hs : r.spans[k]? = some s) :
    ∃ b, g.blocks[base + k]? = some b ∧ b.bare = Block.ofSpan r false (base + k) s :=
  Option.map_eq_some_iff.1 (hf k s hs)

theorem Fits.of_alike (hf : g.Fits r base) (h : Alike g g') : g'.Fits r base :=
  fun k s hs => (h.bare (base + k)).trans (hf k s hs)

/-- The numbers of a routine's blocks, from a number on. -/
def numbersFrom (r : Routine) (base : Nat) : List BlockNo :=
  List.range' base r.spans.length

theorem mem_numbersFrom {id : Nat} :
    id ∈ numbersFrom r base ↔ ∃ (k : Nat) (s : Span), r.spans[k]? = some s ∧ id = base + k := by
  rw [numbersFrom, List.mem_range'_1]
  constructor
  · intro h
    obtain ⟨hle, hlt⟩ := h
    have hk : id - base < r.spans.length := by omega
    exact ⟨id - base, _, List.getElem?_eq_getElem hk, by omega⟩
  · intro h
    obtain ⟨k, s, hs, rfl⟩ := h
    have hk := (List.getElem?_eq_some_iff.1 hs).1
    omega

/-- Whatever is found among a routine's blocks is the block of a run that
contains the index. -/
theorem locate?_sound (hf : g.Fits r base) {i id : Nat} {b : Block}
    (h : g.locate? (numbersFrom r base) i = some (id, b)) :
    ∃ (k : Nat) (s : Span), r.spans[k]? = some s ∧ s.contains i = true ∧ id = base + k ∧
      g.blocks[id]? = some b := by
  obtain ⟨id', hmem, hid⟩ := List.exists_of_findSome?_eq_some h
  obtain ⟨k, s, hs, rfl⟩ := mem_numbersFrom.1 hmem
  obtain ⟨b', hb', heq⟩ := hf.block hs
  rw [hb', Option.filter_some] at hid
  split at hid
  next hholds =>
    obtain ⟨rfl, rfl⟩ := Prod.mk.inj (Option.some.inj hid)
    exact ⟨k, s, hs, Block.holds_of_bare heq i ▸ hholds, rfl, hb'⟩
  next => cases hid

/-- Among a routine's blocks, an index is found in the block of its run. -/
theorem locate?_eq_some (hf : g.Fits r base) {i id : Nat} {b : Block} :
    g.locate? (numbersFrom r base) i = some (id, b) ↔
      ∃ (k : Nat) (s : Span), r.spans[k]? = some s ∧ s.contains i = true ∧ id = base + k ∧
        g.blocks[id]? = some b := by
  refine ⟨locate?_sound hf, ?_⟩
  intro h
  obtain ⟨k, s, hs, hc, rfl, hb⟩ := h
  have hsome : (g.locate? (numbersFrom r base) i).isSome := by
    rw [locate?, List.findSome?_isSome_iff]
    refine ⟨base + k, mem_numbersFrom.2 ⟨k, s, hs, rfl⟩, ?_⟩
    obtain ⟨b', hb', heq⟩ := hf.block hs
    rw [hb', Option.filter_some, if_pos (Block.holds_of_bare heq i ▸ hc)]
    rfl
  obtain ⟨⟨id', b'⟩, hfound⟩ := Option.isSome_iff_exists.1 hsome
  obtain ⟨l, t, ht, hct, rfl, hb'⟩ := locate?_sound hf hfound
  obtain rfl := Routine.place_unique hs ht hc hct
  rw [hfound, Option.some.inj (hb'.symm.trans hb)]

/-- Among a routine's blocks, the number found for an index is the place
of its run. -/
theorem holder?_eq (hf : g.Fits r base) (i : Nat) :
    g.holder? (numbersFrom r base) i = (r.place? i).map (base + ·) := by
  apply Option.ext
  intro id
  rw [holder?, Option.map_eq_some_iff, Option.map_eq_some_iff]
  constructor
  · intro h
    obtain ⟨⟨_, b⟩, hfound, rfl⟩ := h
    obtain ⟨k, s, hs, hc, hid, -⟩ := (locate?_eq_some hf).1 hfound
    exact ⟨k, Routine.place?_eq_some.2 ⟨s, hs, hc⟩, hid.symm⟩
  · intro h
    obtain ⟨k, hk, rfl⟩ := h
    obtain ⟨s, hs, hc⟩ := Routine.place?_eq_some.1 hk
    obtain ⟨b, hb, -⟩ := hf.block hs
    exact ⟨(base + k, b), (locate?_eq_some hf).2 ⟨k, s, hs, hc, rfl, hb⟩, rfl⟩

-- ====================================================== putting a routine in

/-- To draw relations changes nothing but the relations. -/
theorem linkAll_eq (g : FlowGraph) (es : List Edge) :
    g.linkAll es = { g with edges := (g.linkAll es).edges } := by
  induction es generalizing g with
  | nil => rfl
  | cons e rest ih =>
      have hlink : ∀ edges, { g.link e with edges := edges } = { g with edges := edges } := by
        intro edges
        unfold link
        split <;> rfl
      exact (ih (g.link e)).trans (hlink _)

@[simp] theorem linkAll_blocks (g : FlowGraph) (es : List Edge) :
    (g.linkAll es).blocks = g.blocks := by rw [linkAll_eq]

@[simp] theorem linkAll_methods (g : FlowGraph) (es : List Edge) :
    (g.linkAll es).methods = g.methods := by rw [linkAll_eq]

@[simp] theorem linkAll_size (g : FlowGraph) (es : List Edge) : (g.linkAll es).size = g.size := by
  rw [size, linkAll_blocks, size]

/-- The blocks that a routine's runs become in a graph. -/
def madeOf (g : FlowGraph) (r : Routine) : List Block :=
  List.zipWith (Block.ofSpan r (r.method ∈ g.zone)) (numbersFrom r g.size) r.spans

theorem install_blocks (g : FlowGraph) (r : Routine) :
    (g.install r).blocks = g.blocks ++ (g.madeOf r).toArray := by
  simp only [install, linkAll_blocks]
  rfl

/-- The graph with a routine's blocks, as its relations find it. -/
def grownBy (g : FlowGraph) (r : Routine) : FlowGraph :=
  { g with blocks := g.blocks ++ (g.madeOf r).toArray }

theorem getElem?_madeOf {k : Nat} :
    (g.madeOf r)[k]? = r.spans[k]?.map (Block.ofSpan r (r.method ∈ g.zone) (g.size + k)) := by
  rw [madeOf, List.getElem?_zipWith, numbersFrom]
  by_cases hk : k < r.spans.length
  · rw [List.getElem?_range' hk, List.getElem?_eq_getElem hk]
    simp
  · rw [List.getElem?_eq_none (by simpa using hk), List.getElem?_eq_none (by simpa using hk)]
    rfl

theorem length_madeOf : (g.madeOf r).length = r.spans.length := by
  simp [madeOf, numbersFrom]

theorem size_install (g : FlowGraph) (r : Routine) :
    (g.install r).size = g.size + r.spans.length := by
  show (g.install r).blocks.size = _
  rw [install_blocks, Array.size_append]
  exact congrArg (g.size + ·) length_madeOf

/-- The blocks that were there stay as they are. -/
theorem getElem?_install_of_lt {i : Nat} (hi : i < g.size) :
    (g.install r).blocks[i]? = g.blocks[i]? := by
  rw [install_blocks, Array.getElem?_append_left hi]

theorem getElem?_install_add {k : Nat} :
    (g.install r).blocks[g.size + k]? =
      r.spans[k]?.map (Block.ofSpan r (r.method ∈ g.zone) (g.size + k)) := by
  rw [install_blocks, Array.getElem?_append_right (Nat.le_add_right g.size k),
    List.getElem?_toArray, ← getElem?_madeOf]
  congr 1
  exact Nat.add_sub_cancel_left ..

theorem fits_install (g : FlowGraph) (r : Routine) : (g.install r).Fits r g.size := by
  intro k s hs
  rw [getElem?_install_add, hs]
  rfl

theorem fits_grownBy (g : FlowGraph) (r : Routine) : (g.grownBy r).Fits r g.size := by
  have h := fits_install g r
  rw [Fits, install_blocks] at h
  exact h

/-- A relation to wherever an index is found is a relation to the block of
its run. -/
theorem map_holder?_eq_some (hf : g.Fits r base) {id j : Nat} {rel : Relation} {e : Edge} :
    (g.holder? (numbersFrom r base) j).map (fun b => (⟨id, b, rel⟩ : Edge)) = some e ↔
      ∃ (l : Nat) (t : Span), r.spans[l]? = some t ∧ t.contains j = true ∧
        e = ⟨id, base + l, rel⟩ := by
  rw [holder?_eq hf, Option.map_map, Option.map_eq_some_iff]
  constructor
  · intro h
    obtain ⟨l, hl, rfl⟩ := h
    obtain ⟨t, ht, hc⟩ := Routine.place?_eq_some.1 hl
    exact ⟨l, t, ht, hc, rfl⟩
  · intro h
    obtain ⟨l, t, ht, hc, rfl⟩ := h
    exact ⟨l, Routine.place?_eq_some.2 ⟨t, ht, hc⟩, rfl⟩

/-- The instructions of a run. -/
theorem mem_codeOf {s : Span} {ins : Instr} :
    ins ∈ (r.code.drop s.first).take (s.last + 1 - s.first) ↔
      ∃ i, s.contains i = true ∧ r.code[i]? = some ins := by
  rw [List.mem_iff_getElem?]
  constructor
  · intro h
    obtain ⟨n, hn⟩ := h
    rw [List.getElem?_take, List.getElem?_drop] at hn
    split at hn
    next hlt => exact ⟨s.first + n, Span.contains_iff.2 (by omega), hn⟩
    next => cases hn
  · intro h
    obtain ⟨i, hi, hget⟩ := h
    rw [Span.contains_iff] at hi
    refine ⟨i - s.first, ?_⟩
    rw [List.getElem?_take, if_pos (by omega), List.getElem?_drop,
      show s.first + (i - s.first) = i by omega]
    exact hget

/-- The relations of a run are those to the runs that can follow it and to
the runs that guard it. -/
theorem mem_edgesFrom (hf : g.Fits r base) {k : Nat} {s : Span} (hs : r.spans[k]? = some s)
    {e : Edge} :
    e ∈ g.edgesFrom r (numbersFrom r base) (base + k) s ↔
      ∃ l, (e = ⟨base + k, base + l, .next⟩ ∧ r.Leads k l) ∨
        (e = ⟨base + k, base + l, .rescue⟩ ∧ r.Guards k l) := by
  have hinside : ∀ {l j : Nat} {t : Span}, r.spans[l]? = some t → t.contains j = true →
      j < r.code.length := by
    intro l j t ht hc
    have hlast := (Routine.mem_spans.1 (List.mem_of_getElem? ht)).2.2.1
    rw [Span.contains_iff] at hc
    omega
  simp only [edgesFrom, List.mem_append, List.mem_filterMap, List.mem_flatMap, mem_codeOf,
    map_holder?_eq_some hf]
  constructor
  · intro h
    rcases h with ⟨j, hj, l, t, ht, hc, rfl⟩ | ⟨ins, ⟨i, hi, hget⟩, j, hj, l, t, ht, hc, rfl⟩
    · cases hlast : r.code[s.last]? with
      | none => simp [hlast] at hj
      | some ins =>
          rw [hlast] at hj
          exact ⟨l, Or.inl ⟨rfl, s, t, j, hs, ht, ⟨hinside ht hc, ins, hlast, hj⟩, hc⟩⟩
    · exact ⟨l, Or.inr ⟨rfl, s, t, i, j, hs, ht, hi, ⟨hinside ht hc, ins, hget, hj⟩, hc⟩⟩
  · intro h
    rcases h with ⟨l, ⟨rfl, s', t, j, hs', ht, ⟨-, ins, hget, hj⟩, hc⟩ |
      ⟨rfl, s', t, i, j, hs', ht, hi, ⟨-, ins, hget, hj⟩, hc⟩⟩
    · obtain rfl : s = s' := Option.some.inj (hs.symm.trans hs')
      refine Or.inl ⟨j, ?_, l, t, ht, hc, rfl⟩
      rw [hget]
      exact hj
    · obtain rfl : s = s' := Option.some.inj (hs.symm.trans hs')
      exact Or.inr ⟨ins, ⟨i, hi, hget⟩, j, hj, l, t, ht, hc, rfl⟩

/-- Putting a routine in draws the relations between its runs and no
others. -/
theorem mem_edges_install {e : Edge} :
    e ∈ (g.install r).edges ↔
      e ∈ g.edges ∨ ∃ k l, (e = ⟨g.size + k, g.size + l, .next⟩ ∧ r.Leads k l) ∨
        (e = ⟨g.size + k, g.size + l, .rescue⟩ ∧ r.Guards k l) := by
  have hdrawn : e ∈ (g.install r).edges ↔
      e ∈ ((numbersFrom r g.size).zip r.spans).flatMap (fun p =>
        (g.grownBy r).edgesFrom r (numbersFrom r g.size) p.1 p.2) ∨ e ∈ g.edges :=
    mem_edges_linkAll (g := g.grownBy r)
  rw [hdrawn, or_comm, List.mem_flatMap]
  refine or_congr_right ⟨?_, ?_⟩
  · intro h
    obtain ⟨⟨id, s⟩, hmem, he⟩ := h
    obtain ⟨k, hk⟩ := List.mem_iff_getElem?.1 hmem
    obtain ⟨hid, hs⟩ := List.getElem?_zip_eq_some.1 hk
    rw [numbersFrom, List.getElem?_range' (List.getElem?_eq_some_iff.1 hs).1] at hid
    obtain rfl : g.size + k = id := by simpa using hid
    exact ⟨k, (mem_edgesFrom (fits_grownBy g r) hs).1 he⟩
  · intro h
    obtain ⟨k, l, he⟩ := h
    have hk : k < r.spans.length := by
      rcases he with ⟨-, s, _, _, hs, -⟩ | ⟨-, s, _, _, _, hs, -⟩ <;>
        exact (List.getElem?_eq_some_iff.1 hs).1
    have hs := List.getElem?_eq_getElem hk
    refine ⟨(g.size + k, r.spans[k]), ?_, (mem_edgesFrom (fits_grownBy g r) hs).2 ⟨l, he⟩⟩
    refine List.mem_iff_getElem?.2 ⟨k, List.getElem?_zip_eq_some.2 ⟨?_, hs⟩⟩
    rw [numbersFrom, List.getElem?_range' hk]
    simp

/-- What a graph keeps of a routine whose blocks are numbered from a
number on. -/
def entryFrom (r : Routine) (base : BlockNo) : Registered :=
  ⟨r.name, numbersFrom r base, r.exits.filterMap fun i => (r.place? i).map (base + ·)⟩

theorem find?_install (m : MethodNo) :
    (g.install r).methods.find? m =
      if m = r.method then some (entryFrom r g.size) else g.methods.find? m := by
  have hexits : r.exits.filterMap ((g.grownBy r).holder? (numbersFrom r g.size)) =
      r.exits.filterMap fun i => (r.place? i).map (g.size + ·) :=
    List.filterMap_congr fun i _ => holder?_eq (fits_grownBy g r) i
  rw [entryFrom, ← hexits]
  simp only [install, IdMap.find?_insert, linkAll_methods]
  rfl

end FlowGraph

end SymbolicSearch
