/-
The blocks of a graph divide up the code of its methods. However methods
come in, each registered method has blocks that cover its code without gap
or overlap, no block is of two methods, and an instruction is found in the
one block that holds it, now and ever after (`partition_run`).

# Who is asked

A loader that is asked for a method may know it, not know it or fail, but
what it hands over is the code of that method. So a routine comes in only
where its method is not registered yet (`not_registered_of_admits`), and a
block once listed under its method stays listed there (`Owned.act`).
-/
import SymbolicSearch.Proofs.Flow.Bisection
import SymbolicSearch.Proofs.Flow.Chronicle

namespace SymbolicSearch

-- ================================================================== tilings

namespace Span

/-- The runs follow one another without a gap from one index up to another,
none of them empty. -/
def Tile (stop : Nat) : Nat → List Span → Prop
  | start, [] => start = stop
  | start, s :: rest => s.first = start ∧ s.first ≤ s.last ∧ Tile stop (s.last + 1) rest

theorem tile_between {length : Nat} (a : Nat) (l : List Nat) (hl : (a :: l).Pairwise (· < ·))
    (hlt : ∀ x ∈ a :: l, x < length) : Tile length a (between length (a :: l)) := by
  induction l generalizing a with
  | nil =>
      have ha := hlt a List.mem_cons_self
      refine ⟨rfl, ?_, ?_⟩
      · show a ≤ length - 1
        omega
      · show length - 1 + 1 = length
        omega
  | cons b rest ih =>
      obtain ⟨hab, htail⟩ := List.pairwise_cons.1 hl
      have hnext : a < b := hab b List.mem_cons_self
      refine ⟨rfl, ?_, ?_⟩
      · show a ≤ b - 1
        omega
      · show Tile length (b - 1 + 1) (between length (b :: rest))
        rw [Nat.sub_add_cancel (by omega)]
        exact ih b htail fun x hx => hlt x (List.mem_cons_of_mem a hx)

theorem Tile.start_le {stop start : Nat} {l : List Span} (h : Tile stop start l) :
    ∀ t ∈ l, start ≤ t.first := by
  induction l generalizing start with
  | nil => simp
  | cons s rest ih =>
      obtain ⟨hfirst, hle, hrest⟩ := h
      intro t ht
      rcases List.mem_cons.1 ht with rfl | ht
      · omega
      · have := ih hrest t ht
        omega

/-- Runs without a gap do not overlap. -/
theorem Tile.disjoint {stop start : Nat} {l : List Span} (h : Tile stop start l) :
    l.Pairwise fun s t => s.last < t.first := by
  induction l generalizing start with
  | nil => exact .nil
  | cons s rest ih =>
      obtain ⟨-, -, hrest⟩ := h
      refine List.pairwise_cons.2 ⟨fun t ht => ?_, ih hrest⟩
      exact hrest.start_le t ht

end Span

namespace Routine

/-- The runs of a routine tile its code. -/
theorem tile_spans (r : Routine) : Span.Tile r.code.length 0 r.spans := by
  have hlt : ∀ x ∈ r.opens.toList, x < r.code.length := fun x hx => (mem_opens.1 hx).1
  unfold spans
  cases hopens : r.opens.toList with
  | nil =>
      -- no run begins, not even at the entry, so there is no code
      show 0 = r.code.length
      by_contra hne
      have hzero : 0 ∈ r.opens.toList := mem_opens.2 ⟨Nat.pos_of_ne_zero (Ne.symm hne), Or.inl rfl⟩
      rw [hopens] at hzero
      cases hzero
  | cons a l =>
      have hsorted : (a :: l).Pairwise (· < ·) := hopens ▸ opens_increasing
      have hzero : 0 ∈ a :: l := by
        have ha := hlt a (hopens ▸ List.mem_cons_self)
        rw [← hopens]
        exact mem_opens.2 ⟨by omega, Or.inl rfl⟩
      rw [hopens] at hlt
      obtain rfl : a = 0 := by
        rcases List.mem_cons.1 hzero with h | h
        · exact h.symm
        · exact absurd ((List.pairwise_cons.1 hsorted).1 0 h) (Nat.not_lt_zero a)
      exact Span.tile_between 0 l hsorted hlt

end Routine

/-- What the loader hands over for a method is the code of that method. -/
def Loader.IsHonest (load : Loader) : Prop := ∀ m r, load m = .ok (some r) → r.method = m

theorem Routine.isHonest_loader (routines : List Routine) : Loader.IsHonest (loader routines) := by
  intro m r h
  have hfound : (routines.reverse.find? fun r => r.method = m) = some r := Except.ok.inj h
  simpa using List.find?_some hfound

/-- The run that a block is made of. -/
def Block.span (b : Block) : Span := ⟨b.first, b.last⟩

theorem Block.span_of_bare {b : Block} {r : Routine} {id : BlockNo} {s : Span}
    (h : b.bare = Block.ofSpan r false id s) : b.span = s := by
  rw [span, first_of_bare h, last_of_bare h]

theorem Block.method_of_bare {b : Block} {r : Routine} {id : BlockNo} {s : Span}
    (h : b.bare = Block.ofSpan r false id s) : b.method = r.method := congrArg Block.method h

theorem Block.mem_sites {b : Block} {s : Site} (hle : b.first ≤ b.last) :
    s ∈ b.sites ↔ b.method = s.method ∧ b.holds s.index = true := by
  obtain ⟨m, i⟩ := s
  simp only [sites, size, holds, List.mem_map, List.mem_range'_1, Site.mk.injEq, Bool.and_eq_true,
    decide_eq_true_eq]
  constructor
  · intro h
    obtain ⟨j, hj, rfl, rfl⟩ := h
    exact ⟨rfl, by omega, by omega⟩
  · intro h
    exact ⟨i, by omega, h.1, rfl⟩

namespace FlowGraph

variable {g g' : FlowGraph} {r : Routine} {base id : Nat}

-- ========================================================= honest acts

/-- Every loader that the act asks is honest. -/
def Act.IsHonest : Act → Prop
  | .discover load _ => Loader.IsHonest load
  | .observe load _ _ _ => Loader.IsHonest load
  | _ => True

theorem not_registered_of_brought {load : Loader} {m : MethodNo} (hl : Loader.IsHonest load)
    (h : g.brought load m = some r) : g.methods.contains r.method = false := by
  obtain ⟨hm, hload⟩ := brought_eq_some.1 h
  rw [hl m r hload, hm]

/-- A routine comes in only where its method is not registered. -/
theorem not_registered_of_admits {a : Act} (ha : a.IsHonest) (h : g.admits a = some r) :
    g.methods.contains r.method = false := by
  cases a with
  | register r' =>
      simp only [admits] at h
      split at h
      next => cases h
      next hm =>
        obtain rfl := Option.some.inj h
        simpa using hm
  | discover load m => exact not_registered_of_brought ha h
  | observe load site back entry => exact not_registered_of_brought ha h
  | _ => cases h

-- ======================================================== blocks and owners

/-- Every block is listed under its method. -/
def Owned (g : FlowGraph) : Prop :=
  ∀ (id : Nat) (b : Block), g.blocks[id]? = some b → id ∈ g.blocksOf b.method

theorem Owned.of_alike (hg : g.Owned) (h : Alike g g') : g'.Owned := by
  intro id b' hb'
  obtain ⟨b, hb, heq⟩ := h.block hb'
  have hm : b'.bare.method = b.bare.method := by rw [heq]
  rw [show b'.method = b.method from hm, blocksOf, h.methods]
  exact hg id b hb

theorem Owned.linkAll (hg : g.Owned) (es : List Edge) : (g.linkAll es).Owned := by
  intro id b hb
  rw [linkAll_blocks] at hb
  rw [blocksOf, linkAll_methods]
  exact hg id b hb

theorem contains_of_mem_blocksOf {m : MethodNo} (h : id ∈ g.blocksOf m) :
    g.methods.contains m = true := by
  unfold blocksOf at h
  rw [IdMap.contains]
  cases hm : g.methods.find? m with
  | none =>
      rw [hm] at h
      cases h
  | some k => rfl

theorem Owned.install (hg : g.Owned) (hnew : g.methods.contains r.method = false) :
    (g.install r).Owned := by
  intro id b hb
  by_cases hid : id < g.size
  · rw [getElem?_install_of_lt hid] at hb
    have hmem := hg id b hb
    have hne : b.method ≠ r.method := by
      intro h
      rw [h] at hmem
      rw [contains_of_mem_blocksOf hmem] at hnew
      cases hnew
    rw [blocksOf, find?_install, if_neg hne]
    exact hmem
  · obtain ⟨k, rfl⟩ := Nat.exists_eq_add_of_le (Nat.le_of_not_lt hid)
    rw [getElem?_install_add] at hb
    obtain ⟨s, hs, rfl⟩ := Option.map_eq_some_iff.1 hb
    show g.size + k ∈ (g.install r).blocksOf r.method
    rw [blocksOf, find?_install, if_pos rfl]
    exact mem_numbersFrom.2 ⟨k, s, hs, rfl⟩

theorem Owned.act (hg : g.Owned) {a : Act} (ha : a.IsHonest) : (g.act a).Owned := by
  have hlarge : (g.enlarge (g.admits a)).Owned := by
    cases hr : g.admits a with
    | none => exact hg
    | some r => exact hg.install (not_registered_of_admits ha hr)
  exact (hlarge.linkAll _).of_alike (act_spec g a)

-- ================================================================= look-up

theorem blockAt_eq_ok {stmt : Stmt} :
    g.blockAt stmt = .ok id ↔
      ∃ k, g.methods.find? stmt.site.method = some k ∧
        g.holder? k.blocks stmt.site.index = some id := by
  unfold blockAt locate holder?
  cases g.methods.find? stmt.site.method with
  | none => simp [Except.map]
  | some k =>
      cases h : g.locate? k.blocks stmt.site.index with
      | none => simp [h, Except.map]
      | some found => simp [h, Except.map, Prod.ext_iff]

/-- A statement of a standing routine is found by the place of its run. -/
theorem Stands.blockAt_place (hs : g.Stands r base) {stmt : Stmt}
    (hm : stmt.site.method = r.method) :
    g.blockAt stmt = .ok id ↔ (r.place? stmt.site.index).map (base + ·) = some id := by
  rw [blockAt_eq_ok, hm, hs.entry]
  simp only [Option.some.injEq, exists_eq_left']
  show g.holder? (numbersFrom r base) stmt.site.index = some id ↔ _
  rw [holder?_eq hs.fits]

/-- A statement of a standing routine is found in the block of its run. -/
theorem Stands.blockAt_iff (hs : g.Stands r base) {stmt : Stmt} (hm : stmt.site.method = r.method) :
    g.blockAt stmt = .ok id ↔
      ∃ (k : Nat) (s : Span), r.spans[k]? = some s ∧ s.contains stmt.site.index = true ∧
        id = base + k := by
  rw [hs.blockAt_place hm, Option.map_eq_some_iff]
  constructor
  · intro h
    obtain ⟨k, hk, rfl⟩ := h
    obtain ⟨s, hs, hc⟩ := Routine.place?_eq_some.1 hk
    exact ⟨k, s, hs, hc, rfl⟩
  · intro h
    obtain ⟨k, s, hs, hc, rfl⟩ := h
    exact ⟨k, Routine.place?_eq_some.2 ⟨s, hs, hc⟩, rfl⟩

theorem Stands.blocksOf (hs : g.Stands r base) : g.blocksOf r.method = numbersFrom r base := by
  rw [FlowGraph.blocksOf, hs.entry]
  rfl

/-- The exits of a standing routine are the blocks of the instructions that
leave, looked up one after another. -/
theorem Stands.exitsOf (hs : g.Stands r base) :
    g.exitsOf r.method = r.exits.filterMap fun i => (r.place? i).map (base + ·) := by
  rw [FlowGraph.exitsOf, hs.entry]
  rfl

/-- The blocks of a standing routine are its runs. -/
theorem Stands.map_span (hs : g.Stands r base) :
    (g.blocksOf r.method).map (fun id => g.blocks[id]?.map Block.span) = r.spans.map some := by
  rw [hs.blocksOf]
  apply List.ext_getElem?
  intro k
  rw [List.getElem?_map, List.getElem?_map]
  by_cases hk : k < r.spans.length
  · obtain ⟨b, hb, heq⟩ := hs.fits.block (List.getElem?_eq_getElem hk)
    rw [getElem?_numbersFrom hk, List.getElem?_eq_getElem hk]
    simp [hb, Block.span_of_bare heq]
  · have hlength : (numbersFrom r base).length ≤ k := by
      rw [length_numbersFrom]
      omega
    rw [List.getElem?_eq_none hlength, List.getElem?_eq_none (by omega)]
    rfl

theorem bisect?_nil (index : Nat) : g.bisect? [] index = none := by
  rw [bisect?, turningPoint]
  rfl

theorem block?_of_lt (hid : id < numberBound) : g.block? id = g.blocks[id]? := by
  rw [block?, Nat.mod_eq_of_lt hid]

namespace Chronicle

variable {c : Chronicle} {m : MethodNo} {b : Block}

-- ============================================================== a chronicle

/-- A registered method has a routine, and it stands. -/
theorem Sound.exists_routine (hc : c.Sound) (h : c.graph.methods.contains m = true) :
    ∃ r base, c.routines.find? m = some r ∧ r.method = m ∧ c.graph.Stands r base := by
  rw [IdMap.contains, hc.known m, Option.isSome_iff_exists] at h
  obtain ⟨r, hr⟩ := h
  obtain ⟨hm, base, hs⟩ := hc.stands m r hr
  exact ⟨r, base, hr, hm, hs⟩

/-- A block that is listed under a method is a run of the method's
routine. -/
theorem Sound.exists_run (hc : c.Sound) (hmem : id ∈ c.graph.blocksOf m)
    (hb : c.graph.blocks[id]? = some b) :
    ∃ r base k s, r.method = m ∧ c.graph.Stands r base ∧ r.spans[k]? = some s ∧ id = base + k ∧
      b.bare = Block.ofSpan r false id s := by
  obtain ⟨r, base, -, rfl, hs⟩ := hc.exists_routine (contains_of_mem_blocksOf hmem)
  rw [hs.blocksOf] at hmem
  obtain ⟨k, s, hk, rfl⟩ := mem_numbersFrom.1 hmem
  obtain ⟨b', hb', heq⟩ := hs.fits.block hk
  obtain rfl := Option.some.inj (hb.symm.trans hb')
  exact ⟨r, base, k, s, rfl, hs, hk, rfl, heq⟩

/-- A statement is found in a block just if the block is of its method and
holds its index. -/
theorem Sound.blockAt_iff (hc : c.Sound) (ho : c.graph.Owned) {stmt : Stmt} :
    c.graph.blockAt stmt = .ok id ↔
      ∃ B, c.graph.blocks[id]? = some B ∧ B.method = stmt.site.method ∧
        B.holds stmt.site.index = true := by
  constructor
  · intro h
    obtain ⟨entry, hentry, -⟩ := blockAt_eq_ok.1 h
    obtain ⟨r, base, -, hm, hs⟩ := hc.exists_routine (IdMap.contains_iff.2 ⟨entry, hentry⟩)
    obtain ⟨k, s, hk, hin, rfl⟩ := (hs.blockAt_iff hm.symm).1 h
    obtain ⟨B, hB, heq⟩ := hs.fits.block hk
    refine ⟨B, hB, (Block.method_of_bare heq).trans hm, ?_⟩
    rw [Block.holds_of_bare heq, hin]
  · intro h
    obtain ⟨B, hB, hm, hholds⟩ := h
    obtain ⟨r, base, k, s, hr, hs, hk, rfl, heq⟩ := hc.exists_run (ho id B hB) hB
    refine (hs.blockAt_iff (hm.symm.trans hr.symm)).2 ⟨k, s, hk, ?_, rfl⟩
    rw [← Block.holds_of_bare heq, hholds]

/-- A statement is found just if its method is registered with code that
reaches up to it. -/
theorem Sound.located_iff (hc : c.Sound) {stmt : Stmt} :
    (∃ id, c.graph.blockAt stmt = .ok id) ↔
      ∃ r, c.routines.find? stmt.site.method = some r ∧ stmt.site.index < r.code.length := by
  constructor
  · intro h
    obtain ⟨id, hid⟩ := h
    obtain ⟨entry, hentry, -⟩ := blockAt_eq_ok.1 hid
    obtain ⟨r, base, hr, hm, hs⟩ := hc.exists_routine (IdMap.contains_iff.2 ⟨entry, hentry⟩)
    obtain ⟨k, s, hk, hin, -⟩ := (hs.blockAt_iff hm.symm).1 hid
    have hlast := (Routine.mem_spans.1 (List.mem_of_getElem? hk)).2.2.1
    rw [Span.contains_iff] at hin
    exact ⟨r, hr, by omega⟩
  · intro h
    obtain ⟨r, hr, hlt⟩ := h
    obtain ⟨hm, base, hs⟩ := hc.stands _ r hr
    obtain ⟨k, s, hk, hin⟩ := Routine.exists_place hlt
    exact ⟨base + k, (hs.blockAt_iff hm.symm).2 ⟨k, s, hk, hin, rfl⟩⟩

/-- What a statement is found in, it is found in after any honest act. -/
theorem Sound.blockAt_act (hc : c.Sound) {a : Act} (ha : a.IsHonest) {stmt : Stmt}
    (h : c.graph.blockAt stmt = .ok id) : (c.act a).graph.blockAt stmt = .ok id := by
  obtain ⟨entry, hentry, -⟩ := blockAt_eq_ok.1 h
  have hknown : c.graph.methods.contains stmt.site.method = true :=
    IdMap.contains_iff.2 ⟨entry, hentry⟩
  obtain ⟨r, base, -, hm, hs⟩ := hc.exists_routine hknown
  have hother : ∀ r', c.graph.admits a = some r' → r'.method ≠ r.method := by
    intro r' hr' heq
    have hnew := not_registered_of_admits ha hr'
    rw [heq, hm, hknown] at hnew
    cases hnew
  have hs' : (c.act a).graph.Stands r base := stands_act hc.closed hs hother
  exact (hs'.blockAt_iff hm.symm).2 ((hs.blockAt_iff hm.symm).1 h)

/-- The blocks of a graph divide up the code of its methods. -/
structure Partitioned (c : Chronicle) : Prop where
  /-- Just the methods with a routine are registered. -/
  registered : ∀ m, c.graph.methods.contains m = true ↔ ∃ r, c.routines.find? m = some r
  /-- In the order in which they are listed, the blocks of a method cover
  its code from the first instruction to the last, none of them empty,
  without gap or overlap. -/
  tiled : ∀ m r, c.routines.find? m = some r → ∃ l : List Span,
    (c.graph.blocksOf m).map (fun id => c.graph.blocks[id]?.map Block.span) = l.map some ∧
      Span.Tile r.code.length 0 l ∧ l.Pairwise fun s t => s.last < t.first
  /-- Every block is listed under its own method and under no other. -/
  owned : ∀ (id : Nat) b, c.graph.blocks[id]? = some b →
    ∀ m, id ∈ c.graph.blocksOf m ↔ m = b.method
  /-- A block bears the number that it is asked for by. -/
  numbered : ∀ (id : Nat) b, c.graph.blocks[id]? = some b →
    b.id = id ∧ (id < numberBound → c.graph.block? id = some b)
  /-- A statement has a block just if its method's code reaches up to it. -/
  located : ∀ stmt : Stmt, (∃ id, c.graph.blockAt stmt = .ok id) ↔
    ∃ r, c.routines.find? stmt.site.method = some r ∧ stmt.site.index < r.code.length
  /-- The block of a statement is the one that is of its method and holds
  its index. -/
  held : ∀ (stmt : Stmt) id, c.graph.blockAt stmt = .ok id ↔
    ∃ b, c.graph.blocks[id]? = some b ∧ b.method = stmt.site.method ∧
      b.holds stmt.site.index = true
  /-- It is the block that has the statement's site among its own. -/
  sited : ∀ (stmt : Stmt) id, id < c.graph.size → id < numberBound →
    (c.graph.blockAt stmt = .ok id ↔ stmt.site ∈ c.graph.sitesOf id)
  /-- Halving a method's list of blocks finds it too. -/
  bisected : ∀ m index,
    c.graph.bisect? (c.graph.blocksOf m) index = c.graph.holder? (c.graph.blocksOf m) index

theorem Sound.partitioned (hc : c.Sound) (ho : c.graph.Owned) : c.Partitioned := by
  refine ⟨fun m => ?_, fun m r hr => ?_, fun id b hb m => ?_, fun id b hb => ?_,
    fun stmt => hc.located_iff, fun stmt id => hc.blockAt_iff ho, fun stmt id hid hbound => ?_,
    fun m index => ?_⟩
  · rw [IdMap.contains, hc.known m, Option.isSome_iff_exists]
  · obtain ⟨rfl, base, hs⟩ := hc.stands m r hr
    exact ⟨r.spans, hs.map_span, r.tile_spans, r.tile_spans.disjoint⟩
  · constructor
    · intro hmem
      obtain ⟨r, base, k, s, rfl, -, -, -, heq⟩ := hc.exists_run hmem hb
      exact (Block.method_of_bare heq).symm
    · intro hm
      rw [hm]
      exact ho id b hb
  · exact ⟨hc.closed.numbered id b hb, fun hbound => (block?_of_lt hbound).trans hb⟩
  · obtain ⟨b, hb⟩ := lt_size_iff.1 hid
    obtain ⟨r, base, k, s, -, -, hk, -, heq⟩ := hc.exists_run (ho id b hb) hb
    have hle : b.first ≤ b.last := by
      rw [Block.first_of_bare heq, Block.last_of_bare heq]
      exact (Routine.mem_spans.1 (List.mem_of_getElem? hk)).2.1
    rw [hc.blockAt_iff ho, sitesOf, block?_of_lt hbound, hb, Option.map_some, Option.getD_some,
      Block.mem_sites hle]
    simp
  · cases hm : c.graph.methods.contains m with
    | true =>
        obtain ⟨r, base, -, rfl, hs⟩ := hc.exists_routine hm
        rw [hs.blocksOf, bisect?_eq_holder? hs.fits]
    | false =>
        have hnil : c.graph.blocksOf m = [] := by
          rw [blocksOf, IdMap.contains_eq_false.1 hm]
          rfl
        rw [hnil, bisect?_nil]
        rfl

end Chronicle

-- =================================================================== a run

theorem owned_chronicle (as : List Act) (has : ∀ a ∈ as, a.IsHonest) :
    (chronicle as).graph.Owned := by
  induction as using List.reverseRecOn with
  | nil =>
      intro id b hb
      simp [chronicle, empty] at hb
  | append_singleton as a ih =>
      rw [List.forall_mem_append] at has
      rw [chronicle_concat]
      exact (ih has.1).act (has.2 a (List.mem_singleton_self a))

theorem blockAt_chronicle (as bs : List Act) (hbs : ∀ a ∈ bs, a.IsHonest) {stmt : Stmt}
    (h : (chronicle as).graph.blockAt stmt = .ok id) :
    (chronicle (as ++ bs)).graph.blockAt stmt = .ok id := by
  induction bs using List.reverseRecOn with
  | nil => rwa [List.append_nil]
  | append_singleton bs b ih =>
      rw [List.forall_mem_append] at hbs
      rw [← List.append_assoc, chronicle_concat]
      exact (sound_chronicle _).blockAt_act (hbs.2 b (List.mem_singleton_self b)) (ih hbs.1)

/-- However methods come in through honest loaders, the blocks of a graph
divide up the code of its methods; whatever block a statement is found in,
it is found in ever after; and every routine is cut into runs that stay
inside its code and are not empty. -/
theorem partition_run (as bs : List Act) (hhonest : ∀ a ∈ as ++ bs, a.IsHonest) :
    (chronicle as).Partitioned ∧
      (∀ stmt id, (chronicle as).graph.blockAt stmt = .ok id →
        (chronicle (as ++ bs)).graph.blockAt stmt = .ok id) ∧
      ∀ r : Routine, Span.Tile r.code.length 0 r.spans ∧
        ∀ s ∈ r.spans, s.first ≤ s.last ∧ s.last < r.code.length := by
  rw [List.forall_mem_append] at hhonest
  refine ⟨(sound_chronicle as).partitioned (owned_chronicle as hhonest.1),
    fun stmt id => blockAt_chronicle as bs hhonest.2, fun r => ⟨r.tile_spans, fun s hs => ?_⟩⟩
  obtain ⟨-, hle, hlt, -⟩ := Routine.mem_spans.1 hs
  exact ⟨hle, hlt⟩

/-- A routine whose last two instructions both leave, the last of them a
handler, and one with no code at all. -/
def guarded : Routine :=
  ⟨3, "guarded", [⟨.plain, [1], [3]⟩, ⟨.call, [2], []⟩, ⟨.leave, [], []⟩, ⟨.throw, [], []⟩]⟩

def codeless : Routine := ⟨5, "codeless", []⟩

/-- The routines come in behind one another, one of them through a call,
and more methods after them. -/
theorem partition_run_guarded :
    (chronicle [.register codeless, .observe (Routine.loader [guarded]) (.instr ⟨5, 0⟩)
        (.instr ⟨3, 2⟩) (.methodEntry ⟨3, 0⟩)]).Partitioned ∧
      (chronicle ([.register codeless, .observe (Routine.loader [guarded]) (.instr ⟨5, 0⟩)
        (.instr ⟨3, 2⟩) (.methodEntry ⟨3, 0⟩)] ++
        [.register ⟨4, "late", [⟨.leave, [], []⟩]⟩, .discover (Routine.loader [guarded]) 3])
        ).graph.blockAt (.concreteCall ⟨3, 3⟩) = .ok 2 := by
  have hrun := partition_run
    [.register codeless, .observe (Routine.loader [guarded]) (.instr ⟨5, 0⟩) (.instr ⟨3, 2⟩)
      (.methodEntry ⟨3, 0⟩)]
    [.register ⟨4, "late", [⟨.leave, [], []⟩]⟩, .discover (Routine.loader [guarded]) 3] (by
      intro a ha
      simp only [List.mem_append, List.mem_cons, List.not_mem_nil, or_false] at ha
      rcases ha with (rfl | rfl) | rfl | rfl
      · trivial
      · exact Routine.isHonest_loader _
      · trivial
      · exact Routine.isHonest_loader _)
  exact ⟨hrun.1, hrun.2.1 _ _ rfl⟩

end FlowGraph

end SymbolicSearch
