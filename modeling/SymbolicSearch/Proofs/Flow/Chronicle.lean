/-
All that can happen to a flow graph, in any order, and what every graph
that can arise has in common.

# One step

Whatever happens to a graph is three things in a row (`act_spec`): a
routine is admitted or not, relations of a call are drawn or not, and
marks are set. `Closed` and `Stands` are kept by each of the three, and
so by every step; and no step takes a block away or touches its code
(`grows_act`).

# A whole run

A chronicle is a graph with the routine that each of its methods was
registered with last. The graph itself forgets the code once its blocks
are cut; the chronicle remembers it, so that the two can be compared
(`sound_chronicle`): the blocks of a registered routine stay where they
were put, and so do the relations between them.
-/
import Mathlib.Data.List.Induction
import SymbolicSearch.Proofs.Flow.Growth

namespace SymbolicSearch.FlowGraph

variable {g g' : FlowGraph} {r r' : Routine} {base : Nat}

-- ================================================================ the acts

/-- What can happen to a flow graph: a method comes in, a call is seen to
happen, coverage is set, or a state moves or goes. -/
inductive Act
  | register (r : Routine)
  | discover (load : Loader) (m : MethodNo)
  | observe (load : Loader) (site back entry : Stmt)
  | enterZone (m : MethodNo)
  | clearZone
  | cover (id : Nat)
  | uncover
  | follow (t : Trail) (h : Handle) (step : Nat)
  | leave (t : Trail)

/-- The graph after an act. One that fails leaves what it has done so far. -/
def act (g : FlowGraph) : Act → FlowGraph
  | .register r => g.register r
  | .discover load m =>
    match g.discover load m with
    | .ok g' => g'
    | .error _ => g
  | .observe load site back entry => (g.observe load site back entry).1
  | .enterZone m => g.enterZone m
  | .clearZone => g.clearZone
  | .cover id => g.cover id
  | .uncover => g.uncover
  | .follow t h step =>
    match t.follow h step g with
    | .ok (_, g') => g'
    | .error _ => g
  | .leave t => t.leave g

/-- The routine that a loader brings into a graph when asked for a method. -/
def brought (g : FlowGraph) (load : Loader) (m : MethodNo) : Option Routine :=
  if g.methods.contains m then none
  else
    match load m with
    | .ok found => found
    | .error _ => none

/-- The routine that an act puts into a graph, if it puts one in. -/
def admits (g : FlowGraph) : Act → Option Routine
  | .register r => if g.methods.contains r.method then none else some r
  | .discover load m => g.brought load m
  | .observe load _ _ entry => g.brought load entry.site.method
  | _ => none

/-- The graph with a routine put in, if there is one. -/
def enlarge (g : FlowGraph) : Option Routine → FlowGraph
  | none => g
  | some r => g.install r

/-- The relations of a call between three statements, if each has a
block. -/
def callsBetween (g : FlowGraph) (site back entry : Stmt) : List Edge :=
  match g.blockAt site, g.blockAt entry, g.blockAt back with
  | .ok s, .ok e, .ok b => g.callEdges s e b entry.site.method
  | _, _, _ => []

/-- The relations that an act draws. -/
def drawn (g : FlowGraph) : Act → List Edge
  | .observe load site back entry =>
    match g.discover load entry.site.method with
    | .error _ => []
    | .ok g' => g'.callsBetween site back entry
  | _ => []

theorem discover_eq_ok {load : Loader} {m : MethodNo} (h : g.discover load m = .ok g') :
    g' = g.enlarge (g.brought load m) := by
  unfold discover at h
  unfold brought
  split at h
  next hm =>
    rw [if_pos hm]
    exact (Except.ok.inj h).symm
  next hm =>
    rw [if_neg hm]
    cases hl : load m with
    | error e => simp [hl] at h
    | ok found =>
        cases found with
        | none => simp [hl] at h
        | some r =>
            rw [hl] at h
            exact (Except.ok.inj h).symm

/-- What is brought in is what the loader hands over for a method that is not
registered. -/
theorem brought_eq_some {load : Loader} {m : MethodNo} :
    g.brought load m = some r ↔ g.methods.contains m = false ∧ load m = .ok (some r) := by
  unfold brought
  cases hm : g.methods.contains m with
  | true => simp
  | false =>
      cases hl : load m with
      | error e => simp
      | ok found => simp

theorem brought_of_error {load : Loader} {m : MethodNo} {e : Fault}
    (h : g.discover load m = .error e) : g.brought load m = none := by
  unfold discover at h
  unfold brought
  split at h
  next => cases h
  next hm =>
    rw [if_neg hm]
    cases hl : load m with
    | error e => rfl
    | ok found =>
        cases found with
        | none => rfl
        | some r => simp [hl] at h

theorem observe_fst (g : FlowGraph) (load : Loader) (site back entry : Stmt) :
    (g.observe load site back entry).1 =
      (g.enlarge (g.brought load entry.site.method)).linkAll
        (g.drawn (.observe load site back entry)) := by
  cases hd : g.discover load entry.site.method with
  | error e =>
      simp only [observe, drawn, hd, brought_of_error hd]
      rfl
  | ok g' =>
      simp only [observe, drawn, callsBetween, hd, ← discover_eq_ok hd]
      cases hs : g'.blockAt site <;> cases he : g'.blockAt entry <;>
        cases hb : g'.blockAt back <;> rfl

/-- Every act is an admission, a drawing of relations and a setting of
marks. -/
theorem act_spec (g : FlowGraph) (a : Act) :
    Alike ((g.enlarge (g.admits a)).linkAll (g.drawn a)) (g.act a) := by
  cases a with
  | register r =>
      show Alike (g.enlarge (if g.methods.contains r.method then none else some r)) (g.register r)
      unfold register
      split <;> exact Alike.refl _
  | discover load m =>
      show Alike (g.enlarge (g.brought load m)) _
      simp only [act]
      cases hd : g.discover load m with
      | error e =>
          rw [brought_of_error hd]
          exact Alike.refl g
      | ok g' =>
          rw [← discover_eq_ok hd]
          exact Alike.refl g'
  | observe load site back entry =>
      show Alike _ (g.observe load site back entry).1
      rw [observe_fst]
      exact Alike.refl _
  | enterZone m => exact alike_enterZone g m
  | clearZone => exact alike_clearZone g
  | cover id => exact alike_cover g id
  | uncover => exact alike_uncover g
  | follow t h step =>
      show Alike g _
      simp only [act]
      cases hf : t.follow h step g with
      | error e => exact Alike.refl g
      | ok moved => exact alike_follow hf
  | leave t => exact alike_vacate g t.state t.block

-- ================================================================== growth

/-- Every block of the one graph is a block of the other, with the same
code. -/
def Grows (g g' : FlowGraph) : Prop :=
  ∀ i < g.size, g'.blocks[i]?.map Block.bare = g.blocks[i]?.map Block.bare

theorem Alike.grows (h : Alike g g') : g.Grows g' := fun i _ => h.bare i

theorem grows_refl (g : FlowGraph) : g.Grows g := (Alike.refl g).grows

/-- A block has a counterpart in every later graph. -/
theorem Grows.block (h : g.Grows g') {i : Nat} {B : Block} (hB : g.blocks[i]? = some B) :
    ∃ B', g'.blocks[i]? = some B' ∧ B'.bare = B.bare := by
  have hi := h i (lt_size_iff.2 ⟨B, hB⟩)
  rw [hB, Option.map_some] at hi
  exact Option.map_eq_some_iff.1 hi

theorem Grows.lt_size (h : g.Grows g') {i : Nat} (hi : i < g.size) : i < g'.size := by
  obtain ⟨B, hB⟩ := lt_size_iff.1 hi
  obtain ⟨B', hB', -⟩ := h.block hB
  exact lt_size_iff.2 ⟨B', hB'⟩

theorem Grows.trans {g'' : FlowGraph} (h : g.Grows g') (h' : g'.Grows g'') : g.Grows g'' :=
  fun i hi => (h' i (h.lt_size hi)).trans (h i hi)

theorem grows_enlarge (g : FlowGraph) (o : Option Routine) : g.Grows (g.enlarge o) := by
  cases o with
  | none => exact grows_refl g
  | some r =>
      intro i hi
      rw [enlarge, getElem?_install_of_lt hi]

theorem grows_linkAll (g : FlowGraph) (es : List Edge) : g.Grows (g.linkAll es) := by
  intro i hi
  rw [linkAll_blocks]

/-- Whatever happens to a graph, its blocks keep their code. -/
theorem grows_act (g : FlowGraph) (a : Act) : g.Grows (g.act a) :=
  ((grows_enlarge g _).trans (grows_linkAll _ _)).trans (act_spec g a).grows

-- ========================================================== nothing dangles

/-- Blocks are numbered by position; relations and exits name blocks that
the graph has. -/
structure Closed (g : FlowGraph) : Prop where
  numbered : ∀ (i : Nat) (b : Block), g.blocks[i]? = some b → b.id = i
  edge : ∀ e ∈ g.edges, e.source < g.size ∧ e.target < g.size
  exit : ∀ m k, g.methods.find? m = some k → ∀ x ∈ k.exits, x < g.size

theorem closed_empty : empty.Closed :=
  ⟨fun i b h => by simp [empty] at h, by simp [empty], fun m k h => by simp [empty] at h⟩

theorem Closed.of_alike (hg : g.Closed) (h : Alike g g') : g'.Closed := by
  refine ⟨fun i b' hb' => ?_, fun e he => ?_, fun m k hk x hx => ?_⟩
  · obtain ⟨b, hb, heq⟩ := h.block hb'
    have hid : b'.bare.id = b.bare.id := by rw [heq]
    exact hid.trans (hg.numbered i b hb)
  · rw [h.size]
    exact hg.edge e (h.edges ▸ he)
  · rw [h.size]
    exact hg.exit m k (h.methods ▸ hk) x hx

theorem Closed.linkAll (hg : g.Closed) {es : List Edge}
    (hes : ∀ e ∈ es, e.source < g.size ∧ e.target < g.size) : (g.linkAll es).Closed := by
  refine ⟨fun i b hb => ?_, fun e he => ?_, fun m k hk x hx => ?_⟩
  · rw [linkAll_blocks] at hb
    exact hg.numbered i b hb
  · rw [linkAll_size]
    exact (mem_edges_linkAll.1 he).elim (hes e) (hg.edge e)
  · rw [linkAll_size]
    rw [linkAll_methods] at hk
    exact hg.exit m k hk x hx

/-- The place of a run is below the number of runs. -/
theorem place?_lt {i k : Nat} (h : r.place? i = some k) : k < r.spans.length := by
  obtain ⟨s, hs, -⟩ := Routine.place?_eq_some.1 h
  exact (List.getElem?_eq_some_iff.1 hs).1

theorem Closed.install (hg : g.Closed) (r : Routine) : (g.install r).Closed := by
  refine ⟨fun i b hb => ?_, fun e he => ?_, fun m k hk x hx => ?_⟩
  · by_cases hi : i < g.size
    · rw [getElem?_install_of_lt hi] at hb
      exact hg.numbered i b hb
    · obtain ⟨k, rfl⟩ := Nat.exists_eq_add_of_le (Nat.le_of_not_lt hi)
      rw [getElem?_install_add] at hb
      obtain ⟨s, -, rfl⟩ := Option.map_eq_some_iff.1 hb
      rfl
  · rw [size_install]
    rcases mem_edges_install.1 he with he | ⟨k, l, ⟨rfl, h⟩ | ⟨rfl, h⟩⟩
    · have hold := hg.edge e he
      exact ⟨Nat.lt_add_right _ hold.1, Nat.lt_add_right _ hold.2⟩
    · obtain ⟨s, t, j, hs, ht, -⟩ := h
      have hk := (List.getElem?_eq_some_iff.1 hs).1
      have hl := (List.getElem?_eq_some_iff.1 ht).1
      exact ⟨Nat.add_lt_add_left hk _, Nat.add_lt_add_left hl _⟩
    · obtain ⟨s, t, i, j, hs, ht, -⟩ := h
      have hk := (List.getElem?_eq_some_iff.1 hs).1
      have hl := (List.getElem?_eq_some_iff.1 ht).1
      exact ⟨Nat.add_lt_add_left hk _, Nat.add_lt_add_left hl _⟩
  · rw [size_install]
    rw [find?_install] at hk
    split at hk
    next =>
      obtain rfl := Option.some.inj hk
      obtain ⟨i, -, hi⟩ := List.mem_filterMap.1 hx
      obtain ⟨k, hk, rfl⟩ := Option.map_eq_some_iff.1 hi
      exact Nat.add_lt_add_left (place?_lt hk) _
    next => exact Nat.lt_add_right _ (hg.exit m k hk x hx)

theorem Closed.enlarge (hg : g.Closed) (o : Option Routine) : (g.enlarge o).Closed := by
  cases o with
  | none => exact hg
  | some r => exact hg.install r

/-- What is found for a statement is a block of the graph. -/
theorem block_of_locate {stmt : Stmt} {id : Nat} {b : Block} (h : g.locate stmt = .ok (id, b)) :
    g.blocks[id]? = some b := by
  unfold locate at h
  split at h
  next found hfound =>
    obtain rfl := Except.ok.inj h
    obtain ⟨m, -, hm⟩ := Option.bind_eq_some_iff.1 hfound
    obtain ⟨id', -, hid⟩ := List.exists_of_findSome?_eq_some hm
    obtain ⟨b', hb', heq⟩ := Option.map_eq_some_iff.1 hid
    obtain ⟨rfl, rfl⟩ := Prod.mk.inj heq
    exact (Option.filter_eq_some_iff.1 hb').1
  next => cases h

theorem lt_size_of_blockAt {stmt : Stmt} {id : Nat} (h : g.blockAt stmt = .ok id) :
    id < g.size := by
  unfold blockAt at h
  cases hl : g.locate stmt with
  | error e => simp [hl, Except.map] at h
  | ok found =>
      rw [hl] at h
      obtain rfl := Except.ok.inj h
      exact lt_size_iff.2 ⟨_, block_of_locate hl⟩

/-- The relations of a call name blocks of the graph and are of a call. -/
theorem mem_callsBetween (hg : g.Closed) {site back entry : Stmt} {e : Edge}
    (he : e ∈ g.callsBetween site back entry) :
    (e.relation = .call ∨ e.relation = .back) ∧ e.source < g.size ∧ e.target < g.size := by
  unfold callsBetween at he
  split at he
  next s x b hs hx hb =>
    rcases List.mem_cons.1 he with rfl | he
    · exact ⟨Or.inl rfl, lt_size_of_blockAt hs, lt_size_of_blockAt hx⟩
    · obtain ⟨y, hy, rfl⟩ := List.mem_map.1 he
      refine ⟨Or.inr rfl, ?_, lt_size_of_blockAt hb⟩
      unfold exitsOf at hy
      cases hk : g.methods.find? entry.site.method with
      | none => simp [hk] at hy
      | some k =>
          rw [hk] at hy
          exact hg.exit _ k hk y hy
  next => cases he

theorem mem_drawn (hg : g.Closed) {a : Act} {e : Edge} (he : e ∈ g.drawn a) :
    (e.relation = .call ∨ e.relation = .back) ∧
      e.source < (g.enlarge (g.admits a)).size ∧ e.target < (g.enlarge (g.admits a)).size := by
  cases a with
  | observe load site back entry =>
      simp only [drawn] at he
      cases hd : g.discover load entry.site.method with
      | error f => simp [hd] at he
      | ok g' =>
          rw [hd] at he
          obtain rfl := discover_eq_ok hd
          exact mem_callsBetween (hg.enlarge _) he
  | _ => cases he

theorem Closed.act (hg : g.Closed) (a : Act) : (g.act a).Closed :=
  ((hg.enlarge _).linkAll fun _ he => (mem_drawn hg he).2).of_alike (act_spec g a)

-- ====================================================== a routine's blocks

/-- A routine stands in a graph: its method is registered with its blocks,
numbered from a number on, and these are related as its runs are. -/
structure Stands (g : FlowGraph) (r : Routine) (base : Nat) : Prop where
  entry : g.methods.find? r.method = some (entryFrom r base)
  fits : g.Fits r base
  next : ∀ k b, k < r.spans.length →
    ((⟨base + k, b, .next⟩ : Edge) ∈ g.edges ↔ ∃ l, b = base + l ∧ r.Leads k l)
  rescue : ∀ k b, k < r.spans.length →
    ((⟨base + k, b, .rescue⟩ : Edge) ∈ g.edges ↔ ∃ l, b = base + l ∧ r.Guards k l)

theorem Stands.of_alike (hs : g.Stands r base) (h : Alike g g') : g'.Stands r base :=
  ⟨h.methods ▸ hs.entry, hs.fits.of_alike h, h.edges ▸ hs.next, h.edges ▸ hs.rescue⟩

theorem Stands.linkAll (hs : g.Stands r base) {es : List Edge}
    (hes : ∀ e ∈ es, e.relation = .call ∨ e.relation = .back) : (g.linkAll es).Stands r base := by
  have hold : ∀ {e : Edge}, e.relation = .next ∨ e.relation = .rescue →
      (e ∈ (g.linkAll es).edges ↔ e ∈ g.edges) := by
    intro e he
    rw [mem_edges_linkAll]
    refine or_iff_right fun hmem => ?_
    rcases he with he | he <;> rcases hes e hmem with he' | he' <;> rw [he] at he' <;> cases he'
  refine ⟨by rw [linkAll_methods]; exact hs.entry, ?_, fun k b hk => ?_, fun k b hk => ?_⟩
  · rw [Fits, linkAll_blocks]
    exact hs.fits
  · rw [hold (Or.inl rfl)]
    exact hs.next k b hk
  · rw [hold (Or.inr rfl)]
    exact hs.rescue k b hk

/-- A run's block is a block of the graph. -/
theorem Fits.lt_size (hf : g.Fits r base) {k : Nat} (hk : k < r.spans.length) :
    base + k < g.size := by
  obtain ⟨b, hb, -⟩ := hf.block (List.getElem?_eq_getElem hk)
  exact lt_size_iff.2 ⟨b, hb⟩

/-- Relations out of a block that was there are the ones it had. -/
theorem mem_edges_install_of_lt {e : Edge} (he : e.source < g.size) :
    e ∈ (g.install r).edges ↔ e ∈ g.edges := by
  rw [mem_edges_install]
  refine or_iff_left ?_
  intro h
  obtain ⟨k, l, ⟨rfl, -⟩ | ⟨rfl, -⟩⟩ := h
  · exact absurd he (Nat.not_lt.2 (Nat.le_add_right _ _))
  · exact absurd he (Nat.not_lt.2 (Nat.le_add_right _ _))

theorem Stands.install (hs : g.Stands r base) (hne : r'.method ≠ r.method) :
    (g.install r').Stands r base := by
  refine ⟨?_, fun k s hk => ?_, fun k b hk => ?_, fun k b hk => ?_⟩
  · rw [find?_install, if_neg hne.symm]
    exact hs.entry
  · rw [getElem?_install_of_lt (hs.fits.lt_size (List.getElem?_eq_some_iff.1 hk).1)]
    exact hs.fits k s hk
  · rw [mem_edges_install_of_lt (hs.fits.lt_size hk)]
    exact hs.next k b hk
  · rw [mem_edges_install_of_lt (hs.fits.lt_size hk)]
    exact hs.rescue k b hk

/-- A routine stands where it has just been put. -/
theorem stands_install (hg : g.Closed) (r : Routine) : (g.install r).Stands r g.size := by
  have hnew : ∀ {k b : Nat} {rel : Relation}, (⟨g.size + k, b, rel⟩ : Edge) ∉ g.edges :=
    fun hmem => absurd (hg.edge _ hmem).1 (Nat.not_lt.2 (Nat.le_add_right _ _))
  refine ⟨?_, fits_install g r, fun k b _ => ?_, fun k b _ => ?_⟩
  · rw [find?_install, if_pos rfl]
  · rw [mem_edges_install, or_iff_right hnew]
    simp [and_comm]
  · rw [mem_edges_install, or_iff_right hnew]
    simp [and_comm]

-- ============================================================== chronicles

/-- A graph with the routine that each of its methods was registered with
last. -/
structure Chronicle where
  graph : FlowGraph
  routines : IdMap Routine

namespace Chronicle

def act (c : Chronicle) (a : Act) : Chronicle where
  graph := c.graph.act a
  routines :=
    match c.graph.admits a with
    | none => c.routines
    | some r => c.routines.insert r.method r

/-- What a chronicle says is true of its graph. -/
structure Sound (c : Chronicle) : Prop where
  closed : c.graph.Closed
  known : ∀ m, (c.graph.methods.find? m).isSome = (c.routines.find? m).isSome
  stands : ∀ m r, c.routines.find? m = some r → r.method = m ∧ ∃ base, c.graph.Stands r base

/-- A standing routine goes on standing unless another takes its method. -/
theorem stands_act {g : FlowGraph} {a : Act} (hg : g.Closed) (hs : g.Stands r base)
    (hother : ∀ r', g.admits a = some r' → r'.method ≠ r.method) :
    (g.act a).Stands r base := by
  have hlarge : (g.enlarge (g.admits a)).Stands r base := by
    cases ha : g.admits a with
    | none => exact hs
    | some r' => exact hs.install (hother r' ha)
  exact (hlarge.linkAll fun _ he => (mem_drawn hg he).1).of_alike (act_spec g a)

theorem Sound.act {c : Chronicle} (hc : c.Sound) (a : Act) : (c.act a).Sound := by
  have hmethods : (c.graph.act a).methods = (c.graph.enlarge (c.graph.admits a)).methods := by
    rw [(act_spec c.graph a).methods, linkAll_methods]
  refine ⟨hc.closed.act a, fun m => ?_, fun m r hr => ?_⟩
  · simp only [Chronicle.act]
    rw [hmethods]
    cases ha : c.graph.admits a with
    | none => exact hc.known m
    | some r =>
        rw [enlarge, find?_install, IdMap.find?_insert]
        split
        · rfl
        · exact hc.known m
  · simp only [Chronicle.act] at hr
    cases ha : c.graph.admits a with
    | none =>
        rw [ha] at hr
        obtain ⟨hm, base, hs⟩ := hc.stands m r hr
        exact ⟨hm, base, stands_act hc.closed hs fun r' h => by rw [ha] at h; cases h⟩
    | some r' =>
        rw [ha] at hr
        simp only [IdMap.find?_insert] at hr
        split at hr
        next hm =>
          -- the routine just admitted
          obtain rfl := Option.some.inj hr
          have hs : (c.graph.enlarge (c.graph.admits a)).Stands r' c.graph.size := by
            rw [ha]
            exact stands_install hc.closed r'
          exact ⟨hm.symm, c.graph.size,
            (hs.linkAll fun _ he => (mem_drawn hc.closed he).1).of_alike (act_spec _ a)⟩
        next hm =>
          obtain ⟨rfl, base, hs⟩ := hc.stands m r hr
          refine ⟨rfl, base, stands_act hc.closed hs fun r'' h => ?_⟩
          obtain rfl := Option.some.inj (ha.symm.trans h)
          exact Ne.symm hm

end Chronicle

/-- The chronicle of a graph from its beginning. -/
def chronicle (as : List Act) : Chronicle := as.foldl Chronicle.act ⟨empty, ∅⟩

theorem chronicle_concat (as : List Act) (a : Act) :
    chronicle (as ++ [a]) = (chronicle as).act a := by
  rw [chronicle, List.foldl_append]
  rfl

theorem sound_chronicle (as : List Act) : (chronicle as).Sound := by
  induction as using List.reverseRecOn with
  | nil =>
      refine ⟨closed_empty, fun m => rfl, fun m r hr => ?_⟩
      cases hr
  | append_singleton as a ih =>
      rw [chronicle_concat]
      exact ih.act a

/-- What is in a graph stays in it, with the same code. -/
theorem grows_chronicle (as bs : List Act) :
    (chronicle as).graph.Grows (chronicle (as ++ bs)).graph := by
  induction bs using List.reverseRecOn with
  | nil =>
      rw [List.append_nil]
      exact grows_refl _
  | append_singleton bs b ih =>
      rw [← List.append_assoc, chronicle_concat]
      exact ih.trans (grows_act _ b)

end SymbolicSearch.FlowGraph
