/-
Asking for a method twice. A method that is registered is not asked for
again, so whether a second request does nothing depends on what the first
one was answered with. `discover` looks at the method that it was asked
for, and puts a routine in under the method that the routine names; the
two differ when a loader answers with the code of another method.

# An answer that is to the point

If the loader hands over the code of the method that it was asked for,
that method is registered afterwards, every method keeps what it had, and
the next request does nothing, whoever answers it.

# An answer that is not

Otherwise the method stays unknown, each further request puts the same
routine in once more, and if the routine is of a registered method, that
method loses its blocks to new ones (`discover_exact`,
`method_overwritten`).
-/
import SymbolicSearch.Proofs.Flow.Partition
import SymbolicSearch.Proofs.Scene

namespace SymbolicSearch

theorem Routine.spans_eq_nil_iff {r : Routine} : r.spans = [] ↔ r.code = [] := by
  have htile := r.tile_spans
  constructor
  · intro h
    rw [h] at htile
    exact List.length_eq_zero_iff.1 htile.symm
  · intro h
    by_contra hne
    obtain ⟨s, hs⟩ := List.exists_mem_of_ne_nil _ hne
    have hlast := (mem_spans.1 hs).2.2.1
    rw [h] at hlast
    exact Nat.not_lt_zero _ hlast

namespace FlowGraph

variable {g g' : FlowGraph} {r : Routine} {load : Loader} {m k : MethodNo}

-- ================================================================== retained

/-- A method keeps its blocks, its exits and its name, and each of its
statements the block that it is found in. -/
structure Retains (g g' : FlowGraph) (m : MethodNo) : Prop where
  blocks : g'.blocksOf m = g.blocksOf m
  exits : g'.exitsOf m = g.exitsOf m
  name : g'.nameOf m = g.nameOf m
  lookup : ∀ stmt : Stmt, stmt.site.method = m → g'.blockAt stmt = g.blockAt stmt

theorem Retains.refl (g : FlowGraph) (m : MethodNo) : g.Retains g m :=
  ⟨rfl, rfl, rfl, fun _ _ => rfl⟩

/-- A statement that is not found is reported by its site. -/
theorem blockAt_eq_error {stmt : Stmt} {e : Fault} (h : g.blockAt stmt = .error e) :
    e = .unplaced stmt.site := by
  unfold blockAt locate at h
  split at h
  · cases h
  · exact (Except.error.inj h).symm

/-- Two graphs in which a statement is found in the same blocks give the
same answer to where it is. -/
theorem blockAt_congr {stmt : Stmt}
    (h : ∀ id, g'.blockAt stmt = .ok id ↔ g.blockAt stmt = .ok id) :
    g'.blockAt stmt = g.blockAt stmt := by
  cases hg : g.blockAt stmt with
  | ok id => exact (h id).2 hg
  | error e =>
      cases hg' : g'.blockAt stmt with
      | ok id =>
          have hok := (h id).1 hg'
          rw [hg] at hok
          cases hok
      | error e' => rw [blockAt_eq_error hg, blockAt_eq_error hg']

/-- A method with code stands as it stood when another one comes in. -/
theorem Chronicle.Sound.retains_install {c : Chronicle} (hc : c.Sound)
    (hk : c.graph.methods.contains k = true) (hne : r.method ≠ k) :
    c.graph.Retains (c.graph.install r) k := by
  obtain ⟨r', base, -, rfl, hs⟩ := hc.exists_routine hk
  have hs' : (c.graph.install r).Stands r' base := hs.install hne
  refine ⟨?_, ?_, ?_, fun stmt hstmt => blockAt_congr fun id => ?_⟩
  · rw [hs'.blocksOf, hs.blocksOf]
  · rw [exitsOf, exitsOf, hs'.entry, hs.entry]
  · rw [nameOf, nameOf, hs'.entry, hs.entry]
  · rw [hs'.blockAt_iff hstmt, hs.blockAt_iff hstmt]

/-- The blocks listed under a registered method are blocks of the graph. -/
theorem Chronicle.Sound.lt_size_of_mem_blocksOf {c : Chronicle} (hc : c.Sound) {id : BlockNo}
    (h : id ∈ c.graph.blocksOf k) : id < c.graph.size := by
  obtain ⟨r', base, -, rfl, hs⟩ := hc.exists_routine (contains_of_mem_blocksOf h)
  rw [hs.blocksOf] at h
  obtain ⟨j, s, hj, rfl⟩ := mem_numbersFrom.1 h
  exact hs.fits.lt_size (List.getElem?_eq_some_iff.1 hj).1

-- ================================================================ overwritten

theorem find?_install_self : (g.install r).methods.find? r.method = some (entryFrom r g.size) := by
  rw [find?_install, if_pos rfl]

theorem blocksOf_install_self : (g.install r).blocksOf r.method = numbersFrom r g.size := by
  rw [blocksOf, find?_install_self]
  rfl

/-- Without code there is nothing to put in but the name. -/
theorem install_of_codeless (g : FlowGraph) (hr : r.code = []) :
    g.install r = { g with methods := g.methods.insert r.method ⟨r.name, [], []⟩ } := by
  have hspans : r.spans = [] := Routine.spans_eq_nil_iff.2 hr
  have hexits : r.exits = [] := by rw [Routine.exits, hr]; rfl
  simp only [install, hspans, hexits]
  rfl

theorem insert_insert {α : Type} (t : IdMap α) (i : Nat) (v : α) :
    (t.insert i v).insert i v = t.insert i v := by
  apply IdMap.ext_find?
  intro j
  rw [IdMap.find?_insert]
  split
  next h => rw [IdMap.find?_insert, if_pos h]
  next => rfl

/-- Putting a routine in once more does nothing just if it has no code. -/
theorem install_install_iff : (g.install r).install r = g.install r ↔ r.code = [] := by
  constructor
  · intro h
    have hsize := congrArg size h
    rw [size_install (g.install r)] at hsize
    exact Routine.spans_eq_nil_iff.1 (List.length_eq_zero_iff.1 (by omega))
  · intro hr
    rw [install_of_codeless _ hr, install_of_codeless _ hr]
    exact congrArg (fun t => { g with methods := t }) (insert_insert _ _ _)

theorem nameOf_install_self : (g.install r).nameOf r.method = some r.name := by
  rw [nameOf, find?_install_self]
  rfl

/-- The blocks that are put in are new, so a method that keeps its blocks has
none and gets none. -/
theorem Chronicle.Sound.codeless_of_retains {c : Chronicle} (hc : c.Sound)
    (h : c.graph.Retains (c.graph.install r) r.method) :
    r.code = [] ∧ c.graph.blocksOf r.method = [] := by
  have hblocks : numbersFrom r c.graph.size = c.graph.blocksOf r.method :=
    blocksOf_install_self.symm.trans h.blocks
  -- a number that is both old and new
  have hnil : c.graph.blocksOf r.method = [] := by
    by_contra hne
    obtain ⟨id, hid⟩ := List.exists_mem_of_ne_nil _ hne
    have hold := hc.lt_size_of_mem_blocksOf hid
    rw [← hblocks] at hid
    obtain ⟨j, s, -, rfl⟩ := mem_numbersFrom.1 hid
    exact absurd hold (Nat.not_lt.2 (Nat.le_add_right _ _))
  refine ⟨Routine.spans_eq_nil_iff.1 (List.length_eq_zero_iff.1 ?_), hnil⟩
  rw [← length_numbersFrom r c.graph.size, hblocks, hnil, List.length_nil]

/-- A registered method without blocks has no code. -/
theorem Chronicle.Sound.exists_codeless {c : Chronicle} (hc : c.Sound)
    (hk : c.graph.methods.contains k = true) (hblocks : c.graph.blocksOf k = []) :
    ∃ r' base, r'.method = k ∧ r'.code = [] ∧ c.graph.Stands r' base := by
  obtain ⟨r', base, -, rfl, hs⟩ := hc.exists_routine hk
  rw [hs.blocksOf] at hblocks
  have hspans : r'.spans = [] :=
    List.length_eq_zero_iff.1 (by rw [← length_numbersFrom r' base, hblocks]; rfl)
  exact ⟨r', base, rfl, Routine.spans_eq_nil_iff.1 hspans, hs⟩

/-- One routine without code in the place of another changes nothing but the
name. -/
theorem Chronicle.Sound.retains_of_codeless {c : Chronicle} (hc : c.Sound) (hr : r.code = [])
    (hblocks : c.graph.blocksOf r.method = []) (hname : c.graph.nameOf r.method = some r.name) :
    c.graph.Retains (c.graph.install r) r.method := by
  have hknown : c.graph.methods.contains r.method = true := by
    rw [nameOf] at hname
    obtain ⟨entry, hentry, -⟩ := Option.map_eq_some_iff.1 hname
    exact IdMap.contains_iff.2 ⟨entry, hentry⟩
  obtain ⟨r', base, hm, hr', hs⟩ := hc.exists_codeless hknown hblocks
  have hspans : r.spans = [] := Routine.spans_eq_nil_iff.2 hr
  have hspans' : r'.spans = [] := Routine.spans_eq_nil_iff.2 hr'
  have hs' : (c.graph.install r).Stands r c.graph.size := stands_install hc.closed r
  refine ⟨?_, ?_, nameOf_install_self.trans hname.symm,
    fun stmt hstmt => blockAt_congr fun id => ?_⟩
  · rw [blocksOf_install_self, numbersFrom, hspans, hblocks]
    rfl
  · rw [exitsOf, exitsOf, find?_install_self, ← hm, hs.entry]
    simp [entryFrom, Routine.exits, hr, hr']
  · rw [hs'.blockAt_iff hstmt, hs.blockAt_iff (hstmt.trans hm.symm), hspans, hspans']
    simp

/-- A method that a routine is put in for keeps what it had just if it had
no blocks, gets none, and keeps its name. -/
theorem Chronicle.Sound.retains_install_self_iff {c : Chronicle} (hc : c.Sound) :
    c.graph.Retains (c.graph.install r) r.method ↔
      r.code = [] ∧ c.graph.blocksOf r.method = [] ∧ c.graph.nameOf r.method = some r.name := by
  constructor
  · intro h
    obtain ⟨hr, hnil⟩ := hc.codeless_of_retains h
    exact ⟨hr, hnil, h.name.symm.trans nameOf_install_self⟩
  · rintro ⟨hr, hblocks, hname⟩
    exact hc.retains_of_codeless hr hblocks hname

-- ================================================================== requests

/-- The routine that a loader brings in when it is asked for a method, if
it is asked, is the code of that method. -/
def ToThePoint (g : FlowGraph) (load : Loader) (m : MethodNo) : Prop :=
  ∀ r, g.brought load m = some r → r.method = m

theorem toThePoint_of_isHonest (hl : Loader.IsHonest load) : g.ToThePoint load m :=
  fun r hr => hl m r (brought_eq_some.1 hr).2

/-- A request that is granted finds its method registered, or has a routine
put in that the loader hands over for it. -/
theorem discover_cases (h : g.discover load m = .ok g') :
    (g.methods.contains m = true ∧ g.brought load m = none ∧ g' = g) ∨
      ∃ r, g.brought load m = some r ∧ g' = g.install r := by
  have hgraph := discover_eq_ok h
  cases hr : g.brought load m with
  | some r =>
      rw [hr] at hgraph
      exact Or.inr ⟨r, rfl, hgraph⟩
  | none =>
      rw [hr] at hgraph
      refine Or.inl ⟨?_, rfl, hgraph⟩
      -- a loader that is asked and brings nothing has the request refused
      by_contra hm
      rw [discover, if_neg hm] at h
      cases hload : load m with
      | error e => rw [hload] at h; cases h
      | ok found =>
          cases found with
          | none => rw [hload] at h; cases h
          | some r =>
              have hsome := brought_eq_some.2 ⟨Bool.not_eq_true _ ▸ hm, hload⟩
              rw [hr] at hsome
              cases hsome

theorem discover_of_registered (load : Loader) (hm : g.methods.contains m = true) :
    g.discover load m = .ok g := by
  rw [discover, if_pos hm]

theorem contains_install : (g.install r).methods.contains m = true ↔
    m = r.method ∨ g.methods.contains m = true := by
  rw [IdMap.contains, find?_install, IdMap.contains]
  split
  next h => simp [h]
  next h => simp [h]

/-- The method that was asked for is registered once a routine is put in
for it, if the routine is of that method. -/
theorem contains_install_of_brought (h : g.brought load m = some r) :
    (g.install r).methods.contains m = true ↔ r.method = m := by
  rw [contains_install, (brought_eq_some.1 h).1]
  simp [eq_comm]

/-- Else a loader that knows nothing has the next request refused. -/
theorem discover_silent_of_brought (h : g.brought load m = some r) (hne : r.method ≠ m) :
    (g.install r).discover (fun _ => .ok none) m = .error (.unknownMethod m) := by
  rw [discover, if_neg (mt (contains_install_of_brought h).1 hne)]

/-- Else the same loader has the routine put in once more. -/
theorem discover_again_of_brought (h : g.brought load m = some r) (hne : r.method ≠ m) :
    (g.install r).discover load m = .ok ((g.install r).install r) := by
  rw [discover, if_neg (mt (contains_install_of_brought h).1 hne), (brought_eq_some.1 h).2]

theorem discover_again_iff_of_brought (h : g.brought load m = some r) :
    (g.install r).discover load m = .ok (g.install r) ↔ r.method = m ∨ r.code = [] := by
  by_cases heq : r.method = m
  · exact iff_of_true (discover_of_registered load ((contains_install_of_brought h).2 heq))
      (Or.inl heq)
  · rw [discover_again_of_brought h heq, Except.ok.injEq, install_install_iff, or_iff_right heq]

theorem discover_any_iff_of_brought (h : g.brought load m = some r) :
    (∀ load', (g.install r).discover load' m = .ok (g.install r)) ↔ r.method = m := by
  constructor
  · intro hany
    by_contra hne
    have hsilent := hany fun _ => .ok none
    rw [discover_silent_of_brought h hne] at hsilent
    cases hsilent
  · intro heq load'
    exact discover_of_registered load' ((contains_install_of_brought h).2 heq)

/-- What a granted request comes to. The method is registered afterwards
just if the answer was to the point, and just then no further request for it
does anything, whoever is asked; the same loader may be asked again without
effect also if its answer has no code. Each method registered before keeps
what it had unless the answer is a routine of that method: then its blocks
are new ones, and what it had is kept only if it is a name without blocks. -/
structure Granted (g g' : FlowGraph) (load : Loader) (m : MethodNo) : Prop where
  known : g'.methods.contains m = true ↔ g.ToThePoint load m
  settled : (∀ load', g'.discover load' m = .ok g') ↔ g.ToThePoint load m
  again : g'.discover load m = .ok g' ↔
    ∀ r, g.brought load m = some r → r.method = m ∨ r.code = []
  kept : ∀ k, g.methods.contains k = true →
    (g.Retains g' k ↔ ∀ r, g.brought load m = some r → r.method = k →
      r.code = [] ∧ g.blocksOf k = [] ∧ g.nameOf k = some r.name)
  replaced : ∀ r, g.brought load m = some r → g'.blocksOf r.method = numbersFrom r g.size

/-- Nobody is asked for a method that is registered. -/
theorem granted_of_registered (hm : g.methods.contains m = true)
    (hnone : g.brought load m = none) : g.Granted g load m := by
  have hsilent : ∀ r, g.brought load m ≠ some r := by simp [hnone]
  have hpoint : g.ToThePoint load m := fun r hr => absurd hr (hsilent r)
  exact {
    known := iff_of_true hm hpoint
    settled := iff_of_true (fun load' => discover_of_registered load' hm) hpoint
    again := iff_of_true (discover_of_registered load hm) fun r hr => absurd hr (hsilent r)
    kept := fun k _ => iff_of_true (Retains.refl g k) fun r hr => absurd hr (hsilent r)
    replaced := fun r hr => absurd hr (hsilent r) }

theorem Chronicle.Sound.granted_of_brought {c : Chronicle} (hc : c.Sound)
    (h : c.graph.brought load m = some r) :
    c.graph.Granted (c.graph.install r) load m := by
  have hpoint : c.graph.ToThePoint load m ↔ r.method = m := by simp [ToThePoint, h]
  refine {
    known := (contains_install_of_brought h).trans hpoint.symm
    settled := (discover_any_iff_of_brought h).trans hpoint.symm
    again := ?_
    kept := fun k hk => ?_
    replaced := fun r' hr' => ?_ }
  · simp only [h, Option.some.injEq, forall_eq']
    exact discover_again_iff_of_brought h
  · simp only [h, Option.some.injEq, forall_eq']
    by_cases heq : r.method = k
    · subst heq
      rw [hc.retains_install_self_iff]
      exact ⟨fun hkept _ => hkept, fun hkept => hkept rfl⟩
    · exact iff_of_true (hc.retains_install hk heq) fun hrk => absurd hrk heq
  · obtain rfl := Option.some.inj (h.symm.trans hr')
    exact blocksOf_install_self

/-- What a request comes to in every graph that can arise, whatever the
loader answers; the answer of an honest one is to the point. A request that
fails changes nothing. -/
theorem discover_exact (as : List Act) (load : Loader) (m : MethodNo) :
    (Loader.IsHonest load → (chronicle as).graph.ToThePoint load m) ∧
      (∀ e, (chronicle as).graph.discover load m = .error e →
        (chronicle (as ++ [.discover load m])).graph = (chronicle as).graph) ∧
      ∀ g', (chronicle as).graph.discover load m = .ok g' →
        (chronicle (as ++ [.discover load m])).graph = g' ∧
          (chronicle as).graph.Granted g' load m := by
  refine ⟨toThePoint_of_isHonest, fun e he => ?_, fun g' hg' => ⟨?_, ?_⟩⟩
  · rw [chronicle_concat]
    simp only [Chronicle.act, act, he]
  · rw [chronicle_concat]
    simp only [Chronicle.act, act, hg']
  · obtain ⟨hm, hnone, rfl⟩ | ⟨r, hsome, rfl⟩ := discover_cases hg'
    · exact granted_of_registered hm hnone
    · exact (sound_chronicle as).granted_of_brought hsome

/-- A loader that hands over the same method whatever it is asked for. -/
def astray : Loader := fun _ => .ok (some (looping 0))

/-- A method loses its blocks because another one is asked for, which stays
unknown, so that asking again makes the graph grow again. -/
theorem method_overwritten :
    (chronicle [.register (looping 0)]).graph.blocksOf 0 = [0, 1] ∧
      ∃ g', (chronicle [.register (looping 0)]).graph.discover astray 1 = .ok g' ∧
        g'.blocksOf 0 = [2, 3] ∧ ¬ (chronicle [.register (looping 0)]).graph.Retains g' 0 ∧
        g'.methods.contains 1 = false ∧ g'.discover astray 1 ≠ .ok g' := by
  obtain ⟨-, -, hok⟩ := discover_exact [.register (looping 0)] astray 1
  obtain ⟨-, hgranted⟩ := hok _ rfl
  refine ⟨by decide, _, rfl, ?_, ?_, ?_, ?_⟩
  · exact hgranted.replaced (looping 0) rfl
  · exact fun h => absurd ((hgranted.kept 0 (by decide)).1 h (looping 0) rfl rfl).1 (by decide)
  · exact Bool.not_eq_true _ ▸ fun h => absurd (hgranted.known.1 h (looping 0) rfl) (by decide)
  · exact fun h => absurd (hgranted.again.1 h (looping 0) rfl) (by decide)

end FlowGraph

end SymbolicSearch
