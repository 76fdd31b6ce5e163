/-
The ways of states in the graph. All that following a state or letting it
go does to the graph is that the state steps on blocks or off them
(`FlowGraph.tread`), and it makes no difference in which order two states
go their ways (`FlowGraph.tread_comm`).

No state finds its way by the others. Where a statement is placed, what a
step adds to a trail and what the counters come to is the same before and
after another state has gone its way (`Alike.locate_cases`,
`Trail.stepOn_congr`, `FlowGraph.sameCoverage_tread`).
-/
import SymbolicSearch.Proofs.Guided.Notes

namespace SymbolicSearch

-- ================================================================= footfalls

/-- What a state does to a block: it executes the instruction at an index of
it, or leaves it. -/
def Trail.imprint (s : StateNo) : Option Nat → Block → Block
  | some i, b => trodden s i b
  | none, b => { b with occupants := b.occupants.erase s }

theorem Trail.imprint_comm {s s' : StateNo} (hs : s ≠ s') (x y : Option Nat) (b : Block) :
    imprint s x (imprint s' y b) = imprint s' y (imprint s x b) := by
  have hinsert : ∀ (k k' : StateNo) (o : IdSet), (o.insert k').insert k = (o.insert k).insert k' :=
    fun k k' o => IdSet.ext_mem fun a => by simp only [IdSet.mem_insert, or_left_comm]
  have herase : ∀ {k k' : StateNo} (o : IdSet), k ≠ k' →
      (o.insert k').erase k = (o.erase k).insert k' := by
    intro k k' o hne
    refine IdSet.ext_mem fun a => ?_
    simp only [IdSet.mem_erase, IdSet.mem_insert]
    by_cases ha : a = k'
    · simp [ha, hne.symm]
    · simp [ha]
  cases x with
  | some i =>
      cases y with
      | some i' =>
          simp only [imprint, trodden, hinsert s s', Bool.or_assoc, Block.beginsAt, Block.endsAt,
            Bool.or_comm (i' == _)]
      | none => simp only [imprint, trodden, herase _ hs.symm, Block.beginsAt, Block.endsAt]
  | none =>
      cases y with
      | some i' => simp only [imprint, trodden, herase _ hs, Block.beginsAt, Block.endsAt]
      | none =>
          have hboth : (b.occupants.erase s').erase s = (b.occupants.erase s).erase s' :=
            IdSet.ext_mem fun a => by simp only [IdSet.mem_erase, and_right_comm]
          simp only [imprint, hboth]

/-- What a state does to blocks, one after the other. -/
abbrev Way := List (BlockNo × Option Nat)

namespace FlowGraph

variable {g g' : FlowGraph} {s s' : StateNo}

/-- The graph after a state has gone its way. -/
def tread (g : FlowGraph) (s : StateNo) (way : Way) : FlowGraph :=
  way.foldl (fun g x => g.modifyBlock x.1 (Trail.imprint s x.2)) g

theorem modifyBlock_comm (g : FlowGraph) (i j : BlockNo) {f f' : Block → Block}
    (hf : ∀ b, f (f' b) = f' (f b)) :
    (g.modifyBlock i f).modifyBlock j f' = (g.modifyBlock j f').modifyBlock i f := by
  have hblocks : (g.blocks.modify i f).modify j f' = (g.blocks.modify j f').modify i f := by
    refine Array.ext_getElem? fun k => ?_
    simp only [Array.getElem?_modify]
    cases g.blocks[k]? with
    | none => simp
    | some b => split <;> split <;> simp [hf]
  simp only [modifyBlock, hblocks]

theorem tread_comm (hs : s ≠ s') (g : FlowGraph) (way way' : Way) :
    (g.tread s way).tread s' way' = (g.tread s' way').tread s way := by
  have hstep : ∀ (way : Way) (g : FlowGraph) (x : BlockNo × Option Nat),
      (g.tread s way).modifyBlock x.1 (Trail.imprint s' x.2) =
        (g.modifyBlock x.1 (Trail.imprint s' x.2)).tread s way := by
    intro way
    induction way with
    | nil => exact fun _ _ => rfl
    | cons y way ih =>
        intro g x
        refine (ih (g.modifyBlock y.1 (Trail.imprint s y.2)) x).trans ?_
        rw [modifyBlock_comm g y.1 x.1 (Trail.imprint_comm hs y.2 x.2)]
        rfl
  induction way' generalizing g with
  | nil => rfl
  | cons x way' ih =>
      show ((g.tread s way).modifyBlock x.1 (Trail.imprint s' x.2)).tread s' way' = _
      rw [hstep]
      exact ih _

theorem bare_imprint (s : StateNo) (x : Option Nat) (b : Block) :
    (Trail.imprint s x b).bare = b.bare := by
  cases x <;> rfl

theorem alike_tread (g : FlowGraph) (s : StateNo) (way : Way) : Alike g (g.tread s way) := by
  induction way generalizing g with
  | nil => exact Alike.refl g
  | cons x way ih => exact (alike_modifyBlock g x.1 (bare_imprint s x.2)).trans (ih _)

theorem sameCoverage_tread (g : FlowGraph) (s : StateNo) (way : Way) :
    SameCoverage g (g.tread s way) := by
  induction way generalizing g with
  | nil => exact SameCoverage.refl g
  | cons x way ih =>
      have hkept : ∀ b, (Trail.imprint s x.2 b).covered = b.covered ∧
          (Trail.imprint s x.2 b).inZone = b.inZone := by
        intro b
        cases x.2 <;> exact ⟨rfl, rfl⟩
      have hmarked : Marked (· = x.1) g (g.modifyBlock x.1 (Trail.imprint s x.2)) :=
        marked_modifyBlock g rfl (bare_imprint s x.2) hkept
      exact hmarked.coverage.trans (ih _)

/-- Where a statement is found depends on nothing that states do. -/
theorem Alike.locate_cases (h : Alike g g') (stmt : Stmt) :
    (∃ e, g.locate stmt = .error e ∧ g'.locate stmt = .error e) ∨
      ∃ id b b', g.locate stmt = .ok (id, b) ∧ g'.locate stmt = .ok (id, b') ∧
        b'.bare = b.bare := by
  have hbare : ∀ (o : Option Block) (id : BlockNo),
      (((o.filter (·.holds stmt.site.index)).map (id, ·)).map fun x => (x.1, x.2.bare)) =
        ((o.map Block.bare).filter (·.holds stmt.site.index)).map (id, ·) := by
    intro o id
    cases o with
    | none => rfl
    | some b =>
        have hholds : b.bare.holds stmt.site.index = b.holds stmt.site.index := rfl
        cases hb : b.holds stmt.site.index <;> simp [Option.filter, hholds, hb]
  have hlocate : ∀ ids : List BlockNo,
      ((g'.locate? ids stmt.site.index).map fun x => (x.1, x.2.bare)) =
        (g.locate? ids stmt.site.index).map fun x => (x.1, x.2.bare) := by
    intro ids
    simp only [locate?, List.map_findSome?, Function.comp_def, hbare, h.bare]
  unfold locate
  rw [h.methods]
  cases g.methods.find? stmt.site.method with
  | none => exact Or.inl ⟨_, rfl, rfl⟩
  | some m =>
      have hm := hlocate m.blocks
      simp only [Option.bind_some]
      cases hb : g.locate? m.blocks stmt.site.index with
      | none =>
          rw [hb, Option.map_none, Option.map_eq_none_iff] at hm
          rw [hm]
          exact Or.inl ⟨_, rfl, rfl⟩
      | some found =>
          rw [hb, Option.map_some] at hm
          obtain ⟨⟨id, b'⟩, hb', heq⟩ := Option.map_eq_some_iff.1 hm
          rw [hb']
          obtain ⟨rfl, heq⟩ := Prod.mk.inj heq
          exact Or.inr ⟨_, found.2, b', rfl, rfl, heq⟩

end FlowGraph

-- ===================================================================== trails

namespace Trail

variable {t : Trail} {g g' : FlowGraph}

/-- The trail with other links. -/
def relink (t : Trail) (parent : Option StateNo) (children : IdSet) : Trail :=
  { t with parent := parent, children := children }

/-- The trail without its links. -/
def loose (t : Trail) : Trail := t.relink none ∅

/-- How a state leaves the block that it stands in. -/
def wayOut (t : Trail) : Way := t.block.toList.map (·, none)

/-- How a state comes to execute the instruction at an index of a block. -/
def wayTo (t : Trail) (id : BlockNo) (index : Nat) : Way :=
  (if t.block = some id then [] else t.wayOut) ++ [(id, some index)]

theorem leave_eq (t : Trail) (g : FlowGraph) : t.leave g = g.tread t.state t.wayOut := by
  unfold leave wayOut
  cases t.block <;> rfl

theorem arrival_eq (t : Trail) (g : FlowGraph) (id : BlockNo) (index : Nat) :
    g.arrival t id index = g.tread t.state (t.wayTo id index) := by
  unfold FlowGraph.arrival wayTo
  split
  · rfl
  · rw [FlowGraph.tread, List.foldl_append]
    exact congrArg (FlowGraph.modifyBlock · id _) (leave_eq t g)

/-- The trail of a state that has come to a block. -/
theorem Lies.stepOn (h : t.Lies g) {id : BlockNo} {b : Block} (hb : g.blocks[id]? = some b)
    (index forks step : Nat) : (t.stepOn id b index forks step).Lies g := by
  have hid : id < g.size := FlowGraph.lt_size_iff.2 ⟨b, hb⟩
  refine ⟨fun k v hv => ?_, fun k hk => ?_⟩
  · simp only [Trail.stepOn, IdMap.find?_insert] at hv
    split at hv
    next hk =>
      obtain rfl := Option.some.inj hv
      exact ⟨hk.symm, hk ▸ hid⟩
    next => exact h.history k v hv
  · obtain rfl := Option.some.inj hk
    exact hid

theorem follow_eq_error {h : Handle} {step : Nat} {e : Fault}
    (hf : t.follow h step g = .error e) :
    ∃ stmt, h.last = some stmt ∧ g.locate stmt = .error e := by
  unfold follow at hf
  cases hl : h.last with
  | none =>
      rw [hl] at hf
      cases hf
  | some stmt =>
      rw [hl] at hf
      cases hb : g.locate stmt with
      | error e' =>
          simp only [hb, bind, Except.bind] at hf
          cases hf
          exact ⟨stmt, rfl, hb⟩
      | ok found =>
          simp only [hb, bind, Except.bind] at hf
          cases hf

/-- Of a block, a step goes by what is there before anything happens. -/
theorem stepOn_congr {b b' : Block} (h : b'.bare = b.bare) (id : BlockNo)
    (index forks step : Nat) : t.stepOn id b' index forks step = t.stepOn id b index forks step := by
  have hbare : ∀ b : Block, t.stepOn id b.bare index forks step = t.stepOn id b index forks step :=
    fun _ => rfl
  rw [← hbare b', h, hbare b]

end Trail

end SymbolicSearch
