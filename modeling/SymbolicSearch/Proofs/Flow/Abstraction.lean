/-
The block graph as an exact picture of the code it was cut from. Between
the instructions of a registered routine, control flow can be read off
the blocks alone: which instruction follows which, where control can come
to in any number of steps, and which block catches what another raises.

The routine's own cut knows all this of its runs (`Routine.flows_iff`,
`Routine.reaches_iff`); here it is carried over to blocks. Runs are named
by places and blocks by numbers, the one a fixed distance from the other,
and no relation leads out of the routine's blocks
(`Stands.follows_iff`), so walks correspond (`Stands.transGen_iff`).
-/
import SymbolicSearch.Proofs.Flow.Chronicle

namespace SymbolicSearch.FlowGraph

variable {g : FlowGraph} {r : Routine} {base : Nat}

/-- Control goes on from one block to another. -/
def Follows (g : FlowGraph) (a b : BlockNo) : Prop := b ∈ g.targets a .next

/-- An instruction lies in a block of the graph, the one with a number. -/
def Located (g : FlowGraph) (m : MethodNo) (i : Nat) (id : BlockNo) (b : Block) : Prop :=
  g.locate (.instr ⟨m, i⟩) = .ok (id, b)

theorem Located.unique {m : MethodNo} {i : Nat} {a b : BlockNo} {A B : Block}
    (ha : g.Located m i a A) (hb : g.Located m i b B) : a = b ∧ A = B :=
  Prod.mk.inj (Except.ok.inj (ha.symm.trans hb))

namespace Stands

-- ============================================================ blocks of runs

/-- An instruction of a standing routine lies in the block of its run. -/
theorem located (hs : g.Stands r base) {k : Nat} {s : Span} (hk : r.spans[k]? = some s) {i : Nat}
    (hi : s.contains i = true) :
    ∃ b, g.Located r.method i (base + k) b ∧ b.bare = Block.ofSpan r false (base + k) s := by
  obtain ⟨b, hb, heq⟩ := hs.fits.block hk
  have hfound := (locate?_eq_some hs.fits).2 ⟨k, s, hk, hi, rfl, hb⟩
  refine ⟨b, ?_, heq⟩
  unfold Located locate
  rw [show (Stmt.instr ⟨r.method, i⟩).site.method = r.method from rfl, hs.entry, Option.bind_some,
    show (Stmt.instr ⟨r.method, i⟩).site.index = i from rfl,
    show (entryFrom r base).blocks = numbersFrom r base from rfl, hfound]

/-- Control goes on from a routine's block to another of the routine's
blocks, and as it goes on from run to run. -/
theorem follows_iff (hs : g.Stands r base) {k : Nat} (hk : k < r.spans.length) {b : Nat} :
    g.Follows (base + k) b ↔ ∃ l, b = base + l ∧ r.Leads k l := by
  rw [Follows, mem_targets]
  exact hs.next k b hk

/-- A walk from block to block is a walk from run to run. -/
theorem transGen_iff (hs : g.Stands r base) {k l : Nat} (hk : k < r.spans.length) :
    Relation.TransGen g.Follows (base + k) (base + l) ↔ Relation.TransGen r.Leads k l := by
  have hlt : ∀ {m n : Nat}, r.Leads m n → n < r.spans.length := by
    intro m n h
    obtain ⟨_, t, _, _, ht, -⟩ := h
    exact (List.getElem?_eq_some_iff.1 ht).1
  constructor
  · -- the walk's far end varies: it is a block of the routine again
    intro h
    suffices hend : ∀ b, Relation.TransGen g.Follows (base + k) b →
        ∃ n, b = base + n ∧ Relation.TransGen r.Leads k n ∧ n < r.spans.length by
      obtain ⟨n, heq, hwalk, -⟩ := hend _ h
      rwa [Nat.add_left_cancel heq]
    intro b hwalk
    induction hwalk with
    | single hstep =>
        obtain ⟨n, rfl, hlead⟩ := (hs.follows_iff hk).1 hstep
        exact ⟨n, rfl, .single hlead, hlt hlead⟩
    | tail _ hstep ih =>
        obtain ⟨m, rfl, hbefore, hm⟩ := ih
        obtain ⟨n, rfl, hlead⟩ := (hs.follows_iff hm).1 hstep
        exact ⟨n, rfl, hbefore.tail hlead, hlt hlead⟩
  · intro h
    have hlift : ∀ {m n : Nat}, r.Leads m n → g.Follows (base + m) (base + n) := by
      intro m n hlead
      have hstart := hlead
      obtain ⟨s, _, _, hm, -⟩ := hstart
      exact (hs.follows_iff (List.getElem?_eq_some_iff.1 hm).1).2 ⟨n, rfl, hlead⟩
    exact h.lift (base + ·) fun _ _ => hlift

/-- A block is guarded by those in which a handler of one of its
instructions lies. -/
theorem rescues_iff (hs : g.Stands r base) {k : Nat} {s : Span} (hk : r.spans[k]? = some s)
    {x : Nat} :
    x ∈ g.targets (base + k) .rescue ↔
      ∃ n h H, s.contains n = true ∧ r.Catches n h ∧ g.Located r.method h x H := by
  rw [mem_targets, hs.rescue k x (List.getElem?_eq_some_iff.1 hk).1]
  constructor
  · intro h
    obtain ⟨l, rfl, s', t, n, h, hk', hl, hn, hcatch, hh⟩ := h
    obtain rfl : s = s' := Option.some.inj (hk.symm.trans hk')
    obtain ⟨H, hH, -⟩ := hs.located hl hh
    exact ⟨n, h, H, hn, hcatch, hH⟩
  · intro h
    obtain ⟨n, h, H, hn, hcatch, hH⟩ := h
    obtain ⟨l, t, hl, hh⟩ := Routine.exists_place hcatch.1
    obtain ⟨H', hH', -⟩ := hs.located hl hh
    exact ⟨l, (hH.unique hH').1, s, t, n, h, hk, hl, hn, hcatch, hh⟩

end Stands

-- ================================================================ all graphs

/-- The blocks of a graph tell the control flow of a routine exactly. -/
structure Depicts (g : FlowGraph) (r : Routine) : Prop where
  /-- Every instruction lies in a block. -/
  located : ∀ i, i < r.code.length → ∃ a A, g.Located r.method i a A
  /-- Control comes from one instruction to another forwards inside a
  block or by a walk through blocks. -/
  reaches : ∀ i j a A b B, i < r.code.length → j < r.code.length →
    g.Located r.method i a A → g.Located r.method j b B →
      (r.Reaches i j ↔ (a = b ∧ i ≤ j) ∨ Relation.TransGen g.Follows a b)
  /-- A single step goes to the next instruction of the block, or from the
  last of one block to the first of one that follows it. -/
  flows : ∀ i j a A b B, i < r.code.length → j < r.code.length →
    g.Located r.method i a A → g.Located r.method j b B →
      (r.Flows i j ↔
        (a = b ∧ i ≠ A.last ∧ j = i + 1) ∨ (i = A.last ∧ j = B.first ∧ g.Follows a b))
  /-- A block is guarded by those in which a handler of one of its
  instructions lies. -/
  rescues : ∀ i a A x, i < r.code.length → g.Located r.method i a A →
    (x ∈ g.targets a .rescue ↔
      ∃ n h H, A.holds n = true ∧ r.Catches n h ∧ g.Located r.method h x H)
  /-- Every handler is the first instruction of its block. -/
  handlers : ∀ n h x H, r.Catches n h → g.Located r.method h x H → h = H.first

theorem Stands.depicts (hs : g.Stands r base) : g.Depicts r := by
  refine ⟨?_, ?_, ?_, ?_, ?_⟩
  · intro i hi
    obtain ⟨k, s, hk, hik⟩ := Routine.exists_place hi
    obtain ⟨A, hA, -⟩ := hs.located hk hik
    exact ⟨base + k, A, hA⟩
  · intro i j a A b B hi hj ha hb
    obtain ⟨k, s, hk, hik⟩ := Routine.exists_place hi
    obtain ⟨l, t, hl, hjl⟩ := Routine.exists_place hj
    obtain ⟨A', hA, -⟩ := hs.located hk hik
    obtain ⟨B', hB, -⟩ := hs.located hl hjl
    obtain ⟨rfl, rfl⟩ := ha.unique hA
    obtain ⟨rfl, rfl⟩ := hb.unique hB
    rw [hs.transGen_iff (List.getElem?_eq_some_iff.1 hk).1, Nat.add_left_cancel_iff]
    exact Routine.reaches_iff hk hl hik hjl
  · intro i j a A b B hi hj ha hb
    obtain ⟨k, s, hk, hik⟩ := Routine.exists_place hi
    obtain ⟨l, t, hl, hjl⟩ := Routine.exists_place hj
    obtain ⟨A', hA, hAs⟩ := hs.located hk hik
    obtain ⟨B', hB, hBt⟩ := hs.located hl hjl
    obtain ⟨rfl, rfl⟩ := ha.unique hA
    obtain ⟨rfl, rfl⟩ := hb.unique hB
    rw [hs.follows_iff (List.getElem?_eq_some_iff.1 hk).1, Nat.add_left_cancel_iff,
      Block.last_of_bare hAs, Block.first_of_bare hBt]
    simpa using Routine.flows_iff hk hl hik hjl
  · intro i a A x hi ha
    obtain ⟨k, s, hk, hik⟩ := Routine.exists_place hi
    obtain ⟨A', hA, hAs⟩ := hs.located hk hik
    obtain ⟨rfl, rfl⟩ := ha.unique hA
    simp only [Block.holds_of_bare hAs]
    exact hs.rescues_iff hk
  · intro n h x H hcatch hH
    obtain ⟨m, u, hm, hh⟩ := Routine.exists_place hcatch.1
    obtain ⟨H', hH', heq⟩ := hs.located hm hh
    rw [(hH.unique hH').2, Block.first_of_bare heq]
    exact Routine.eq_first_of_catches (List.mem_of_getElem? hm) hh hcatch

/-- In every graph that can arise, the blocks of every registered routine
tell its control flow exactly. -/
theorem depicts_of_registered (as : List Act) {r : Routine}
    (hr : (chronicle as).routines.find? r.method = some r) : (chronicle as).graph.Depicts r := by
  obtain ⟨-, base, hs⟩ := (sound_chronicle as).stands _ r hr
  exact hs.depicts

/-- A routine with a loop into the middle of its straight line, a handler,
a jump past the end and a plain instruction that jumps. -/
def winding : Routine where
  method := 3
  name := "winding"
  code := [⟨.plain, [1], []⟩, ⟨.plain, [2], [5, 9]⟩, ⟨.branch, [1, 4, 7], []⟩,
    ⟨.plain, [5], []⟩, ⟨.call, [3], []⟩, ⟨.leave, [], []⟩]

/-- The blocks of `winding` tell its control flow, registered behind
another routine. -/
theorem winding_depicted :
    (chronicle [.register ⟨0, "first", [⟨.leave, [], []⟩]⟩, .register winding, .enterZone 3]
      ).routines.find? winding.method = some winding ∧
    (chronicle [.register ⟨0, "first", [⟨.leave, [], []⟩]⟩, .register winding, .enterZone 3]
      ).graph.Depicts winding :=
  ⟨by decide, depicts_of_registered _ (by decide)⟩

end SymbolicSearch.FlowGraph
