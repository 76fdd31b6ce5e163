/-
What a graph says of a block in short, against the instructions of the
block. Whether a block calls or throws is read off its last instruction;
which blocks leave a method is found by looking up the indices of the
instructions that do, one after another. Both agree with the code
(`summaries_agree`), for one reason: whatever is not plain closes its run,
so it is the last instruction of its block (`eq_last_of_isAt`).

# The exits

An instruction that leaves is the last of its block, so two of them are
never in one block, and the later one is in the later block. The list of
exits, made by looking up increasing indices, is therefore increasing
itself, and the last instructions of the exit blocks are the instructions
that leave, in order (`Stands.map_last_exits`). A call takes one relation
back from each block in the list, which is how every way back is drawn and
drawn once.
-/
import SymbolicSearch.Proofs.Flow.Calls

namespace SymbolicSearch

namespace Routine

variable {r : Routine} {s : Span} {kind : InstrKind} {i : Nat}

/-- The instruction at an index is of a kind. -/
def IsAt (r : Routine) (kind : InstrKind) (i : Nat) : Prop :=
  ∃ ins, r.code[i]? = some ins ∧ ins.kind = kind

theorem isAt_iff : r.IsAt kind i ↔ r.code[i]?.map (·.kind) = some kind :=
  Option.map_eq_some_iff.symm

/-- An instruction leaves its method if it returns or throws. -/
theorem leavesAt_iff : r.leavesAt i = true ↔ r.IsAt .leave i ∨ r.IsAt .throw i := by
  unfold leavesAt IsAt
  cases r.code[i]? with
  | none => simp
  | some ins => simp

/-- Whatever is not plain closes its run. -/
theorem closesAt_of_isAt (hkind : kind ≠ .plain) (h : r.IsAt kind i) : r.closesAt i = true := by
  obtain ⟨ins, hins, rfl⟩ := h
  simp [closesAt, hins, hkind]

/-- So it is the last instruction of its run. -/
theorem eq_last_of_isAt (hs : s ∈ r.spans) (hi : s.contains i = true) (hkind : kind ≠ .plain)
    (h : r.IsAt kind i) : i = s.last := by
  by_contra hne
  have hopen := not_closes_of_ne_last hs hi hne
  rw [closesAt_of_isAt hkind h] at hopen
  cases hopen

theorem contains_last (hs : s ∈ r.spans) : s.contains s.last = true :=
  Span.contains_iff.2 ⟨(mem_spans.1 hs).2.1, Nat.le_refl _⟩

/-- A run has an instruction of a kind that closes just if its last one is
of that kind. -/
theorem exists_isAt_iff (hs : s ∈ r.spans) (hkind : kind ≠ .plain) :
    (∃ i, s.contains i = true ∧ r.IsAt kind i) ↔ r.IsAt kind s.last := by
  constructor
  · intro h
    obtain ⟨i, hi, hat⟩ := h
    exact eq_last_of_isAt hs hi hkind hat ▸ hat
  · intro h
    exact ⟨s.last, contains_last hs, h⟩

/-- An instruction that leaves is the last of its run. -/
theorem eq_last_of_leavesAt (hs : s ∈ r.spans) (hi : s.contains i = true)
    (h : r.leavesAt i = true) : i = s.last := by
  rcases leavesAt_iff.1 h with h | h
  · exact eq_last_of_isAt hs hi (by decide) h
  · exact eq_last_of_isAt hs hi (by decide) h

theorem exits_increasing (r : Routine) : r.exits.Pairwise (· < ·) :=
  List.pairwise_lt_range.filter _

/-- Past the last instruction of a run come the runs behind it. -/
theorem place_lt_place {t : Span} {j k l : Nat} (hs : r.spans[k]? = some s)
    (ht : r.spans[l]? = some t) (hj : t.contains j = true) (hlt : s.last < j) : k < l := by
  rw [Span.contains_iff] at hj
  rcases Nat.lt_trichotomy k l with hkl | rfl | hlk
  · exact hkl
  · obtain rfl := Option.some.inj (hs.symm.trans ht)
    omega
  · have hbefore := last_lt_first ht hs hlk
    have hrun := (mem_spans.1 (List.mem_of_getElem? hs)).2.1
    omega

end Routine

/-- What is said of a block in short agrees with the routine's code: it calls
or throws just if one of its instructions does, and an instruction of it
that is not plain is its last. -/
structure Block.Summarises (b : Block) (r : Routine) : Prop where
  hasCall : b.hasCall = true ↔ ∃ i, b.holds i = true ∧ r.IsAt .call i
  hasThrow : b.hasThrow = true ↔ ∃ i, b.holds i = true ∧ r.IsAt .throw i
  last : ∀ i kind, b.holds i = true → r.IsAt kind i → kind ≠ .plain → i = b.last

/-- The block of a run agrees with the run's code, whatever has been seen of
it since. -/
theorem Block.summarises_of_bare {b : Block} {r : Routine} {id : BlockNo} {s : Span}
    (hs : s ∈ r.spans) (hb : b.bare = Block.ofSpan r false id s) : b.Summarises r := by
  have hcall : b.hasCall = true ↔ r.IsAt .call s.last := by
    have hflag : b.hasCall = (ofSpan r false id s).hasCall := by rw [← hb, bare]
    rw [hflag, Routine.isAt_iff]
    exact decide_eq_true_iff
  have hthrow : b.hasThrow = true ↔ r.IsAt .throw s.last := by
    have hflag : b.hasThrow = (ofSpan r false id s).hasThrow := by rw [← hb, bare]
    rw [hflag, Routine.isAt_iff]
    exact decide_eq_true_iff
  refine ⟨?_, ?_, fun i kind hi hat hkind => ?_⟩
  · simp only [holds_of_bare hb]
    exact hcall.trans (Routine.exists_isAt_iff hs (by decide)).symm
  · simp only [holds_of_bare hb]
    exact hthrow.trans (Routine.exists_isAt_iff hs (by decide)).symm
  · rw [holds_of_bare hb] at hi
    rw [last_of_bare hb]
    exact Routine.eq_last_of_isAt hs hi hkind hat

namespace FlowGraph

variable {g g' : FlowGraph} {r : Routine} {base : Nat} {x y : BlockNo}

/-- The blocks of a routine in which an instruction returns or throws. -/
def Leaves (g : FlowGraph) (r : Routine) (x : BlockNo) : Prop :=
  x ∈ g.blocksOf r.method ∧
    ∃ b i, g.blocks[x]? = some b ∧ b.holds i = true ∧ (r.IsAt .leave i ∨ r.IsAt .throw i)

-- ================================================================ the exits

namespace Stands

/-- The exits of a standing routine are the blocks of the runs that leave. -/
theorem mem_exits_iff (hs : g.Stands r base) : x ∈ g.exitsOf r.method ↔ g.Leaves r x := by
  rw [hs.exitsOf, List.mem_filterMap, Leaves, hs.blocksOf]
  constructor
  · intro h
    obtain ⟨i, hi, hx⟩ := h
    obtain ⟨k, hk, rfl⟩ := Option.map_eq_some_iff.1 hx
    obtain ⟨s, hks, hin⟩ := Routine.place?_eq_some.1 hk
    obtain ⟨b, hb, heq⟩ := hs.fits.block hks
    refine ⟨mem_numbersFrom.2 ⟨k, s, hks, rfl⟩, b, i, hb, ?_, ?_⟩
    · rw [Block.holds_of_bare heq, hin]
    · exact Routine.leavesAt_iff.1 (Routine.mem_exits.1 hi)
  · intro h
    obtain ⟨hmem, b, i, hb, hholds, hleaves⟩ := h
    obtain ⟨k, s, hks, rfl⟩ := mem_numbersFrom.1 hmem
    obtain ⟨b', hb', heq⟩ := hs.fits.block hks
    obtain rfl := Option.some.inj (hb.symm.trans hb')
    rw [Block.holds_of_bare heq] at hholds
    refine ⟨i, Routine.mem_exits.2 (Routine.leavesAt_iff.2 hleaves), ?_⟩
    rw [Routine.place?_eq_some.2 ⟨s, hks, hholds⟩]
    rfl

/-- Each instruction that leaves is the last of its run, so the runs of two
of them follow one another as the two do. -/
theorem exits_increasing (hs : g.Stands r base) :
    (g.exitsOf r.method).Pairwise (· < ·) := by
  rw [hs.exitsOf, List.pairwise_filterMap]
  refine r.exits_increasing.imp_of_mem fun {i j} hi _ hij x hx y hy => ?_
  obtain ⟨k, hk, rfl⟩ := Option.map_eq_some_iff.1 hx
  obtain ⟨l, hl, rfl⟩ := Option.map_eq_some_iff.1 hy
  obtain ⟨s, hks, his⟩ := Routine.place?_eq_some.1 hk
  obtain ⟨t, hlt, hjt⟩ := Routine.place?_eq_some.1 hl
  have hlast := Routine.eq_last_of_leavesAt (List.mem_of_getElem? hks) his (Routine.mem_exits.1 hi)
  exact Nat.add_lt_add_left (Routine.place_lt_place hks hlt hjt (hlast ▸ hij)) base

/-- The last instructions of the exits are the instructions that leave, in
order. -/
theorem map_last_exits (hs : g.Stands r base) :
    (g.exitsOf r.method).map (fun x => g.blocks[x]?.map Block.last) = r.exits.map some := by
  rw [hs.exitsOf, List.map_filterMap, ← List.filterMap_eq_map]
  refine List.filterMap_congr fun i hi => ?_
  have hleaves := Routine.mem_exits.1 hi
  have hlt : i < r.code.length := List.mem_range.1 (List.mem_filter.1 hi).1
  obtain ⟨k, s, hks, hin⟩ := Routine.exists_place hlt
  obtain ⟨b, hb, heq⟩ := hs.fits.block hks
  rw [Routine.place?_eq_some.2 ⟨s, hks, hin⟩]
  simp only [Option.map_some, hb, Block.last_of_bare heq, Function.comp_apply]
  rw [Routine.eq_last_of_leavesAt (List.mem_of_getElem? hks) hin hleaves]

end Stands

/-- The blocks of a routine say of its code what is so, now and whatever
happens to the graph later. -/
theorem summarises_later (as bs : List Act)
    (hr : (chronicle as).routines.find? r.method = some r) :
    ∀ id ∈ (chronicle as).graph.blocksOf r.method,
      ∃ b, (chronicle (as ++ bs)).graph.blocks[id]? = some b ∧ b.Summarises r := by
  intro id hid
  obtain ⟨-, base, hs⟩ := (sound_chronicle as).stands _ r hr
  rw [hs.blocksOf] at hid
  obtain ⟨k, s, hks, rfl⟩ := mem_numbersFrom.1 hid
  obtain ⟨b, hb, heq⟩ := hs.fits.block hks
  obtain ⟨b', hb', hbare⟩ := (grows_chronicle as bs).block hb
  exact ⟨b', hb', Block.summarises_of_bare (List.mem_of_getElem? hks) (hbare.trans heq)⟩

-- =========================================================== the ways back

/-- The relations of a call into a standing routine: every block in which an
instruction leaves has its way back, and no relation is listed twice. -/
theorem Stands.callEdges (hs : g.Stands r base) (site entry back : BlockNo) :
    (g.callEdges site entry back r.method).Nodup ∧
      ∀ x, (⟨x, back, .back⟩ : Edge) ∈ g.callEdges site entry back r.method ↔ g.Leaves r x := by
  have hinj : Function.Injective fun x : BlockNo => (⟨x, back, .back⟩ : Edge) :=
    fun x y h => congrArg Edge.source h
  refine ⟨List.nodup_cons.2 ⟨fun hmem => ?_, ?_⟩, fun x => ?_⟩
  · obtain ⟨x, -, h⟩ := List.mem_map.1 hmem
    cases congrArg Edge.relation h
  · exact List.Nodup.map hinj (hs.exits_increasing.imp Nat.ne_of_lt)
  · rw [FlowGraph.callEdges, List.mem_cons, ← hs.mem_exits_iff]
    simp

/-- After a call that was seen to happen there is just one way back from
each block in which an instruction of the callee leaves. -/
theorem count_back_of_seen {before : List Act} {load : Loader} {site back entry : Stmt}
    (hseen : ((chronicle before).graph.observe load site back entry).2 = .ok ())
    (hr : (chronicle (before ++ [.observe load site back entry])).routines.find? r.method = some r)
    (hm : entry.site.method = r.method) :
    ∃ y, (chronicle (before ++ [.observe load site back entry])).graph.blockAt back = .ok y ∧
      ∀ x, (chronicle (before ++ [.observe load site back entry])).graph.Leaves r x →
        (chronicle (before ++ [.observe load site back entry])).graph.edges.count
          ⟨x, y, .back⟩ = 1 := by
  obtain ⟨hplaced, hdrawn⟩ := drawn_of_seen hseen
  obtain ⟨-, base, hs⟩ := (sound_chronicle _).stands _ r hr
  have hback := hplaced
  obtain ⟨-, -, y, -, -, hy⟩ := hback
  rw [chronicle_concat] at hs ⊢
  refine ⟨y, hy, fun x hx => ?_⟩
  have hnodup := nodup_act (nodup_chronicle before) (.observe load site back entry)
  refine List.count_eq_one_of_mem hnodup ((mem_edges_act (Or.inr rfl) _).2 (Or.inl ?_))
  rw [hdrawn]
  refine (mem_callsBetween_of_placed hplaced).2 (Or.inr ⟨rfl, ?_, hy⟩)
  rw [hm]
  exact hs.mem_exits_iff.2 hx

/-- The exits that a graph lists for a routine are right for its code. -/
structure ExitsExact (g : FlowGraph) (r : Routine) : Prop where
  increasing : (g.exitsOf r.method).Pairwise (· < ·)
  /-- They are the blocks in which an instruction returns or throws. -/
  mem_iff : ∀ x, x ∈ g.exitsOf r.method ↔ g.Leaves r x
  /-- Those instructions, in order, are the last ones of the exits. -/
  last : (g.exitsOf r.method).map (fun x => g.blocks[x]?.map Block.last) = r.exits.map some
  /-- A call lists its relations once each, with one way back from each of
  the exits. -/
  back : ∀ site entry back, (g.callEdges site entry back r.method).Nodup ∧
    ∀ x, (⟨x, back, .back⟩ : Edge) ∈ g.callEdges site entry back r.method ↔ g.Leaves r x

/-- Of a registered routine, whatever graph it is registered in: each block
says that it calls or throws just if one of its instructions does, which is
then its last, and goes on saying so whatever happens to the graph; the exits
are right for the code; and after a call into the routine that was seen to
happen there is a way back from each block in which an instruction leaves,
and only one. -/
theorem summaries_agree (as bs : List Act)
    (hr : (chronicle as).routines.find? r.method = some r) :
    (∀ id ∈ (chronicle as).graph.blocksOf r.method,
        ∃ b, (chronicle (as ++ bs)).graph.blocks[id]? = some b ∧ b.Summarises r) ∧
      (chronicle as).graph.ExitsExact r ∧
      ∀ before load site back entry, as = before ++ [.observe load site back entry] →
        ((chronicle before).graph.observe load site back entry).2 = .ok () →
        entry.site.method = r.method →
          ∃ y, (chronicle as).graph.blockAt back = .ok y ∧
            ∀ x, (chronicle as).graph.Leaves r x →
              (chronicle as).graph.edges.count ⟨x, y, .back⟩ = 1 := by
  obtain ⟨-, base, hs⟩ := (sound_chronicle as).stands _ r hr
  refine ⟨summarises_later as bs hr,
    ⟨hs.exits_increasing, fun x => hs.mem_exits_iff, hs.map_last_exits, hs.callEdges⟩, ?_⟩
  intro before load site back entry heq hseen hm
  subst heq
  exact count_back_of_seen hseen hr hm

/-- A routine with a handler in the middle of its straight line, a throw that
has a handler, and a call at its end. -/
def stormy : Routine where
  method := 6
  name := "stormy"
  code := [⟨.plain, [1], [2]⟩, ⟨.plain, [2], []⟩, ⟨.throw, [], [4]⟩, ⟨.leave, [], []⟩,
    ⟨.plain, [5], []⟩, ⟨.call, [9], []⟩]

/-- It comes in through a call from another routine. -/
def stormyCalled : List Act :=
  [.register codeless, .register guarded, .observe (Routine.loader [stormy]) (.instr ⟨3, 1⟩)
    (.instr ⟨3, 2⟩) (.methodEntry ⟨6, 0⟩)]

/-- The way back is drawn from the throw and from the return, and the call
at the end is seen in the flag of its block. -/
theorem summaries_agree_stormy :
    (chronicle stormyCalled).routines.find? stormy.method = some stormy ∧
      (chronicle stormyCalled).graph.ExitsExact stormy ∧
      (∃ b, (chronicle (stormyCalled ++ [.cover 6])).graph.blocks[6]? = some b ∧
        b.Summarises stormy ∧ b.hasCall = true) ∧
      (chronicle stormyCalled).graph.exitsOf 6 = [4, 5] ∧
      ∃ y, (chronicle stormyCalled).graph.blockAt (.instr ⟨3, 2⟩) = .ok y ∧
        (chronicle stormyCalled).graph.edges.count ⟨4, y, .back⟩ = 1 ∧
        (chronicle stormyCalled).graph.edges.count ⟨5, y, .back⟩ = 1 := by
  have hr : (chronicle stormyCalled).routines.find? stormy.method = some stormy := by decide
  obtain ⟨hflags, hexits, hback⟩ := summaries_agree stormyCalled [.cover 6] hr
  obtain ⟨b, hb, hsum⟩ := hflags 6 (by decide)
  have hcall : b.hasCall = true :=
    hsum.hasCall.2 ⟨5, by rw [← Option.some.inj hb]; decide, ⟨_, rfl, rfl⟩⟩
  obtain ⟨y, hy, hcount⟩ := hback [.register codeless, .register guarded] _ _ _ _ rfl rfl rfl
  exact ⟨hr, hexits, ⟨b, hb, hsum, hcall⟩, by decide, y, hy,
    hcount 4 ((hexits.mem_iff 4).1 (by decide)), hcount 5 ((hexits.mem_iff 5).1 (by decide))⟩

end FlowGraph

end SymbolicSearch
