/-
Finding the block of an instruction by halving. A method's blocks are
listed in the order of its code, so the one that can hold an index is the
last that begins at the index or before it, and it can be found without
looking at them all. On the blocks of a routine this comes to the same as
taking the first block that holds the index (`bisect?_eq_holder?`), because
its runs begin in order and each ends before the next one begins.
-/
import SymbolicSearch.Proofs.Flow.Growth

namespace SymbolicSearch

-- ================================================================== halving

/-- Where a test stops passing, of the places from `lo` up to `hi`, found
by halving them again and again. -/
def turningPoint (test : Nat → Bool) (lo hi : Nat) : Nat :=
  if lo < hi then
    if test ((lo + hi) / 2) then turningPoint test ((lo + hi) / 2 + 1) hi
    else turningPoint test lo ((lo + hi) / 2)
  else lo
termination_by hi - lo

theorem turningPoint_bounds (test : Nat → Bool) {lo hi : Nat} (h : lo ≤ hi) :
    lo ≤ turningPoint test lo hi ∧ turningPoint test lo hi ≤ hi := by
  fun_induction turningPoint test lo hi with
  | case1 lo hi hlt _ ih =>
      have := ih (by omega)
      omega
  | case2 lo hi hlt _ ih =>
      have := ih (by omega)
      omega
  | case3 lo hi hge => omega

/-- If a test that fails at a place fails at all later ones, it passes at
the places before the turning point and at no other. -/
theorem test_iff_lt_turningPoint {test : Nat → Bool} {lo hi i : Nat}
    (hmono : ∀ i j, i ≤ j → test j = true → test i = true) (hlo : lo ≤ i) (hhi : i < hi) :
    test i = true ↔ i < turningPoint test lo hi := by
  fun_induction turningPoint test lo hi with
  | case1 lo hi hlt hpass ih =>
      by_cases hmid : i ≤ (lo + hi) / 2
      · have hbounds : (lo + hi) / 2 + 1 ≤ turningPoint test ((lo + hi) / 2 + 1) hi ∧ _ :=
          turningPoint_bounds test (by omega)
        exact iff_of_true (hmono i _ hmid hpass) (by omega)
      · exact ih (by omega) hhi
  | case2 lo hi hlt hfail ih =>
      by_cases hmid : (lo + hi) / 2 ≤ i
      · have hbounds : lo ≤ turningPoint test lo ((lo + hi) / 2) ∧ _ :=
          turningPoint_bounds test (by omega)
        exact iff_of_false (fun hi => hfail (hmono _ i hmid hi)) (by omega)
      · exact ih hlo (by omega)
  | case3 lo hi hge => omega

-- ================================================================== in order

namespace Routine

variable {r : Routine}

/-- Runs begin in the order in which they are listed. -/
theorem first_lt_first {j k : Nat} {s t : Span} (hs : r.spans[j]? = some s)
    (ht : r.spans[k]? = some t) (hjk : j < k) : s.first < t.first := by
  have hfirsts : r.spans.map Span.first = r.opens.toList := Span.map_first_between _ _
  have hsorted : (r.spans.map Span.first).Pairwise (· < ·) := by
    rw [hfirsts]
    exact opens_increasing
  obtain ⟨hj, rfl⟩ := List.getElem?_eq_some_iff.1 hs
  obtain ⟨hk, rfl⟩ := List.getElem?_eq_some_iff.1 ht
  exact List.pairwise_iff_getElem.1 (List.pairwise_map.1 hsorted) j k hj hk hjk

/-- A run ends before any later run begins. -/
theorem last_lt_first {j k : Nat} {s t : Span} (hs : r.spans[j]? = some s)
    (ht : r.spans[k]? = some t) (hjk : j < k) : s.last < t.first := by
  obtain ⟨-, -, -, hsep, -⟩ := mem_spans.1 (List.mem_of_getElem? hs)
  exact hsep _ (mem_spans.1 (List.mem_of_getElem? ht)).1 (first_lt_first hs ht hjk)

end Routine

namespace FlowGraph

variable {g : FlowGraph} {r : Routine} {base : Nat}

/-- The block at a place of a list begins at an index or before it. -/
def beginsBy (g : FlowGraph) (ids : List BlockNo) (index place : Nat) : Bool :=
  (ids[place]?.bind fun id => g.blocks[id]?).any (·.first ≤ index)

/-- Of the listed blocks, the last that begins at an index or before it,
if it holds the index. -/
def bisect? (g : FlowGraph) (ids : List BlockNo) (index : Nat) : Option BlockNo :=
  match turningPoint (g.beginsBy ids index) 0 ids.length with
  | 0 => none
  | k + 1 => ids[k]?.filter fun id => g.blocks[id]?.any (·.holds index)

theorem length_numbersFrom (r : Routine) (base : Nat) :
    (numbersFrom r base).length = r.spans.length := by
  rw [numbersFrom, List.length_range']

theorem getElem?_numbersFrom {k : Nat} (hk : k < r.spans.length) :
    (numbersFrom r base)[k]? = some (base + k) := by
  rw [numbersFrom, List.getElem?_range' hk, Nat.one_mul]

/-- Among a routine's blocks, the block at a place begins where the run at
that place does. -/
theorem beginsBy_iff (hf : g.Fits r base) {index k : Nat} :
    g.beginsBy (numbersFrom r base) index k = true ↔
      ∃ s, r.spans[k]? = some s ∧ s.first ≤ index := by
  by_cases hk : k < r.spans.length
  · have hs := List.getElem?_eq_getElem hk
    obtain ⟨b, hb, heq⟩ := hf.block hs
    rw [beginsBy, getElem?_numbersFrom hk, Option.bind_some, hb, Option.any_some,
      decide_eq_true_eq, Block.first_of_bare heq, hs]
    simp
  · have hnone : (numbersFrom r base)[k]? = none := by
      apply List.getElem?_eq_none
      rw [length_numbersFrom]
      omega
    rw [beginsBy, hnone, List.getElem?_eq_none (by omega)]
    simp

/-- A block that begins at an index or before it has none before it that
begins later. -/
theorem beginsBy_of_le (hf : g.Fits r base) {index i j : Nat} (hij : i ≤ j)
    (hj : g.beginsBy (numbersFrom r base) index j = true) :
    g.beginsBy (numbersFrom r base) index i = true := by
  obtain ⟨t, ht, hle⟩ := (beginsBy_iff hf).1 hj
  have hi : i < r.spans.length := by
    have := (List.getElem?_eq_some_iff.1 ht).1
    omega
  refine (beginsBy_iff hf).2 ⟨_, List.getElem?_eq_getElem hi, ?_⟩
  rcases Nat.eq_or_lt_of_le hij with rfl | hlt
  · obtain rfl := Option.some.inj (ht.symm.trans (List.getElem?_eq_getElem hi))
    exact hle
  · have := Routine.first_lt_first (List.getElem?_eq_getElem hi) ht hlt
    omega

/-- The search comes to the place after the run that an index lies in. -/
theorem turningPoint_of_place {index k : Nat} (hf : g.Fits r base)
    (hk : r.place? index = some k) :
    turningPoint (g.beginsBy (numbersFrom r base) index) 0 (numbersFrom r base).length = k + 1 := by
  obtain ⟨s, hs, hc⟩ := Routine.place?_eq_some.1 hk
  rw [Span.contains_iff] at hc
  have hmono : ∀ i j, i ≤ j → g.beginsBy (numbersFrom r base) index j = true →
      g.beginsBy (numbersFrom r base) index i = true := fun _ _ hij => beginsBy_of_le hf hij
  have hlength := length_numbersFrom r base
  have hlt := (List.getElem?_eq_some_iff.1 hs).1
  have hbounds := turningPoint_bounds (g.beginsBy (numbersFrom r base) index)
    (Nat.zero_le (numbersFrom r base).length)
  have hbefore : k < turningPoint (g.beginsBy (numbersFrom r base) index) 0
      (numbersFrom r base).length :=
    (test_iff_lt_turningPoint hmono (Nat.zero_le k) (by omega)).1
      ((beginsBy_iff hf).2 ⟨s, hs, hc.1⟩)
  -- the next run, if there is one, begins past the index
  by_cases hnext : k + 1 < r.spans.length
  · have hafter : ¬ k + 1 < turningPoint (g.beginsBy (numbersFrom r base) index) 0
        (numbersFrom r base).length := by
      rw [← test_iff_lt_turningPoint hmono (Nat.zero_le _) (by omega), beginsBy_iff hf]
      intro h
      obtain ⟨t, ht, hle⟩ := h
      have := Routine.last_lt_first hs ht (Nat.lt_succ_self k)
      omega
    omega
  · omega

/-- Among a routine's blocks, halving finds the block that holds an index,
and no block if none does. -/
theorem bisect?_eq_holder? (hf : g.Fits r base) (index : Nat) :
    g.bisect? (numbersFrom r base) index = g.holder? (numbersFrom r base) index := by
  rw [holder?_eq hf]
  apply Option.ext
  intro id
  rw [Option.map_eq_some_iff]
  constructor
  · intro h
    unfold bisect? at h
    split at h
    next => cases h
    next k _ =>
      obtain ⟨hid, hholds⟩ := Option.filter_eq_some_iff.1 h
      have hk : k < r.spans.length := by
        have hlt := (List.getElem?_eq_some_iff.1 hid).1
        rwa [length_numbersFrom] at hlt
      rw [getElem?_numbersFrom hk] at hid
      obtain rfl := Option.some.inj hid
      have hs := List.getElem?_eq_getElem hk
      obtain ⟨b, hb, heq⟩ := hf.block hs
      rw [hb, Option.any_some, Block.holds_of_bare heq] at hholds
      exact ⟨k, Routine.place?_eq_some.2 ⟨_, hs, hholds⟩, rfl⟩
  · intro h
    obtain ⟨k, hk, rfl⟩ := h
    obtain ⟨s, hs, hc⟩ := Routine.place?_eq_some.1 hk
    obtain ⟨b, hb, heq⟩ := hf.block hs
    rw [bisect?, turningPoint_of_place hf hk]
    refine Option.filter_eq_some_iff.2
      ⟨getElem?_numbersFrom (List.getElem?_eq_some_iff.1 hs).1, ?_⟩
    rw [hb, Option.any_some, Block.holds_of_bare heq, hc]

end FlowGraph

end SymbolicSearch
