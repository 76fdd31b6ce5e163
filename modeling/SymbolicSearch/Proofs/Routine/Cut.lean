/-
The cut of a routine into runs, and what it says of the routine's control
flow. The runs come out of a list of first indices; `mem_between` and
`mem_opens` say what a run is without that list, and every later fact is
read off those two.

# Leaving a run

An instruction whose run goes on past it does not close, so its one
target is the next index (`flows_iff_of_ne_last`). Only the last
instruction of a run can send control elsewhere, and wherever it sends it
a run begins (`flows_last`). One step of control flow is therefore a step
inside a run or a step from the end of one to the start of another
(`flows_iff`), and a path is a walk through runs (`path_iff`).
-/
import Mathlib.Data.List.Nodup
import Mathlib.Logic.Relation
import SymbolicSearch.Routine.Cut

namespace SymbolicSearch

-- ==================================================== runs between starts

namespace Span

theorem contains_iff {s : Span} {i : Nat} : s.contains i = true ↔ s.first ≤ i ∧ i ≤ s.last := by
  simp [contains]

/-- The runs begin at the given indices, in their order. -/
theorem map_first_between (length : Nat) (l : List Nat) :
    (between length l).map first = l := by
  fun_induction between length l with
  | case1 => rfl
  | case2 s => rfl
  | case3 s t rest ih => rw [List.map_cons, ih]

/-- A run by its two ends: it begins at one of the given indices, no
other lies in it, and one of them or the end of the code comes next. -/
theorem mem_between {length : Nat} {l : List Nat} {s : Span}
    (hl : l.Pairwise (· < ·)) (hlt : ∀ a ∈ l, a < length) :
    s ∈ between length l ↔
      s.first ∈ l ∧ s.first ≤ s.last ∧ s.last < length ∧
        (∀ a ∈ l, s.first < a → s.last < a) ∧ (s.last + 1 ∈ l ∨ s.last + 1 = length) := by
  obtain ⟨f, e⟩ := s
  fun_induction between length l with
  | case1 => simp
  | case2 a =>
      have ha := hlt a (List.mem_singleton_self a)
      simp only [List.mem_singleton, Span.mk.injEq, forall_eq]
      omega
  | case3 a b rest ih =>
      obtain ⟨hab, htail⟩ := List.pairwise_cons.1 hl
      have hb := hlt b (by simp)
      have hfar : ∀ c ∈ rest, b < c := (List.pairwise_cons.1 htail).1
      have hnext : a < b := hab b List.mem_cons_self
      rw [List.mem_cons, ih htail fun c hc => hlt c (List.mem_cons_of_mem a hc)]
      simp only [Span.mk.injEq]
      constructor
      · intro h
        rcases h with ⟨rfl, rfl⟩ | ⟨hf, hle, hlast, hsep, hend⟩
        · refine ⟨List.mem_cons_self, by omega, by omega, fun c hc hlt => ?_, Or.inl ?_⟩
          · rcases List.mem_cons.1 hc with rfl | hc
            · omega
            · rcases List.mem_cons.1 hc with rfl | hc
              · omega
              · have := hfar c hc
                omega
          · rw [show b - 1 + 1 = b by omega]
            simp
        · refine ⟨List.mem_cons_of_mem a hf, hle, hlast, fun c hc hlt => ?_,
            hend.imp_left (List.mem_cons_of_mem a)⟩
          rcases List.mem_cons.1 hc with rfl | hc
          · exact absurd (hab f hf) (by omega)
          · exact hsep c hc hlt
      · intro h
        obtain ⟨hf, hle, hlast, hsep, hend⟩ := h
        rcases List.mem_cons.1 hf with rfl | hf
        · -- the first run: its end is squeezed between its start and the next one
          left
          have hsplit := hsep b (by simp) hnext
          rcases hend with hend | hend
          · rcases List.mem_cons.1 hend with hend | hend
            · omega
            · rcases List.mem_cons.1 hend with hend | hend
              · exact ⟨rfl, by omega⟩
              · have := hfar _ hend
                omega
          · omega
        · right
          have hfirst := hab f hf
          refine ⟨hf, hle, hlast, fun c hc => hsep c (List.mem_cons_of_mem a hc), ?_⟩
          refine hend.imp_left fun hmem => ?_
          rcases List.mem_cons.1 hmem with hmem | hmem
          · omega
          · exact hmem

end Span

namespace Routine

variable {r : Routine}

-- ============================================================ the starts

/-- Control can go on from one instruction to another. -/
def Flows (r : Routine) (i j : Nat) : Prop :=
  j < r.code.length ∧ ∃ ins, r.code[i]? = some ins ∧ j ∈ ins.targets

/-- What one instruction raises, another may catch. -/
def Catches (r : Routine) (i j : Nat) : Prop :=
  j < r.code.length ∧ ∃ ins, r.code[i]? = some ins ∧ j ∈ ins.handlers

theorem mem_opensFrom {i j : Nat} {ins : Instr} :
    j ∈ r.opensFrom i ins ↔
      (r.closesAt i = true ∧ (j = i + 1 ∨ j ∈ ins.targets)) ∨ j ∈ ins.handlers := by
  unfold opensFrom
  cases r.closesAt i <;> simp [or_assoc]

theorem mem_opens {j : Nat} :
    j ∈ r.opens ↔
      j < r.code.length ∧ (j = 0 ∨ ∃ i ins, r.code[i]? = some ins ∧ j ∈ r.opensFrom i ins) := by
  rw [opens, IdSet.mem_ofList, List.mem_filter, decide_eq_true_eq, List.mem_cons,
    List.mem_flatMap, and_comm]
  refine and_congr_right fun _ => or_congr_right ⟨?_, ?_⟩
  · intro h
    obtain ⟨⟨ins, i⟩, hmem, hj⟩ := h
    exact ⟨i, ins, List.mem_zipIdx_iff_getElem?.1 hmem, hj⟩
  · intro h
    obtain ⟨i, ins, hi, hj⟩ := h
    exact ⟨(ins, i), List.mem_zipIdx_iff_getElem?.2 hi, hj⟩

/-- A run begins wherever an instruction that closes its run may go on. -/
theorem opens_of_flows {i j : Nat} (hclose : r.closesAt i = true) (h : r.Flows i j) :
    j ∈ r.opens := by
  obtain ⟨hj, ins, hi, hmem⟩ := h
  exact mem_opens.2 ⟨hj, Or.inr ⟨i, ins, hi, mem_opensFrom.2 (Or.inl ⟨hclose, Or.inr hmem⟩)⟩⟩

/-- A run begins after every instruction that closes one. -/
theorem opens_succ {i : Nat} (hclose : r.closesAt i = true) (hi : i + 1 < r.code.length) :
    i + 1 ∈ r.opens := by
  have hget : r.code[i]? = some r.code[i] := List.getElem?_eq_getElem (by omega)
  exact mem_opens.2 ⟨hi, Or.inr ⟨i, _, hget, mem_opensFrom.2 (Or.inl ⟨hclose, Or.inl rfl⟩)⟩⟩

/-- A run begins at every handler. -/
theorem opens_of_catches {i j : Nat} (h : r.Catches i j) : j ∈ r.opens := by
  obtain ⟨hj, ins, hi, hmem⟩ := h
  exact mem_opens.2 ⟨hj, Or.inr ⟨i, ins, hi, mem_opensFrom.2 (Or.inr hmem)⟩⟩

/-- Past an instruction that closes no run, control goes to the next index
and nowhere else. -/
theorem flows_of_not_closes {i j : Nat} (hopen : r.closesAt i = false) :
    r.Flows i j ↔ j = i + 1 ∧ i + 1 < r.code.length := by
  unfold closesAt at hopen
  cases hi : r.code[i]? with
  | none => simp [hi] at hopen
  | some ins =>
      simp only [hi, Bool.not_eq_false', Bool.and_eq_true, decide_eq_true_eq] at hopen
      constructor
      · intro h
        obtain ⟨hj, ins', hi', hmem⟩ := h
        obtain rfl : ins = ins' := Option.some.inj (hi.symm.trans hi')
        rw [hopen.2, List.mem_singleton] at hmem
        exact ⟨hmem, hmem ▸ hj⟩
      · intro h
        obtain ⟨rfl, hj⟩ := h
        exact ⟨hj, ins, hi, by simp [hopen.2]⟩

-- ============================================================== the runs

theorem opens_increasing : r.opens.toList.Pairwise (· < ·) := r.opens.increasing

theorem mem_spans {s : Span} :
    s ∈ r.spans ↔
      s.first ∈ r.opens ∧ s.first ≤ s.last ∧ s.last < r.code.length ∧
        (∀ i ∈ r.opens, s.first < i → s.last < i) ∧
        (s.last + 1 ∈ r.opens ∨ s.last + 1 = r.code.length) :=
  Span.mem_between opens_increasing fun _ h => (mem_opens.1 h).1

/-- A run begins at most once, so runs that share an index are one. -/
theorem eq_of_contains {s t : Span} (hs : s ∈ r.spans) (ht : t ∈ r.spans) {i : Nat}
    (his : s.contains i = true) (hit : t.contains i = true) : s = t := by
  obtain ⟨hsf, -, hsl, hsep, hse⟩ := mem_spans.1 hs
  obtain ⟨htf, -, htl, htep, hte⟩ := mem_spans.1 ht
  rw [Span.contains_iff] at his hit
  have hfirst : s.first = t.first := by
    rcases Nat.lt_trichotomy s.first t.first with h | h | h
    · have := hsep _ htf h
      omega
    · exact h
    · have := htep _ hsf h
      omega
  have hlast : s.last = t.last := by
    rcases Nat.lt_trichotomy s.last t.last with h | h | h
    · -- a run begins after `s`, inside `t`
      rcases hse with hse | hse
      · have := htep _ hse (by omega)
        omega
      · omega
    · exact h
    · rcases hte with hte | hte
      · have := hsep _ hte (by omega)
        omega
      · omega
  cases s
  cases t
  simp_all

/-- The places of two runs that share an index are one place. -/
theorem place_unique {s t : Span} {k l i : Nat} (hs : r.spans[k]? = some s)
    (ht : r.spans[l]? = some t) (his : s.contains i = true) (hit : t.contains i = true) :
    k = l := by
  obtain rfl := eq_of_contains (List.mem_of_getElem? hs) (List.mem_of_getElem? ht) his hit
  have hnodup : r.spans.Nodup := by
    have h := (opens_increasing (r := r)).imp Nat.ne_of_lt
    rw [← Span.map_first_between r.code.length r.opens.toList] at h
    exact List.Nodup.of_map _ h
  obtain ⟨hk, hks⟩ := List.getElem?_eq_some_iff.1 hs
  obtain ⟨hl, hls⟩ := List.getElem?_eq_some_iff.1 ht
  exact (hnodup.getElem_inj_iff).1 (hks.trans hls.symm)

/-- A run begins wherever one is said to begin. -/
theorem exists_span_of_opens {i : Nat} (hi : i ∈ r.opens) : ∃ s ∈ r.spans, s.first = i := by
  have hmem : i ∈ r.spans.map Span.first := by
    rw [spans, Span.map_first_between]
    exact hi
  exact List.mem_map.1 hmem

/-- Every index of the code lies in a run. -/
theorem exists_span {i : Nat} (hi : i < r.code.length) :
    ∃ s ∈ r.spans, s.contains i = true := by
  induction i with
  | zero =>
      obtain ⟨s, hs, hf⟩ := exists_span_of_opens (mem_opens.2 ⟨hi, Or.inl rfl⟩)
      exact ⟨s, hs, Span.contains_iff.2 (by omega)⟩
  | succ i ih =>
      obtain ⟨s, hs, hc⟩ := ih (by omega)
      rw [Span.contains_iff] at hc
      by_cases hin : i + 1 ≤ s.last
      · exact ⟨s, hs, Span.contains_iff.2 (by omega)⟩
      · -- the run of `i` ends there, so another begins
        obtain ⟨-, -, -, -, hend⟩ := mem_spans.1 hs
        have hnext : i + 1 = s.last + 1 := by omega
        obtain ⟨t, ht, hf⟩ := exists_span_of_opens (hend.resolve_right (by omega))
        have hle := (mem_spans.1 ht).2.1
        exact ⟨t, ht, Span.contains_iff.2 (by omega)⟩

/-- The place of the run that an index lies in. -/
def place? (r : Routine) (i : Nat) : Option Nat := r.spans.findIdx? (·.contains i)

theorem place?_eq_some {i k : Nat} :
    r.place? i = some k ↔ ∃ s, r.spans[k]? = some s ∧ s.contains i = true := by
  rw [place?, List.findIdx?_eq_some_iff_getElem]
  constructor
  · intro h
    obtain ⟨hk, hc, -⟩ := h
    exact ⟨_, List.getElem?_eq_getElem hk, hc⟩
  · intro h
    obtain ⟨s, hs, hc⟩ := h
    obtain ⟨hk, hks⟩ := List.getElem?_eq_some_iff.1 hs
    refine ⟨hk, hks ▸ hc, fun j hj hcj => ?_⟩
    have := place_unique hs (List.getElem?_eq_getElem (by omega)) hc hcj
    omega

theorem exists_place {i : Nat} (hi : i < r.code.length) :
    ∃ (k : Nat) (s : Span), r.spans[k]? = some s ∧ s.contains i = true := by
  obtain ⟨s, hs, hc⟩ := exists_span hi
  obtain ⟨k, hk⟩ := List.mem_iff_getElem?.1 hs
  exact ⟨k, s, hk, hc⟩

-- ========================================================= leaving a run

theorem mem_exits {i : Nat} : i ∈ r.exits ↔ r.leavesAt i = true := by
  rw [exits, List.mem_filter, List.mem_range, and_iff_right_iff_imp]
  intro h
  by_contra hge
  rw [leavesAt, List.getElem?_eq_none (Nat.le_of_not_lt hge)] at h
  cases h

/-- An instruction that is not the last of its run does not close it. -/
theorem not_closes_of_ne_last {s : Span} (hs : s ∈ r.spans) {i : Nat}
    (hi : s.contains i = true) (hne : i ≠ s.last) : r.closesAt i = false := by
  obtain ⟨-, -, hlast, hsep, -⟩ := mem_spans.1 hs
  rw [Span.contains_iff] at hi
  by_contra hclose
  have := hsep (i + 1) (opens_succ (by simpa using hclose) (by omega)) (by omega)
  omega

/-- A run begins wherever the last instruction of a run sends control. -/
theorem opens_of_flows_last {s : Span} (hs : s ∈ r.spans) {j : Nat} (h : r.Flows s.last j) :
    j ∈ r.opens := by
  by_cases hclose : r.closesAt s.last = true
  · exact opens_of_flows hclose h
  · obtain ⟨rfl, hlt⟩ := (flows_of_not_closes (by simpa using hclose)).1 h
    obtain ⟨-, -, -, -, hend⟩ := mem_spans.1 hs
    exact hend.resolve_right (by omega)

/-- Where a run begins, it is the first index of the run it lies in. -/
theorem eq_first_of_opens {s : Span} (hs : s ∈ r.spans) {i : Nat} (hi : s.contains i = true)
    (hopen : i ∈ r.opens) : i = s.first := by
  obtain ⟨-, -, -, hsep, -⟩ := mem_spans.1 hs
  rw [Span.contains_iff] at hi
  by_contra hne
  have := hsep i hopen (by omega)
  omega

/-- One run can be followed by another: the last instruction of the one
sends control into the other. Runs are named by their places. -/
def Leads (r : Routine) (k l : Nat) : Prop :=
  ∃ s t j, r.spans[k]? = some s ∧ r.spans[l]? = some t ∧ r.Flows s.last j ∧ t.contains j = true

/-- One run is guarded by another: an instruction of the one may raise
what an instruction in the other catches. -/
def Guards (r : Routine) (k l : Nat) : Prop :=
  ∃ s t i j, r.spans[k]? = some s ∧ r.spans[l]? = some t ∧ s.contains i = true ∧
    r.Catches i j ∧ t.contains j = true

/-- One step of control flow: to the next index of a run, or from the end
of a run to the start of one that can follow it. -/
theorem flows_iff {s t : Span} {k l i j : Nat} (hs : r.spans[k]? = some s)
    (ht : r.spans[l]? = some t) (hi : s.contains i = true) (hj : t.contains j = true) :
    r.Flows i j ↔
      (k = l ∧ i ≠ s.last ∧ j = i + 1) ∨ (i = s.last ∧ j = t.first ∧ r.Leads k l) := by
  have hsmem := List.mem_of_getElem? hs
  have htmem := List.mem_of_getElem? ht
  constructor
  · intro h
    by_cases hlast : i = s.last
    · right
      refine ⟨hlast, ?_, s, t, j, hs, ht, hlast ▸ h, hj⟩
      exact eq_first_of_opens htmem hj (opens_of_flows_last hsmem (hlast ▸ h))
    · left
      obtain ⟨rfl, -⟩ := (flows_of_not_closes (not_closes_of_ne_last hsmem hi hlast)).1 h
      have hsj : s.contains (i + 1) = true := by
        rw [Span.contains_iff] at hi ⊢
        omega
      exact ⟨place_unique hs ht hsj hj, hlast, rfl⟩
  · intro h
    rcases h with ⟨rfl, hne, rfl⟩ | ⟨rfl, rfl, s', t', j', hs', ht', hflow, hj'⟩
    · obtain rfl : s = t := Option.some.inj (hs.symm.trans ht)
      have hlt := (mem_spans.1 hsmem).2.2.1
      rw [Span.contains_iff] at hj
      exact (flows_of_not_closes (not_closes_of_ne_last hsmem hi hne)).2 ⟨rfl, by omega⟩
    · obtain rfl : s = s' := Option.some.inj (hs.symm.trans hs')
      obtain rfl : t = t' := Option.some.inj (ht.symm.trans ht')
      rwa [← eq_first_of_opens htmem hj' (opens_of_flows_last hsmem hflow)]

/-- A handler is the first index of its run. -/
theorem eq_first_of_catches {s : Span} (hs : s ∈ r.spans) {i j : Nat}
    (hj : s.contains j = true) (h : r.Catches i j) : j = s.first :=
  eq_first_of_opens hs hj (opens_of_catches h)

-- ================================================================= paths

/-- Control can come from one instruction to another in any number of
steps. -/
def Reaches (r : Routine) : Nat → Nat → Prop := Relation.ReflTransGen r.Flows

/-- Control comes to every later index of a run. -/
theorem reaches_of_le {s : Span} {k i : Nat} (hs : r.spans[k]? = some s)
    (hi : s.contains i = true) {j : Nat} (hj : s.contains j = true) (hij : i ≤ j) :
    r.Reaches i j := by
  obtain ⟨d, rfl⟩ := Nat.exists_eq_add_of_le hij
  induction d with
  | zero => exact .refl
  | succ d ih =>
      have hmid : s.contains (i + d) = true := by
        rw [Span.contains_iff] at hi hj ⊢
        omega
      have hne : i + d ≠ s.last := by
        rw [Span.contains_iff] at hj
        omega
      have hstep : r.Flows (i + d) (i + (d + 1)) :=
        (flows_iff hs hs hmid hj).2 (Or.inl ⟨rfl, hne, rfl⟩)
      exact (ih hmid (Nat.le_add_right i d)).tail hstep

/-- Control comes from anywhere in a run to anywhere in a run that can
follow it. -/
theorem reaches_of_leads {s t : Span} {k l i j : Nat} (hs : r.spans[k]? = some s)
    (ht : r.spans[l]? = some t) (hi : s.contains i = true) (hj : t.contains j = true)
    (h : r.Leads k l) : r.Reaches i j := by
  have hlast : s.contains s.last = true :=
    Span.contains_iff.2 ⟨(mem_spans.1 (List.mem_of_getElem? hs)).2.1, Nat.le_refl _⟩
  have hfirst : t.contains t.first = true :=
    Span.contains_iff.2 ⟨Nat.le_refl _, (mem_spans.1 (List.mem_of_getElem? ht)).2.1⟩
  have hjump : r.Flows s.last t.first :=
    (flows_iff hs ht hlast hfirst).2 (Or.inr ⟨rfl, rfl, h⟩)
  have hbefore := reaches_of_le hs hi hlast (Span.contains_iff.1 hi).2
  have hafter := reaches_of_le ht hfirst hj (Span.contains_iff.1 hj).1
  exact (hbefore.tail hjump).trans hafter

/-- Paths of control are walks through runs: inside one run forwards, or
from run to run. -/
theorem reaches_iff {s t : Span} {k l i j : Nat} (hs : r.spans[k]? = some s)
    (ht : r.spans[l]? = some t) (hi : s.contains i = true) (hj : t.contains j = true) :
    r.Reaches i j ↔ (k = l ∧ i ≤ j) ∨ Relation.TransGen r.Leads k l := by
  constructor
  · -- from the end of the path backwards; the run that a step starts from varies
    intro h
    induction h using Relation.ReflTransGen.head_induction_on generalizing s k with
    | refl => exact Or.inl ⟨place_unique hs ht hi hj, Nat.le_refl _⟩
    | head hstep _ ih =>
        obtain ⟨m, u, hu, hc⟩ := exists_place hstep.1
        rcases (flows_iff hs hu hi hc).1 hstep with ⟨rfl, -, rfl⟩ | ⟨-, -, hlead⟩
        · exact (ih hu hc).imp_left fun h => ⟨h.1, by omega⟩
        · rcases ih hu hc with ⟨rfl, -⟩ | hrest
          · exact Or.inr (.single hlead)
          · exact Or.inr (.head hlead hrest)
  · intro h
    rcases h with ⟨rfl, hle⟩ | h
    · obtain rfl : s = t := Option.some.inj (hs.symm.trans ht)
      exact reaches_of_le hs hi hj hle
    · induction h using Relation.TransGen.head_induction_on generalizing s i with
      | single hlead => exact reaches_of_leads hs ht hi hj hlead
      | head hlead _ ih =>
          have hnext := hlead
          obtain ⟨_, u, n, -, hu, -, hn⟩ := hnext
          exact (reaches_of_leads hs hu hi hn hlead).trans (ih hu hn)

end Routine

end SymbolicSearch
