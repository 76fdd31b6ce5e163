/-
The cut of a routine is the coarsest that its control flow allows. A cut
divides the code into runs, and it is legal if no run goes on past an
instruction that closes it and control enters no run but at its start
(`Respects`). The runs of a routine are such a cut, and every run of any
other lies inside one of them (`spans_coarsest`).

# No needless boundary

A boundary is needed exactly where `opens` puts one. So a run that ran
across the end of a run of the routine would hold an index that opens a
run, other than its own first; what put that index among the openings is
an instruction that closes, jumps or is caught there, and none of the
three is allowed (`not_opens_of_respects`).
-/
import SymbolicSearch.Proofs.Flow.Partition

namespace SymbolicSearch

/-- A list of runs, in any order, divides up code of a length: no run is
empty or reaches past the end, every index lies in a run, and in one only. -/
structure Span.Divides (length : Nat) (cut : List Span) : Prop where
  inside : ∀ s ∈ cut, s.first ≤ s.last ∧ s.last < length
  covers : ∀ i < length, ∃ s ∈ cut, s.contains i = true
  apart : ∀ s ∈ cut, ∀ t ∈ cut, ∀ i, s.contains i = true → t.contains i = true → s = t

namespace Routine

variable {r : Routine}

/-- A run respects the control flow of a routine: an instruction in it
that closes is its last, and wherever control enters it, from an
instruction that closes or by an exception, is its first. -/
structure Respects (r : Routine) (s : Span) : Prop where
  closes : ∀ i, s.contains i = true → r.closesAt i = true → i = s.last
  jumps : ∀ i j, s.contains j = true → r.closesAt i = true → r.Flows i j → j = s.first
  catches : ∀ i j, s.contains j = true → r.Catches i j → j = s.first

/-- A cut of the code into runs that all respect the control flow. -/
structure Legal (r : Routine) (cut : List Span) : Prop where
  divides : Span.Divides r.code.length cut
  respects : ∀ s ∈ cut, r.Respects s

-- ======================================================= the runs are legal

theorem divides_spans (r : Routine) : Span.Divides r.code.length r.spans where
  inside _ hs := ⟨(mem_spans.1 hs).2.1, (mem_spans.1 hs).2.2.1⟩
  covers _ hi := exists_span hi
  apart _ hs _ ht _ his hit := eq_of_contains hs ht his hit

theorem respects_of_mem {s : Span} (hs : s ∈ r.spans) : r.Respects s where
  closes i hi hclose := by
    by_contra hne
    rw [not_closes_of_ne_last hs hi hne] at hclose
    exact Bool.false_ne_true hclose
  jumps _ _ hj hclose hflow := eq_first_of_opens hs hj (opens_of_flows hclose hflow)
  catches _ _ hj hcatch := eq_first_of_catches hs hj hcatch

theorem legal_spans (r : Routine) : r.Legal r.spans where
  divides := r.divides_spans
  respects _ hs := respects_of_mem hs

-- ============================================================= and coarsest

/-- Inside a run that respects the control flow nothing opens but its
first index. -/
theorem not_opens_of_respects {s : Span} (hs : r.Respects s) {j : Nat}
    (hfirst : s.first < j) (hlast : j ≤ s.last) : j ∉ r.opens := by
  intro hopen
  have hj : s.contains j = true := Span.contains_iff.2 ⟨Nat.le_of_lt hfirst, hlast⟩
  obtain ⟨hlt, rfl | ⟨i, ins, hi, hfrom⟩⟩ := mem_opens.1 hopen
  · exact Nat.not_lt_zero _ hfirst
  · rcases mem_opensFrom.1 hfrom with ⟨hclose, rfl | htarget⟩ | hhandler
    · -- the instruction before `j` closes, and it lies in `s` too
      have hbefore : s.contains i = true := Span.contains_iff.2 ⟨by omega, by omega⟩
      have := hs.closes i hbefore hclose
      omega
    · have := hs.jumps i j hj hclose ⟨hlt, ins, hi, htarget⟩
      omega
    · have := hs.catches i j hj ⟨hlt, ins, hi, hhandler⟩
      omega

/-- A run that respects the control flow lies inside a run of the routine. -/
theorem exists_span_of_respects {s : Span} (hs : r.Respects s) (hle : s.first ≤ s.last)
    (hlt : s.last < r.code.length) : ∃ t ∈ r.spans, t.first ≤ s.first ∧ s.last ≤ t.last := by
  obtain ⟨t, ht, hin⟩ := exists_span (r := r) (Nat.lt_of_le_of_lt hle hlt)
  rw [Span.contains_iff] at hin
  refine ⟨t, ht, hin.1, ?_⟩
  by_contra hcross
  have hnext : t.last + 1 ∈ r.opens := (mem_spans.1 ht).2.2.2.2.resolve_right (by omega)
  exact not_opens_of_respects hs (by omega) (by omega) hnext

/-- The runs of a routine follow one another from the first index of the
code to the last, they are a legal cut of it, and there is none that is
coarser anywhere: a run of another legal cut lies inside one of them. -/
theorem spans_coarsest (r : Routine) :
    Span.Tile r.code.length 0 r.spans ∧ r.Legal r.spans ∧
      ∀ cut, r.Legal cut → ∀ s ∈ cut, ∃ t ∈ r.spans, t.first ≤ s.first ∧ s.last ≤ t.last := by
  refine ⟨r.tile_spans, r.legal_spans, fun cut hcut s hs => ?_⟩
  obtain ⟨hle, hlt⟩ := hcut.divides.inside s hs
  exact exists_span_of_respects (hcut.respects s hs) hle hlt

/-- The second instruction closes its run although it leads past the end.
That the third is caught past the end makes no boundary. -/
example :
    spans ⟨0, "odd", [⟨.plain, [1], [2]⟩, ⟨.plain, [7, 7], []⟩, ⟨.plain, [3], [9]⟩,
      ⟨.leave, [], []⟩]⟩ = [⟨0, 1⟩, ⟨2, 3⟩] := by decide

end Routine

end SymbolicSearch
