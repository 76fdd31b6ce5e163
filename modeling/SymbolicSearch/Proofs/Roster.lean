/-
The reference pool: which states are live after some notices, and under
which handle each of them was given last. A roster has no order and no
adviser; it is a function of what was told.

# Faithful pools

A pool is faithful to a reading of its handles if each notice does to the
reading what it does to a roster, and choosing goes by the reading alone.
A notice may fail, but only one of a move, and then the reading stays as
it was. Every kind of pool is shown to be faithful in its own module; what
follows for runs is proved here once.
-/
import Mathlib.Data.List.Induction
import SymbolicSearch.Proofs.Scene

namespace SymbolicSearch

-- ================================================================== rosters

/-- What a notice makes of the handles that states are live with. A state
that comes in again keeps its handle. -/
def Notice.update (n : Notice) (ρ : StateNo → Option Handle) (id : StateNo) : Option Handle :=
  match n with
  | .added hs => (ρ id).or (hs.find? fun h => h.id = id)
  | .removed h => if id = h.id then none else ρ id
  | .moved h => if id = h.id then (ρ id).map fun _ => h else ρ id

/-- The handles of the states that are live after some notices. -/
def roster (ns : List Notice) : StateNo → Option Handle :=
  ns.foldl (fun ρ n => n.update ρ) fun _ => none

/-- What a pool is told in a run, in order. -/
def notices (as : List Act) : List Notice := as.filterMap Act.notice?

/-- A move that could not be followed. -/
def Outcome.isMiss : Outcome → Bool
  | .told (.moved _) (.error _) => true
  | _ => false

/-- The state was added and has not been removed since. -/
def Live (ns : List Notice) (id : StateNo) : Prop :=
  ∃ before hs after, ns = before ++ Notice.added hs :: after ∧ (∃ h ∈ hs, h.id = id) ∧
    ∀ h, Notice.removed h ∈ after → h.id ≠ id

theorem roster_concat (ns : List Notice) (n : Notice) :
    roster (ns ++ [n]) = n.update (roster ns) := by
  rw [roster, List.foldl_append]
  rfl

theorem not_live_nil (id : StateNo) : ¬ Live [] id := by
  intro h
  obtain ⟨before, hs, after, heq, -⟩ := h
  cases before <;> cases heq

/-- A state is live after a notice if it comes in, or if it was live and
is not removed. -/
theorem live_concat {ns : List Notice} {n : Notice} {id : StateNo} :
    Live (ns ++ [n]) id ↔
      (∃ hs, n = .added hs ∧ ∃ h ∈ hs, h.id = id) ∨
        Live ns id ∧ ∀ h, n = .removed h → h.id ≠ id := by
  constructor
  · intro h
    obtain ⟨before, hs, after, heq, hmem, hafter⟩ := h
    rcases List.eq_nil_or_concat after with hnil | hlast
    · subst hnil
      obtain ⟨-, hn⟩ := List.append_inj' heq rfl
      exact Or.inl ⟨hs, List.head_eq_of_cons_eq hn, hmem⟩
    · obtain ⟨rest, last, hrest⟩ := hlast
      rw [List.concat_eq_append] at hrest
      subst hrest
      rw [← List.cons_append, ← List.append_assoc] at heq
      obtain ⟨hns, hn⟩ := List.append_inj' heq rfl
      obtain rfl := List.head_eq_of_cons_eq hn
      refine Or.inr ⟨⟨before, hs, rest, hns, hmem, fun x hx => ?_⟩, fun x hx => ?_⟩
      · exact hafter x (List.mem_append_left _ hx)
      · exact hafter x (List.mem_append_right _ (List.mem_singleton.2 hx.symm))
  · intro h
    rcases h with h | h
    · obtain ⟨hs, rfl, hmem⟩ := h
      exact ⟨ns, hs, [], rfl, hmem, fun x hx => nomatch hx⟩
    · obtain ⟨⟨before, hs, after, rfl, hmem, hafter⟩, hn⟩ := h
      refine ⟨before, hs, after ++ [n], by simp, hmem, fun x hx => ?_⟩
      cases List.mem_append.1 hx with
      | inl hx => exact hafter x hx
      | inr hx => exact hn x (List.mem_singleton.1 hx).symm

/-- The roster has just the live states. -/
theorem isSome_roster (ns : List Notice) (id : StateNo) :
    (roster ns id).isSome = true ↔ Live ns id := by
  induction ns using List.reverseRecOn with
  | nil =>
      refine ⟨fun h => ?_, fun h => absurd h (not_live_nil id)⟩
      cases h
  | append_singleton ns n ih =>
      rw [roster_concat, live_concat, ← ih]
      cases n with
      | added hs =>
          simp only [Notice.update, Option.isSome_or, Bool.or_eq_true, List.find?_isSome]
          simp [or_comm]
      | removed h =>
          simp only [Notice.update]
          by_cases hid : id = h.id
          · simp [hid]
          · simp [hid, Ne.symm hid]
      | moved h =>
          simp only [Notice.update]
          by_cases hid : id = h.id
          · simp [hid]
          · simp [hid]

/-- Taking states in one by one is taking them in together. -/
theorem reading_foldl {σ : Type} {handle? : σ → StateNo → Option Handle} {put : σ → Handle → σ}
    {id : StateNo}
    (hput : ∀ s h, handle? (put s h) id =
      (handle? s id).or (if h.id = id then some h else none))
    (hs : List Handle) (s : σ) :
    handle? (hs.foldl put s) id = (handle? s id).or (hs.find? fun h => h.id = id) := by
  induction hs generalizing s with
  | nil => rw [List.foldl_nil, List.find?_nil, Option.or_none]
  | cons h rest ih =>
      rw [List.foldl_cons, ih, hput, List.find?_cons, Option.or_assoc]
      by_cases hid : h.id = id
      · simp [hid]
      · simp [hid]

-- ============================================================ faithful pools

/-- A pool does what a reading of its handles says: a notice updates the
reading, or fails and leaves it; choosing leaves it, chooses a state in it
under its handle, and says that there is none when there is none. What it
leaves behind is tidy. -/
structure FaithfulAt {σ : Type} [Pool σ] (tidy : σ → Prop)
    (handle? : σ → StateNo → Option Handle) (s : σ) : Prop where
  isEmpty : Pool.isEmpty s = true ↔ ∀ id, handle? s id = none
  peek_tidy : ∀ g, tidy (Pool.peek g s).pool
  peek_handle : ∀ g, handle? (Pool.peek g s).pool = handle? s
  peek_empty : ∀ g, (Pool.peek g s).result = .error .emptyPool ↔ ∀ id, handle? s id = none
  peek_ok : ∀ g h, (Pool.peek g s).result = .ok h → handle? s h.id = some h
  tell_tidy : ∀ n step g, tidy (Pool.tell n step g s).pool
  tell_ok : ∀ n step g, (Pool.tell n step g s).result = .ok () →
    handle? (Pool.tell n step g s).pool = n.update (handle? s)
  tell_error : ∀ n step g e, (Pool.tell n step g s).result = .error e →
    (∃ h, n = .moved h) ∧ handle? (Pool.tell n step g s).pool = handle? s

/-- Tidy pools of a kind do what a reading of their handles says. -/
def Faithful {σ : Type} [Pool σ] (tidy : σ → Prop) (handle? : σ → StateNo → Option Handle) :
    Prop := ∀ s, tidy s → FaithfulAt tidy handle? s

/-- A kind of pools that holds another is as faithful as that one. -/
theorem FaithfulAt.embed {σ τ : Type} [Pool σ] [Pool τ] {tidy : σ → Prop} {tidy' : τ → Prop}
    {handle? : σ → StateNo → Option Handle} {handle?' : τ → StateNo → Option Handle} (ι : σ → τ)
    (hempty : ∀ s, Pool.isEmpty (ι s) = Pool.isEmpty s)
    (hpeek : ∀ g s, Pool.peek g (ι s) = (Pool.peek g s).map ι)
    (htell : ∀ n step g s, Pool.tell n step g (ι s) = (Pool.tell n step g s).map ι)
    (htidy : ∀ s, tidy s → tidy' (ι s)) (hread : ∀ s, handle?' (ι s) = handle? s) {s : σ}
    (hs : FaithfulAt tidy handle? s) : FaithfulAt tidy' handle?' (ι s) := by
  constructor
  · rw [hempty, hread]
    exact hs.isEmpty
  · intro g
    rw [hpeek]
    exact htidy _ (hs.peek_tidy g)
  · intro g
    rw [hpeek, hread]
    exact (hread _).trans (hs.peek_handle g)
  · intro g
    rw [hpeek, hread]
    exact hs.peek_empty g
  · intro g h
    rw [hpeek, hread]
    exact hs.peek_ok g h
  · intro n step g
    rw [htell]
    exact htidy _ (hs.tell_tidy n step g)
  · intro n step g hok
    rw [htell] at hok ⊢
    rw [hread]
    exact (hread _).trans (hs.tell_ok n step g hok)
  · intro n step g e he
    rw [htell] at he ⊢
    rw [hread]
    obtain ⟨hmove, hsame⟩ := hs.tell_error n step g e he
    exact ⟨hmove, (hread _).trans hsame⟩

/-- A reading has the states of a roster and, if it is strict, their
handles. -/
structure Follows (strict : Prop) (f ρ : StateNo → Option Handle) : Prop where
  live : ∀ id, (f id).isSome = (ρ id).isSome
  handles : strict → f = ρ

variable {strict : Prop} {f ρ : StateNo → Option Handle}

theorem Follows.update (hf : Follows strict f ρ) (n : Notice) :
    Follows strict (n.update f) (n.update ρ) := by
  refine ⟨fun id => ?_, fun h => by rw [hf.handles h]⟩
  have hlive := hf.live id
  cases n with
  | added hs => simp only [Notice.update, Option.isSome_or, hlive]
  | removed h =>
      simp only [Notice.update]
      split
      next => rfl
      next => exact hlive
  | moved h =>
      simp only [Notice.update]
      split
      next => simpa using hlive
      next => exact hlive

/-- Whoever misses a move loses no state. -/
theorem Follows.miss (hf : Follows strict f ρ) (h : Handle) :
    Follows False f ((Notice.moved h).update ρ) := by
  refine ⟨fun id => ?_, fun h => h.elim⟩
  simp only [Notice.update]
  split
  next => simpa using hf.live id
  next => exact hf.live id

theorem Follows.weaken {weaker : Prop} (hf : Follows strict f ρ) (h : weaker → strict) :
    Follows weaker f ρ := ⟨hf.live, fun hw => hf.handles (h hw)⟩

/-- Whatever comes of a notice, no state is gained or lost by it that is not
in the roster; handles are kept up as long as nothing fails. -/
theorem Faithful.follows_tell {σ : Type} [Pool σ] {tidy : σ → Prop}
    {handle? : σ → StateNo → Option Handle} (hfaith : Faithful tidy handle?) {s : σ} (hs : tidy s)
    (hf : Follows strict (handle? s) ρ) (n : Notice) (step : Nat) (g : FlowGraph) :
    Follows (strict ∧ (Pool.tell n step g s).result = .ok ())
      (handle? (Pool.tell n step g s).pool) (n.update ρ) := by
  cases hresult : (Pool.tell n step g s).result with
  | ok u =>
      rw [(hfaith s hs).tell_ok n step g hresult]
      exact (hf.update n).weaken And.left
  | error e =>
      obtain ⟨⟨h, rfl⟩, hread⟩ := (hfaith s hs).tell_error n step g e hresult
      rw [hread]
      exact (hf.miss h).weaken fun hw => nomatch hw.2

/-- A pool answers as a roster says: it is empty, and says so, when no state
is live, and what it chooses is live, under its handle if it is strict. -/
structure Answers {σ : Type} [Pool σ] (strict : Prop) (ρ : StateNo → Option Handle)
    (g : FlowGraph) (s : σ) : Prop where
  isEmpty : Pool.isEmpty s = true ↔ ∀ id, ρ id = none
  none : (Pool.peek g s).result = .error .emptyPool ↔ ∀ id, ρ id = none
  some : ∀ h, (Pool.peek g s).result = .ok h →
    (ρ h.id).isSome = true ∧ (strict → ρ h.id = some h)

theorem Follows.none_iff (hf : Follows strict f ρ) : (∀ id, f id = none) ↔ ∀ id, ρ id = none := by
  have hnone : ∀ id, f id = none ↔ ρ id = none := by
    intro id
    rw [← Option.not_isSome_iff_eq_none, ← Option.not_isSome_iff_eq_none, hf.live id]
  exact forall_congr' hnone

theorem Faithful.answers {σ : Type} [Pool σ] {tidy : σ → Prop}
    {handle? : σ → StateNo → Option Handle} (hfaith : Faithful tidy handle?) {s : σ} (hs : tidy s)
    (hf : Follows strict (handle? s) ρ) (g : FlowGraph) : Answers strict ρ g s := by
  refine ⟨(hfaith s hs).isEmpty.trans hf.none_iff, ((hfaith s hs).peek_empty g).trans hf.none_iff,
    fun h hh => ?_⟩
  have hread := (hfaith s hs).peek_ok g h hh
  refine ⟨?_, fun he => ?_⟩
  · rw [← hf.live, hread]
    rfl
  · rw [← hf.handles he]
    exact hread

end SymbolicSearch
