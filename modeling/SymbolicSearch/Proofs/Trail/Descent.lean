/-
What a trail records. A trail is kept up one statement at a time, and the
trail of a forked state begins as a copy of its parent's. What it holds is
all the same a function of the path alone: of the statements that the
state's ancestors executed before the forks, and then the state itself.

# Tales

A tale is a state's life written down in full, footstep by footstep, and
read afterwards: how often the path came in by the first instruction of a
block, when it last went out by the last, how long the state has stayed
where it is. Nothing in a tale is counted along the way.

# Families

A family is any number of trails over one graph, each a first one or forked
from another. Its members are followed in any order while the graph grows,
and each goes on to record its own tale (`records_run`). Two things carry
this: a block's bounds never change (`grows_act`), so a footstep means the
same in every later graph, and one more footstep changes a trail as it
changes what is read off a tale (`Records.stepOn`).
-/
import SymbolicSearch.Proofs.Flow.Chronicle

namespace SymbolicSearch

-- =============================================================== footsteps

/-- A statement that a state has executed: the block it was found in, its
index, how often the state's path had forked by then, and the step. -/
structure Footstep where
  block : BlockNo
  index : Nat
  forks : Nat
  step : Nat
deriving DecidableEq

namespace FlowGraph

variable {g g' : FlowGraph} {f : Footstep}

/-- The footstep that a state leaves when it is followed. It leaves none if
it has executed nothing, or nothing that has a block. -/
def footstep? (g : FlowGraph) (h : Handle) (step : Nat) : Option Footstep :=
  h.last.bind fun stmt =>
    match g.blockAt stmt with
    | .ok id => some ⟨id, stmt.site.index, h.forks, step⟩
    | .error _ => none

/-- The footstep is on the first instruction of its block. -/
def enters (g : FlowGraph) (f : Footstep) : Bool := g.blocks[f.block]?.any (·.beginsAt f.index)

/-- The footstep is on the last instruction of its block. -/
def leaves (g : FlowGraph) (f : Footstep) : Bool := g.blocks[f.block]?.any (·.endsAt f.index)

theorem Grows.enters (h : g.Grows g') (hf : f.block < g.size) : g'.enters f = g.enters f := by
  obtain ⟨B, hB⟩ := lt_size_iff.1 hf
  obtain ⟨B', hB', heq⟩ := h.block hB
  have hfirst : B'.bare.first = B.bare.first := by rw [heq]
  simp [FlowGraph.enters, hB, hB', Block.beginsAt, show B'.first = B.first from hfirst]

theorem Grows.leaves (h : g.Grows g') (hf : f.block < g.size) : g'.leaves f = g.leaves f := by
  obtain ⟨B, hB⟩ := lt_size_iff.1 hf
  obtain ⟨B', hB', heq⟩ := h.block hB
  have hlast : B'.bare.last = B.bare.last := by rw [heq]
  simp [FlowGraph.leaves, hB, hB', Block.endsAt, show B'.last = B.last from hlast]

theorem footstep?_of_locate {h : Handle} {step id : Nat} {stmt : Stmt} {B : Block}
    (hlast : h.last = some stmt) (hB : g.locate stmt = .ok (id, B)) :
    g.footstep? h step = some ⟨id, stmt.site.index, h.forks, step⟩ := by
  simp [footstep?, hlast, blockAt, hB, Except.map]

/-- A footstep is left just when there is a statement and following it
succeeds. -/
theorem footstep?_isSome_iff (t : Trail) (h : Handle) (step : Nat) :
    (g.footstep? h step).isSome = true ↔
      h.last.isSome = true ∧ ∃ t' g', t.follow h step g = .ok (t', g') := by
  unfold footstep? Trail.follow blockAt
  cases hlast : h.last with
  | none => simp
  | some stmt =>
      cases hl : g.locate stmt with
      | error e => simp [hl, Except.map, bind, Except.bind]
      | ok found => simp [hl, Except.map, bind, Except.bind, pure, Except.pure]

end FlowGraph

-- ================================================================== tales

/-- The life of a state: the step at which it was first tracked, the size of
the path condition then, and the footsteps before and since. -/
structure Tale where
  born : Nat
  inherited : Nat
  before : List Footstep
  own : List Footstep
deriving DecidableEq

namespace Tale

variable {τ : Tale} {g g' : FlowGraph} {f : Footstep} {b : BlockNo}

/-- The tale of a state that nothing is known of. -/
def root (step : Nat) : Tale := ⟨step, 0, [], []⟩

def path (τ : Tale) : List Footstep := τ.before ++ τ.own

/-- The last of a state's own footsteps. -/
def last? (τ : Tale) : Option Footstep := τ.own.getLast?

def block (τ : Tale) : Option BlockNo := τ.last?.map (·.block)

def moved (τ : Tale) : Nat := (τ.last?.map (·.step)).getD τ.born

def conditions (τ : Tale) : Nat := (τ.last?.map fun f => τ.inherited + f.forks).getD τ.inherited

/-- How many of a state's own last footsteps are in the block that it
stands in. -/
def stretch (τ : Tale) : Nat := (τ.own.reverse.takeWhile fun f => τ.block = some f.block).length

/-- How often the path has come into a block by its first instruction. -/
def visits (τ : Tale) (g : FlowGraph) (b : BlockNo) : Nat :=
  τ.path.countP fun f => f.block = b && g.enters f

/-- The step at which the path has last executed the last instruction of a
block, zero if it has not. -/
def lastLeft (τ : Tale) (g : FlowGraph) (b : BlockNo) : Nat :=
  ((τ.path.filter fun f => f.block = b && g.leaves f).getLast?.map (·.step)).getD 0

/-- What the path has done with a block, if it has come there. -/
def visit? (τ : Tale) (g : FlowGraph) (b : BlockNo) : Option Visit :=
  if ∃ f ∈ τ.path, f.block = b then some ⟨b, τ.visits g b, τ.lastLeft g b⟩ else none

/-- The tale of a state forked from this one. -/
def fork (τ : Tale) (step : Nat) : Tale := ⟨step, τ.conditions, τ.path, []⟩

/-- The tale with one footstep more. -/
def walk (τ : Tale) (f : Footstep) : Tale := { τ with own := τ.own ++ [f] }

/-- The tale after an update, which may have left a footstep. -/
def after (τ : Tale) : Option Footstep → Tale
  | some f => τ.walk f
  | none => τ

theorem path_fork (τ : Tale) (step : Nat) : (τ.fork step).path = τ.path :=
  List.append_nil _

theorem path_walk (τ : Tale) (f : Footstep) : (τ.walk f).path = τ.path ++ [f] :=
  (List.append_assoc ..).symm

theorem last?_walk (τ : Tale) (f : Footstep) : (τ.walk f).last? = some f := by
  simp [walk, last?]

theorem block_walk (τ : Tale) (f : Footstep) : (τ.walk f).block = some f.block := by
  rw [block, last?_walk]
  rfl

theorem visits_walk (τ : Tale) (g : FlowGraph) (f : Footstep) :
    (τ.walk f).visits g f.block =
      if g.enters f then τ.visits g f.block + 1 else τ.visits g f.block := by
  rw [visits, path_walk, List.countP_append, List.countP_singleton, visits]
  by_cases h : g.enters f <;> simp [h]

theorem lastLeft_walk (τ : Tale) (g : FlowGraph) (f : Footstep) :
    (τ.walk f).lastLeft g f.block = if g.leaves f then f.step else τ.lastLeft g f.block := by
  rw [lastLeft, path_walk, List.filter_append, lastLeft]
  by_cases h : g.leaves f <;> simp [h]

/-- A footstep leaves what the path has done with other blocks. -/
theorem visit?_walk_of_ne (g : FlowGraph) (hne : f.block ≠ b) :
    (τ.walk f).visit? g b = τ.visit? g b := by
  simp [visit?, visits, lastLeft, path_walk, hne]

theorem visit?_walk (τ : Tale) (g : FlowGraph) (f : Footstep) :
    (τ.walk f).visit? g f.block =
      some ⟨f.block, (τ.walk f).visits g f.block, (τ.walk f).lastLeft g f.block⟩ := by
  rw [visit?, if_pos]
  exact ⟨f, by simp [path_walk], rfl⟩

/-- A block that the path has not come to counts as visited never. -/
theorem getD_visit? (τ : Tale) (g : FlowGraph) (b : BlockNo) :
    (τ.visit? g b).getD ⟨b, 0, 0⟩ = ⟨b, τ.visits g b, τ.lastLeft g b⟩ := by
  unfold visit?
  split
  next => rfl
  next h =>
    have hno : ∀ f ∈ τ.path, f.block ≠ b := fun f hf hb => h ⟨f, hf, hb⟩
    have hvisits : τ.visits g b = 0 := by
      apply List.countP_eq_zero.2
      intro f hf
      simp [hno f hf]
    have hnone : τ.path.filter (fun f => f.block = b && g.leaves f) = [] := by
      apply List.filter_eq_nil_iff.2
      intro f hf
      simp [hno f hf]
    rw [lastLeft, hvisits, hnone]
    rfl

/-- What a path has done is the same in every later graph. -/
theorem visit?_grows (hg : g.Grows g') (hτ : ∀ f ∈ τ.path, f.block < g.size) (b : BlockNo) :
    τ.visit? g' b = τ.visit? g b := by
  have hvisits : τ.visits g' b = τ.visits g b := by
    apply List.countP_congr
    intro f hf
    rw [hg.enters (hτ f hf)]
  have hleft : τ.lastLeft g' b = τ.lastLeft g b := by
    have hsame : τ.path.filter (fun f => f.block = b && g'.leaves f) =
        τ.path.filter (fun f => f.block = b && g.leaves f) := by
      apply List.filter_congr
      intro f hf
      rw [hg.leaves (hτ f hf)]
    rw [lastLeft, hsame, lastLeft]
  rw [visit?, hvisits, hleft, visit?]

/-- A state that stays in its block has stayed for one footstep more, and
one that changes blocks has just come. -/
theorem stretch_walk (τ : Tale) (f : Footstep) :
    (τ.walk f).stretch = if τ.block = some f.block then τ.stretch + 1 else 1 := by
  have hstretch : (τ.walk f).stretch =
      (τ.own.reverse.takeWhile fun x => some f.block = some x.block).length + 1 := by
    rw [stretch, block_walk, walk, List.reverse_append]
    simp
  rw [hstretch]
  by_cases h : τ.block = some f.block
  · rw [if_pos h, stretch, h]
  · rw [if_neg h, Nat.add_eq_right, List.length_eq_zero_iff]
    -- the state's last footstep, if it has one, is in another block
    cases hown : τ.own.reverse with
    | nil => rfl
    | cons x rest =>
        have hx : τ.block = some x.block := by
          rw [block, last?, ← List.head?_reverse, hown]
          rfl
        rw [hx] at h
        simpa [List.takeWhile_cons] using fun heq => h (by rw [heq])

end Tale

-- ============================================================= what is kept

namespace Trail

variable {t t' : Trail} {τ : Tale} {g g' : FlowGraph}

/-- A trail holds what can be read off a tale. -/
structure Records (t : Trail) (τ : Tale) (g : FlowGraph) : Prop where
  history : ∀ b, t.history.find? b = τ.visit? g b
  block : t.block = τ.block
  moved : t.moved = τ.moved
  inherited : t.inherited = τ.inherited
  conditions : t.conditions = τ.conditions
  dwell : t.dwell = τ.stretch
  known : ∀ f ∈ τ.path, f.block < g.size

theorem records_fresh (g : FlowGraph) (state : StateNo) (step : Nat) :
    (fresh state step).Records (.root step) g := by
  refine ⟨fun b => ?_, rfl, rfl, rfl, rfl, rfl, ?_⟩
  · simp [Tale.visit?, Tale.path, Tale.root, fresh]
  · simp [Tale.path, Tale.root]

/-- A forked state has its parent's path and no footsteps of its own. -/
theorem Records.fork (h : t.Records τ g) (state : StateNo) (step : Nat) :
    (t.fork state step).Records (τ.fork step) g := by
  refine ⟨fun b => ?_, rfl, rfl, h.conditions, h.conditions, rfl, ?_⟩
  · show t.history.find? b = _
    simp only [h.history, Tale.visit?, Tale.visits, Tale.lastLeft, Tale.path_fork]
  · rw [Tale.path_fork]
    exact h.known

theorem Records.grow (h : t.Records τ g) (hg : g.Grows g') : t.Records τ g' where
  history b := (h.history b).trans (Tale.visit?_grows hg h.known b).symm
  block := h.block
  moved := h.moved
  inherited := h.inherited
  conditions := h.conditions
  dwell := h.dwell
  known f hf := hg.lt_size (h.known f hf)

/-- One footstep more on the trail is one footstep more in the tale. -/
theorem Records.stepOn (h : t.Records τ g) {B : Block} {f : Footstep}
    (hB : g.blocks[f.block]? = some B) :
    (t.stepOn f.block B f.index f.forks f.step).Records (τ.walk f) g := by
  have henters : B.beginsAt f.index = g.enters f := by simp [FlowGraph.enters, hB]
  have hleaves : B.endsAt f.index = g.leaves f := by simp [FlowGraph.leaves, hB]
  refine ⟨fun b => ?_, ?_, ?_, h.inherited, ?_, ?_, ?_⟩
  · simp only [Trail.stepOn, IdMap.find?_insert]
    by_cases hb : b = f.block
    · subst hb
      rw [if_pos rfl, h.history, Tale.getD_visit?, Tale.visit?_walk, Tale.visits_walk,
        Tale.lastLeft_walk, henters, hleaves]
    · rw [if_neg hb, h.history, Tale.visit?_walk_of_ne g (Ne.symm hb)]
  · rw [Tale.block_walk]
    rfl
  · rw [Tale.moved, Tale.last?_walk]
    rfl
  · rw [Tale.conditions, Tale.last?_walk]
    exact congrArg (· + f.forks) h.inherited
  · rw [Tale.stretch_walk, ← h.block, ← h.dwell]
    rfl
  · rw [Tale.path_walk]
    intro x hx
    rcases List.mem_append.1 hx with hx | hx
    · exact h.known x hx
    · obtain rfl := List.mem_singleton.1 hx
      exact FlowGraph.lt_size_iff.2 ⟨B, hB⟩

/-- What can be done to a trail without moving its state. -/
inductive Care
  | adopt (child : StateNo)
  | disown (child : StateNo)
  | orphan
  | recount

def tend (g : FlowGraph) (t : Trail) : Care → Trail
  | .adopt child => t.adopt child
  | .disown child => t.disown child
  | .orphan => t.orphan
  | .recount => t.recount g

/-- Care for a trail touches nothing that it records. -/
theorem Records.tend (h : t.Records τ g) (c : Care) : (tend g t c).Records τ g := by
  obtain ⟨hhistory, hblock, hmoved, hinherited, hconditions, hdwell, hknown⟩ := h
  cases c <;> exact ⟨hhistory, hblock, hmoved, hinherited, hconditions, hdwell, hknown⟩

/-- Following a state takes its trail as far as its tale. -/
theorem Records.follow (hr : t.Records τ g) {h : Handle} {step : Nat}
    (hf : t.follow h step g = .ok (t', g')) :
    t'.Records (τ.after (g.footstep? h step)) g' := by
  have hg := (FlowGraph.alike_follow hf).grows
  obtain ⟨hlast, rfl, rfl⟩ | ⟨stmt, id, B, hlast, hloc, -, rfl⟩ := FlowGraph.follow_eq_ok hf
  · rw [FlowGraph.footstep?, hlast]
    exact hr
  · rw [FlowGraph.footstep?_of_locate hlast hloc]
    have hstep := hr.stepOn (f := ⟨id, stmt.site.index, h.forks, step⟩)
      (FlowGraph.block_of_locate hloc)
    exact (hstep.grow hg).tend .recount

end Trail

-- ================================================================ families

/-- Any number of trails over one graph. -/
structure Family where
  graph : FlowGraph
  members : List Trail

namespace Family

/-- What can happen in a family. Members are named by their place. -/
inductive Act
  | root (state : StateNo) (step : Nat)
  | fork (member : Nat) (state : StateNo) (step : Nat)
  | update (member : Nat) (h : Handle) (step : Nat)
  | tend (member : Nat) (c : Trail.Care)
  | graph (a : FlowGraph.Act)

/-- The family after an act. One that names no member does nothing, and so
does an update that fails. -/
def act (w : Family) : Act → Family
  | .root state step => { w with members := w.members ++ [.fresh state step] }
  | .fork i state step =>
    match w.members[i]? with
    | some t => { w with members := w.members ++ [t.fork state step] }
    | none => w
  | .update i h step =>
    match w.members[i]? with
    | some t =>
      match t.follow h step w.graph with
      | .ok (t', g) => ⟨g, w.members.set i t'⟩
      | .error _ => w
    | none => w
  | .tend i c => { w with members := w.members.modify i (Trail.tend w.graph · c) }
  | .graph a => { w with graph := w.graph.act a }

end Family

/-- A family with the tales of its members. -/
structure Saga where
  family : Family
  tales : List Tale

namespace Saga

/-- The tales after an act on a family over a graph. -/
def tell (g : FlowGraph) (tales : List Tale) : Family.Act → List Tale
  | .root _ step => tales ++ [.root step]
  | .fork i _ step =>
    match tales[i]? with
    | some τ => tales ++ [τ.fork step]
    | none => tales
  | .update i h step => tales.modify i (·.after (g.footstep? h step))
  | .tend _ _ => tales
  | .graph _ => tales

def act (s : Saga) (a : Family.Act) : Saga :=
  ⟨s.family.act a, tell s.family.graph s.tales a⟩

/-- Each member records its tale. -/
def Recorded (s : Saga) : Prop :=
  List.Forall₂ (fun t τ => Trail.Records t τ s.family.graph) s.family.members s.tales

section Places

variable {α β : Type} {R S : α → β → Prop} {l : List α} {l' : List β}

/-- Lists related place by place have something at the same places. -/
theorem getElem?_of_forall₂ (h : List.Forall₂ R l l') (i : Nat) :
    (l[i]? = none ∧ l'[i]? = none) ∨ ∃ a b, l[i]? = some a ∧ l'[i]? = some b ∧ R a b := by
  induction h generalizing i with
  | nil => exact Or.inl ⟨rfl, rfl⟩
  | cons hab _ ih =>
      cases i with
      | zero => exact Or.inr ⟨_, _, rfl, rfl, hab⟩
      | succ i => exact ih i

/-- Lists related place by place stay so when both are changed at one
place. -/
theorem forall₂_modify (h : List.Forall₂ R l l') {i : Nat} {f : α → α} {f' : β → β}
    (hrest : ∀ a b, R a b → S a b) (hf : ∀ a b, l[i]? = some a → R a b → S (f a) (f' b)) :
    List.Forall₂ S (l.modify i f) (l'.modify i f') := by
  induction h generalizing i with
  | nil => simp
  | cons hab htail ih =>
      cases i with
      | zero => exact .cons (hf _ _ rfl hab) (htail.imp hrest)
      | succ i => exact .cons (hrest _ _ hab) (ih hf)

end Places

variable {s : Saga}

theorem Recorded.fork (hs : s.Recorded) (i : Nat) (state : StateNo) (step : Nat) :
    (s.act (.fork i state step)).Recorded := by
  obtain ⟨hmember, htale⟩ | ⟨t, τ, hmember, htale, ht⟩ := getElem?_of_forall₂ hs i
  · simp only [Saga.act, Family.act, tell, hmember, htale]
    exact hs
  · simp only [Saga.act, Family.act, tell, hmember, htale]
    exact List.rel_append hs (.cons (ht.fork state step) .nil)

theorem Recorded.update (hs : s.Recorded) (i : Nat) (h : Handle) (step : Nat) :
    (s.act (.update i h step)).Recorded := by
  obtain ⟨hmember, htale⟩ | ⟨t, τ, hmember, -, -⟩ := getElem?_of_forall₂ hs i
  · simp only [Saga.act, Family.act, hmember, tell, Recorded]
    rw [List.modify_eq_self (List.getElem?_eq_none_iff.1 htale)]
    exact hs
  · cases hf : t.follow h step s.family.graph with
    | error e =>
        have hno : s.family.graph.footstep? h step = none := by
          rw [← Option.not_isSome_iff_eq_none, FlowGraph.footstep?_isSome_iff t]
          simp [hf]
        simp only [Saga.act, Family.act, hmember, hf, tell, hno, Recorded]
        show List.Forall₂ _ _ (s.tales.modify i id)
        rw [List.modify_id]
        exact hs
    | ok moved =>
        obtain ⟨t', g⟩ := moved
        simp only [Saga.act, Family.act, hmember, hf, tell, Recorded]
        rw [List.set_eq_modify]
        apply forall₂_modify hs
        · intro u τ hu
          exact hu.grow (FlowGraph.alike_follow hf).grows
        · intro u τ hplace hu
          obtain rfl := Option.some.inj (hmember.symm.trans hplace)
          exact hu.follow hf

theorem Recorded.tend (hs : s.Recorded) (i : Nat) (c : Trail.Care) :
    (s.act (.tend i c)).Recorded := by
  simp only [Saga.act, Family.act, tell, Recorded]
  rw [← List.modify_id i s.tales]
  exact forall₂_modify hs (fun _ _ ht => ht) fun _ _ _ ht => ht.tend c

theorem Recorded.act (hs : s.Recorded) (a : Family.Act) : (s.act a).Recorded := by
  cases a with
  | root state step => exact List.rel_append hs (.cons (Trail.records_fresh _ state step) .nil)
  | fork i state step => exact hs.fork i state step
  | update i h step => exact hs.update i h step
  | tend i c => exact hs.tend i c
  | graph a => exact hs.imp fun _ _ ht => ht.grow (FlowGraph.grows_act _ a)

end Saga

/-- A family from its beginning. -/
def Family.run (as : List Family.Act) : Family := as.foldl Family.act ⟨.empty, []⟩

/-- A state goes round a loop of one instruction, forks, and goes round
again; its child has come there once and has not moved. -/
example :
    (Family.run [.graph (.register ⟨0, "spin", [⟨.branch, [0], []⟩]⟩), .root 1 0,
      .update 0 ⟨1, some (.methodEntry ⟨0, 0⟩), 0, false, true, ""⟩ 3, .fork 0 2 3,
      .update 0 ⟨1, some (.instr ⟨0, 0⟩), 1, false, true, ""⟩ 4]).members.map (fun t =>
        (t.history.values, t.block, t.dwell, t.moved, t.conditions)) =
      [([⟨0, 2, 4⟩], some 0, 2, 4, 1), ([⟨0, 1, 3⟩], none, 0, 3, 0)] := by
  decide

end SymbolicSearch
