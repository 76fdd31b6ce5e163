/-
The relations between methods. A call and the returns from it are drawn
when the call is seen to happen, and nothing else draws them. So in every
graph that can arise these relations are exactly those of the calls seen so
far, each of them there once and for good (`calls_exact`).

# One call

Seeing a call happen either fails and draws nothing (`drawn_of_failed`), or
finds a block for each of the three statements and draws what is between
those blocks (`drawn_of_seen`).

# A whole run

What is between three statements depends on the graph that they are looked
up in, so a call seen early could in principle mean other blocks later. It
does not: a statement that has a block keeps it and a registered method
keeps its exits (`Placed.callsBetween_act`), which is what carries the
induction over the run.
-/
import SymbolicSearch.Proofs.Flow.Partition

namespace SymbolicSearch

/-- The relation is one between methods. -/
def Edge.Crosses (e : Edge) : Prop := e.relation = .call ∨ e.relation = .back

namespace FlowGraph

variable {g : FlowGraph} {e : Edge} {load : Loader} {site back entry : Stmt}

-- ============================================================ drawn just once

theorem nodup_link (hg : g.edges.Nodup) (e : Edge) : (g.link e).edges.Nodup := by
  unfold link
  split
  next => exact hg
  next hnew =>
    refine List.nodup_append.2 ⟨hg, List.nodup_singleton e, fun x hx y hy heq => ?_⟩
    rw [List.mem_singleton] at hy
    exact hnew (hy ▸ heq ▸ hx)

theorem nodup_linkAll (hg : g.edges.Nodup) (es : List Edge) : (g.linkAll es).edges.Nodup := by
  induction es generalizing g with
  | nil => exact hg
  | cons e rest ih => exact ih (nodup_link hg e)

theorem nodup_enlarge (hg : g.edges.Nodup) (o : Option Routine) : (g.enlarge o).edges.Nodup := by
  cases o with
  | none => exact hg
  | some r => exact nodup_linkAll (g := g.grownBy r) hg _

theorem nodup_act (hg : g.edges.Nodup) (a : Act) : (g.act a).edges.Nodup := by
  rw [(act_spec g a).edges]
  exact nodup_linkAll (nodup_enlarge hg _) _

/-- No act takes a relation away. -/
theorem mem_edges_act_of_mem (a : Act) (he : e ∈ g.edges) : e ∈ (g.act a).edges := by
  rw [(act_spec g a).edges, mem_edges_linkAll]
  refine Or.inr ?_
  cases g.admits a with
  | none => exact he
  | some r => exact mem_edges_install.2 (Or.inl he)

-- ================================================================== one call

/-- A routine that is put in brings no relation between methods. -/
theorem mem_edges_enlarge (he : e.Crosses) (o : Option Routine) :
    e ∈ (g.enlarge o).edges ↔ e ∈ g.edges := by
  cases o with
  | none => rfl
  | some r =>
      refine mem_edges_install.trans (or_iff_left ?_)
      rintro ⟨k, l, ⟨rfl, -⟩ | ⟨rfl, -⟩⟩
      · rcases he with he | he <;> cases he
      · rcases he with he | he <;> cases he

/-- Between methods an act adds just what it draws. -/
theorem mem_edges_act (he : e.Crosses) (a : Act) :
    e ∈ (g.act a).edges ↔ e ∈ g.drawn a ∨ e ∈ g.edges := by
  rw [(act_spec g a).edges, mem_edges_linkAll, mem_edges_enlarge he]

theorem blockAt_linkAll (g : FlowGraph) (es : List Edge) (stmt : Stmt) :
    (g.linkAll es).blockAt stmt = g.blockAt stmt := by
  simp only [blockAt, locate, locate?, linkAll_methods, linkAll_blocks]

theorem exitsOf_linkAll (g : FlowGraph) (es : List Edge) (m : MethodNo) :
    (g.linkAll es).exitsOf m = g.exitsOf m := by
  rw [exitsOf, linkAll_methods, exitsOf]

theorem callsBetween_linkAll (g : FlowGraph) (es : List Edge) (site back entry : Stmt) :
    (g.linkAll es).callsBetween site back entry = g.callsBetween site back entry := by
  simp only [callsBetween, callEdges, blockAt_linkAll, exitsOf_linkAll]

/-- Each of the three statements of a call has a block. -/
def Placed (g : FlowGraph) (site back entry : Stmt) : Prop :=
  ∃ s x b, g.blockAt site = .ok s ∧ g.blockAt entry = .ok x ∧ g.blockAt back = .ok b

/-- The relations of a call whose statements have blocks: one from where it
is made to where it goes, and one from each exit of the callee to where it
comes back. -/
theorem mem_callsBetween_of_placed (hp : g.Placed site back entry) :
    e ∈ g.callsBetween site back entry ↔
      (e.relation = .call ∧ g.blockAt site = .ok e.source ∧ g.blockAt entry = .ok e.target) ∨
        (e.relation = .back ∧ e.source ∈ g.exitsOf entry.site.method ∧
          g.blockAt back = .ok e.target) := by
  obtain ⟨s, x, b, hs, hx, hb⟩ := hp
  obtain ⟨source, target, relation⟩ := e
  simp only [callsBetween, callEdges, hs, hx, hb, List.mem_cons, List.mem_map, Edge.mk.injEq,
    Except.ok.injEq]
  constructor
  · rintro (⟨rfl, rfl, rfl⟩ | ⟨y, hy, rfl, rfl, rfl⟩)
    · exact Or.inl ⟨rfl, rfl, rfl⟩
    · exact Or.inr ⟨rfl, hy, rfl⟩
  · rintro (⟨rfl, rfl, rfl⟩ | ⟨rfl, hy, rfl⟩)
    · exact Or.inl ⟨rfl, rfl, rfl⟩
    · exact Or.inr ⟨source, hy, rfl, rfl, rfl⟩

/-- A call that is seen to happen has its three blocks, and what is between
them is drawn. -/
theorem drawn_of_seen (h : (g.observe load site back entry).2 = .ok ()) :
    (g.act (.observe load site back entry)).Placed site back entry ∧
      g.drawn (.observe load site back entry) =
        (g.act (.observe load site back entry)).callsBetween site back entry := by
  cases hd : g.discover load entry.site.method with
  | error f =>
      simp only [observe, hd] at h
      cases h
  | ok g' =>
      have hafter : g.act (.observe load site back entry) =
          g'.linkAll (g.drawn (.observe load site back entry)) := by
        rw [discover_eq_ok hd]
        exact observe_fst g load site back entry
      have hdrawn : g.drawn (.observe load site back entry) = g'.callsBetween site back entry := by
        simp only [drawn, hd]
      rw [hafter, callsBetween_linkAll]
      refine ⟨?_, hdrawn⟩
      simp only [Placed, blockAt_linkAll]
      cases hs : g'.blockAt site with
      | error f => simp [observe, hd, hs, bind, Except.bind] at h
      | ok s =>
          cases hx : g'.blockAt entry with
          | error f => simp [observe, hd, hs, hx, bind, Except.bind] at h
          | ok x =>
              cases hb : g'.blockAt back with
              | error f => simp [observe, hd, hs, hx, hb, bind, Except.bind] at h
              | ok b => exact ⟨s, x, b, rfl, rfl, rfl⟩

/-- A call that could not be followed draws nothing. -/
theorem drawn_of_failed (h : (g.observe load site back entry).2 ≠ .ok ()) :
    g.drawn (.observe load site back entry) = [] := by
  cases hd : g.discover load entry.site.method with
  | error f => simp only [drawn, hd]
  | ok g' =>
      simp only [drawn, hd, callsBetween]
      split
      next s x b hs hx hb =>
        refine absurd ?_ h
        simp only [observe, hd, hs, hx, hb]
        rfl
      next => rfl

-- ============================================================== what lasts

/-- A method that is registered stays registered as it is. -/
theorem registered_act {a : Act} (ha : a.IsHonest) {m : MethodNo} {k : Registered}
    (hk : g.methods.find? m = some k) : (g.act a).methods.find? m = some k := by
  rw [(act_spec g a).methods, linkAll_methods]
  cases hr : g.admits a with
  | none => exact hk
  | some r =>
      have hnew := IdMap.contains_eq_false.1 (not_registered_of_admits ha hr)
      have hne : m ≠ r.method := by
        rintro rfl
        cases hk.symm.trans hnew
      rw [enlarge, find?_install, if_neg hne, hk]

theorem exitsOf_act {a : Act} (ha : a.IsHonest) {m : MethodNo}
    (hm : g.methods.contains m = true) : (g.act a).exitsOf m = g.exitsOf m := by
  obtain ⟨k, hk⟩ := IdMap.contains_iff.1 hm
  rw [exitsOf, registered_act ha hk, exitsOf, hk]

theorem contains_of_blockAt {stmt : Stmt} {id : BlockNo} (h : g.blockAt stmt = .ok id) :
    g.methods.contains stmt.site.method = true := by
  obtain ⟨k, hk, -⟩ := blockAt_eq_ok.1 h
  exact IdMap.contains_iff.2 ⟨k, hk⟩

section

variable {c : Chronicle} {a : Act}

theorem Placed.act (hc : c.Sound) (ha : a.IsHonest) (hp : c.graph.Placed site back entry) :
    (c.act a).graph.Placed site back entry := by
  obtain ⟨s, x, b, hs, hx, hb⟩ := hp
  exact ⟨s, x, b, hc.blockAt_act ha hs, hc.blockAt_act ha hx, hc.blockAt_act ha hb⟩

/-- What is between the statements of a call once it is placed is between
them ever after. -/
theorem Placed.callsBetween_act (hc : c.Sound) (ha : a.IsHonest)
    (hp : c.graph.Placed site back entry) :
    (c.act a).graph.callsBetween site back entry = c.graph.callsBetween site back entry := by
  obtain ⟨s, x, b, hs, hx, hb⟩ := hp
  have hexits : (c.act a).graph.exitsOf entry.site.method = c.graph.exitsOf entry.site.method :=
    exitsOf_act ha (contains_of_blockAt hx)
  simp only [callsBetween, callEdges, hs, hx, hb, hc.blockAt_act ha hs, hc.blockAt_act ha hx,
    hc.blockAt_act ha hb, hexits]

/-- The exits of a method are the blocks in which an instruction leaves
it. -/
theorem mem_exitsOf (hc : c.Sound) {m : MethodNo} {x : BlockNo} :
    x ∈ c.graph.exitsOf m ↔
      ∃ r i, c.routines.find? m = some r ∧ r.leavesAt i = true ∧
        c.graph.blockAt (.instr ⟨m, i⟩) = .ok x := by
  cases hm : c.graph.methods.find? m with
  | none =>
      have hnone : c.routines.find? m = none := by
        rw [← Option.not_isSome_iff_eq_none, ← hc.known m, hm]
        exact Bool.false_ne_true
      rw [exitsOf, hm, hnone]
      simp
  | some k =>
      obtain ⟨r, base, hr, rfl, hs⟩ := hc.exists_routine (IdMap.contains_iff.2 ⟨k, hm⟩)
      have hblock : ∀ i, c.graph.blockAt (.instr ⟨r.method, i⟩) = .ok x ↔
          (r.place? i).map (base + ·) = some x := fun i => hs.blockAt_place rfl
      simp only [hs.exitsOf, List.mem_filterMap, hr, Option.some.injEq, exists_and_left,
        exists_eq_left', hblock, Routine.mem_exits]

end

-- ===================================================================== a run

/-- A call was seen to happen in a run. -/
def Witnessed (as : List Act) (site back entry : Stmt) : Prop :=
  ∃ before load, before ++ [.observe load site back entry] <+: as ∧
    ((chronicle before).graph.observe load site back entry).2 = .ok ()

theorem not_witnessed_nil : ¬ Witnessed [] site back entry := by
  rintro ⟨before, load, hprefix, -⟩
  exact List.append_ne_nil_of_right_ne_nil before (List.cons_ne_nil _ _)
    (List.prefix_nil.1 hprefix)

theorem witnessed_concat {as : List Act} {a : Act} :
    Witnessed (as ++ [a]) site back entry ↔
      (∃ load, a = .observe load site back entry ∧
        ((chronicle as).graph.observe load site back entry).2 = .ok ()) ∨
        Witnessed as site back entry := by
  constructor
  · rintro ⟨before, load, hprefix, hok⟩
    rcases List.prefix_concat_iff.1 hprefix with heq | hprefix
    · obtain ⟨rfl, ha⟩ := List.append_inj' heq rfl
      exact Or.inl ⟨load, (List.head_eq_of_cons_eq ha).symm, hok⟩
    · exact Or.inr ⟨before, load, hprefix, hok⟩
  · rintro (⟨load, rfl, hok⟩ | ⟨before, load, hprefix, hok⟩)
    · exact ⟨as, load, List.prefix_rfl, hok⟩
    · exact ⟨before, load, hprefix.trans (List.prefix_append as [a]), hok⟩

theorem Witnessed.placed {as : List Act} (hhonest : ∀ a ∈ as, a.IsHonest)
    (hw : Witnessed as site back entry) : (chronicle as).graph.Placed site back entry := by
  induction as using List.reverseRecOn with
  | nil => exact absurd hw not_witnessed_nil
  | append_singleton as a ih =>
      rw [List.forall_mem_append] at hhonest
      rw [chronicle_concat]
      rcases witnessed_concat.1 hw with ⟨load, rfl, hok⟩ | hold
      · exact (drawn_of_seen hok).1
      · exact (ih hhonest.1 hold).act (sound_chronicle as) (hhonest.2 a (List.mem_singleton_self a))

/-- Between methods the relations are those of the calls seen to happen. -/
theorem mem_edges_chronicle (he : e.Crosses) {as : List Act}
    (hhonest : ∀ a ∈ as, a.IsHonest) :
    e ∈ (chronicle as).graph.edges ↔
      ∃ site back entry, Witnessed as site back entry ∧
        e ∈ (chronicle as).graph.callsBetween site back entry := by
  induction as using List.reverseRecOn with
  | nil =>
      refine iff_of_false (fun h => nomatch h) ?_
      rintro ⟨site, back, entry, hw, -⟩
      exact not_witnessed_nil hw
  | append_singleton as a ih =>
      rw [List.forall_mem_append] at hhonest
      have ha : a.IsHonest := hhonest.2 a (List.mem_singleton_self a)
      have hstays : ∀ {site back entry}, Witnessed as site back entry →
          (chronicle (as ++ [a])).graph.callsBetween site back entry =
            (chronicle as).graph.callsBetween site back entry := by
        intro site back entry hw
        rw [chronicle_concat]
        exact (hw.placed hhonest.1).callsBetween_act (sound_chronicle as) ha
      have hstep : e ∈ (chronicle (as ++ [a])).graph.edges ↔
          e ∈ (chronicle as).graph.drawn a ∨ e ∈ (chronicle as).graph.edges := by
        rw [chronicle_concat]
        exact mem_edges_act he a
      rw [hstep, ih hhonest.1]
      constructor
      · rintro (hnew | ⟨site, back, entry, hw, hold⟩)
        · cases a with
          | observe load site back entry =>
              by_cases hok : ((chronicle as).graph.observe load site back entry).2 = .ok ()
              · refine ⟨site, back, entry, witnessed_concat.2 (Or.inl ⟨load, rfl, hok⟩), ?_⟩
                rw [chronicle_concat]
                exact (drawn_of_seen hok).2 ▸ hnew
              · rw [drawn_of_failed hok] at hnew
                cases hnew
          | _ => cases hnew
        · exact ⟨site, back, entry, witnessed_concat.2 (Or.inr hw), (hstays hw).symm ▸ hold⟩
      · rintro ⟨site, back, entry, hw, hmem⟩
        rcases witnessed_concat.1 hw with ⟨load, rfl, hok⟩ | hold
        · rw [chronicle_concat] at hmem
          exact Or.inl ((drawn_of_seen hok).2.symm ▸ hmem)
        · exact Or.inr ⟨site, back, entry, hold, hstays hold ▸ hmem⟩

theorem nodup_chronicle (as : List Act) : (chronicle as).graph.edges.Nodup := by
  induction as using List.reverseRecOn with
  | nil => exact List.nodup_nil
  | append_singleton as a ih =>
      rw [chronicle_concat]
      exact nodup_act ih a

theorem mem_edges_later (as bs : List Act) (he : e ∈ (chronicle as).graph.edges) :
    e ∈ (chronicle (as ++ bs)).graph.edges := by
  induction bs using List.reverseRecOn with
  | nil => rwa [List.append_nil]
  | append_singleton bs b ih =>
      rw [← List.append_assoc, chronicle_concat]
      exact mem_edges_act_of_mem b ih

/-- However methods come in through honest loaders, one block calls another
just if a call was seen to happen between them, and one comes back to
another just if a call was seen to happen that goes on in the second, the
first being an exit of the method called: a block in which an instruction
leaves it. No relation is there twice and none is ever lost; and who is
related to a block in some way is listed in increasing order, the same from
both of its ends. -/
theorem calls_exact (as bs : List Act) (hhonest : ∀ a ∈ as, a.IsHonest) :
    (∀ a b, (⟨a, b, .call⟩ : Edge) ∈ (chronicle as).graph.edges ↔
        ∃ site back entry, Witnessed as site back entry ∧
          (chronicle as).graph.blockAt site = .ok a ∧
          (chronicle as).graph.blockAt entry = .ok b) ∧
      (∀ x b, (⟨x, b, .back⟩ : Edge) ∈ (chronicle as).graph.edges ↔
        ∃ site back entry, Witnessed as site back entry ∧
          (chronicle as).graph.blockAt back = .ok b ∧
          x ∈ (chronicle as).graph.exitsOf entry.site.method) ∧
      (∀ m x, x ∈ (chronicle as).graph.exitsOf m ↔
        ∃ r i, (chronicle as).routines.find? m = some r ∧ r.leavesAt i = true ∧
          (chronicle as).graph.blockAt (.instr ⟨m, i⟩) = .ok x) ∧
      (chronicle as).graph.edges.Nodup ∧
      (∀ e ∈ (chronicle as).graph.edges, e ∈ (chronicle (as ++ bs)).graph.edges) ∧
      ∀ (r : Relation) (a b : BlockNo),
        ((chronicle as).graph.targets a r).toList.Pairwise (· < ·) ∧
        ((chronicle as).graph.sources b r).toList.Pairwise (· < ·) ∧
        (b ∈ (chronicle as).graph.targets a r ↔
          (⟨a, b, r⟩ : Edge) ∈ (chronicle as).graph.edges) ∧
        (b ∈ (chronicle as).graph.targets a r ↔ a ∈ (chronicle as).graph.sources b r) := by
  refine ⟨fun a b => ?_, fun x b => ?_, fun m x => mem_exitsOf (sound_chronicle as),
    nodup_chronicle as, fun e he => mem_edges_later as bs he, fun r a b => ?_⟩
  · rw [mem_edges_chronicle (Or.inl rfl) hhonest]
    constructor
    · rintro ⟨site, back, entry, hw, hmem⟩
      rcases (mem_callsBetween_of_placed (hw.placed hhonest)).1 hmem with ⟨-, h⟩ | ⟨h, -⟩
      · exact ⟨site, back, entry, hw, h⟩
      · cases h
    · rintro ⟨site, back, entry, hw, h⟩
      exact ⟨site, back, entry, hw,
        (mem_callsBetween_of_placed (hw.placed hhonest)).2 (Or.inl ⟨rfl, h⟩)⟩
  · rw [mem_edges_chronicle (Or.inr rfl) hhonest]
    constructor
    · rintro ⟨site, back, entry, hw, hmem⟩
      rcases (mem_callsBetween_of_placed (hw.placed hhonest)).1 hmem with ⟨h, -⟩ | ⟨-, hx, hb⟩
      · cases h
      · exact ⟨site, back, entry, hw, hb, hx⟩
    · rintro ⟨site, back, entry, hw, hb, hx⟩
      exact ⟨site, back, entry, hw,
        (mem_callsBetween_of_placed (hw.placed hhonest)).2 (Or.inr ⟨rfl, hx, hb⟩)⟩
  · exact ⟨IdSet.increasing _, IdSet.increasing _, mem_targets, mem_targets.trans mem_sources.symm⟩

/-- A routine that calls another and goes on. -/
def caller : Routine := ⟨0, "caller", [⟨.call, [1], []⟩, ⟨.leave, [], []⟩]⟩

/-- The one calls the other, which calls itself, and a call goes to a method
that nobody knows. -/
def recursion : List Act :=
  [.register caller,
    .observe (Routine.loader [guarded]) (.instr ⟨0, 0⟩) (.instr ⟨0, 1⟩) (.methodEntry ⟨3, 0⟩),
    .observe (Routine.loader []) (.concreteCall ⟨3, 1⟩) (.instr ⟨3, 2⟩) (.instr ⟨3, 0⟩),
    .observe (Routine.loader []) (.instr ⟨0, 0⟩) (.instr ⟨0, 1⟩) (.instr ⟨7, 0⟩)]

/-- The block that calls itself is not one of the two that it comes back
from. -/
theorem calls_exact_recursion :
    (∀ a ∈ recursion, a.IsHonest) ∧
      (chronicle recursion).graph.targets 2 .call = .ofList [2] ∧
      (∃ site back entry, Witnessed recursion site back entry ∧
        (chronicle recursion).graph.blockAt site = .ok 2 ∧
        (chronicle recursion).graph.blockAt entry = .ok 2) ∧
      (∃ site back entry, Witnessed recursion site back entry ∧
        (chronicle recursion).graph.blockAt back = .ok 3 ∧
        4 ∈ (chronicle recursion).graph.exitsOf entry.site.method) ∧
      (⟨4, 3, .back⟩ : Edge) ∈ (chronicle (recursion ++ [.register codeless])).graph.edges := by
  have hhonest : ∀ a ∈ recursion, a.IsHonest := by
    simp only [recursion, List.forall_mem_cons, List.not_mem_nil, false_implies, implies_true,
      and_true]
    exact ⟨trivial, Routine.isHonest_loader _, Routine.isHonest_loader _,
      Routine.isHonest_loader _⟩
  obtain ⟨hcall, hback, -, -, hlater, -⟩ := calls_exact recursion [.register codeless] hhonest
  exact ⟨hhonest, by decide, (hcall 2 2).1 (by decide), (hback 4 3).1 (by decide),
    hlater _ (by decide)⟩

end FlowGraph

end SymbolicSearch
